/-
Arguments are written as they are.

`encode` puts the arguments of a message on the line without quoting, escaping or
checking them.  So an argument may end the line, or break into words that make another
message: `one_line_iff` says exactly when neither happens.  And the text of FAILED and
ERROR, which the protocol has in double quotes, is written without them and read with
them: `quotes_kept`.
-/
import KvServer.Proofs.Dialogue
import KvServer.Proofs.Layout

namespace KvServer

/-! ### What an encoded message decodes to

`decode` sees the arguments joined by blanks, so it finds their words, and their words are
themselves just when no argument has white space in it or is empty.
-/

/-- The words an argument list breaks into. -/
def words (args : List Str) : List Str := args.flatMap (Lexing.tokens isSpace)

theorem startsBlank_joined (args : List Str) : StartsBlank (joined args) := by
  intro c hc
  cases args with
  | nil => cases hc
  | cons arg more => exact (Option.some.inj hc).symm

theorem joined_words (args : List Str) : Lexing.Runs isSpace (joined args) (words args) := by
  induction args with
  | nil => exact .nil (by simp [joined])
  | cons arg more ih =>
      have harg : Lexing.Runs isSpace (blank :: arg) (Lexing.tokens isSpace arg) :=
        (Lexing.tokens_runs arg).cons_sep (by decide)
      refine harg.append (fun c hc => ?_) ih
      rw [startsBlank_joined more c hc]
      decide

/-- Only words without white space are their own words. -/
theorem words_eq_iff {args : List Str} : words args = args ↔ ∀ arg ∈ args, Value arg := by
  constructor
  · intro h arg harg
    obtain ⟨hne, hspace⟩ := (joined_words args).mem arg (h.symm ▸ harg)
    exact ⟨hne, hspace⟩
  · intro h
    rw [← Lexing.tokens_eq_iff.mpr (joined_words args), Lexing.tokens_eq_iff]
    exact joined_runs h

section Encoded

variable {m m' : Message} {s : Str} (h : encode m = .ok s)
include h

theorem decode_encoded :
    decode s = .ok m' ↔ m'.messageType = m.messageType ∧
      Tail m.messageType (joined m.args) m'.args ∧ Arguments m.messageType m'.args := by
  obtain ⟨word, hword, rfl, hlen⟩ := encode_eq_ok.mp h
  have hspace : ∀ c, (joined m.args).head? = some c → isSpace c = true := by
    intro c hc
    rw [startsBlank_joined m.args c hc]
    decide
  exact decode_line hword (List.forall_mem_nil _) hspace hlen

/-- What a message decodes to once it is encoded, if its type takes words. -/
theorem decode_encoded_words (htext : m.messageType.isText = false) :
    decode s = .ok m' ↔ m' = { m with args := words m.args } ∧ m'.isValid = true := by
  rw [decode_encoded h, tail_iff htext, isValid_iff]
  constructor
  · rintro ⟨htype, ⟨hruns, -⟩, hargs⟩
    have hwords : m'.args = words m.args := by
      rw [← Lexing.tokens_eq_iff.mpr hruns, Lexing.tokens_eq_iff.mpr (joined_words m.args)]
    exact ⟨by rw [← htype, ← hwords], htype ▸ hargs⟩
  · rintro ⟨rfl, hargs⟩
    exact ⟨rfl, ⟨joined_words m.args, startsBlank_joined m.args⟩, hargs⟩

/-- And if it takes one text. -/
theorem decode_encoded_text (htext : m.messageType.isText = true) :
    decode s = .ok m' ↔
      ∃ arg more, m.args = arg :: more ∧ m' = { m with args := [arg ++ joined more] } := by
  rw [decode_encoded h]
  constructor
  · rintro ⟨htype, htail, hargs⟩
    obtain ⟨text, htext'⟩ := hargs.text htext
    cases hm : m.args with
    | nil =>
        -- nothing follows the word, and a text there has to be
        rw [hm, htext'] at htail
        cases htail
    | cons arg more =>
        rw [hm] at htail
        refine ⟨arg, more, rfl, ?_⟩
        have hjoined : joined (arg :: more) = blank :: (arg ++ joined more) := rfl
        rw [hjoined] at htail
        obtain ⟨type', args'⟩ := m'
        obtain rfl : type' = m.messageType := htype
        cases htail with
        | text _ _ => rfl
        | words hfalse _ => rw [htext] at hfalse; cases hfalse
  · rintro ⟨arg, more, hm, rfl⟩
    refine ⟨rfl, ?_, ?_⟩
    · rw [hm]
      exact .text htext _
    · show Arguments m.messageType [arg ++ joined more]
      cases htype : m.messageType <;> rw [htype] at htext <;> cases htext
      · exact .failed _
      · exact .error _

end Encoded

/-! ### When one message is one line, and no other message

There are two ways to go wrong, a newline inside the line and a change of the arguments; the
second is harmless if the result is not valid.
-/

/-- One newline, at the end. -/
def OneLine (s : Str) : Prop := s.getLast? = some newline ∧ s.count newline = 1

/-- Decoding gives the message, or `InvalidMessage`. -/
def NoOther (m : Message) (s : Str) : Prop :=
  decode s = .ok m ∨ ∃ what, decode s = .error (.invalidMessage what)

/-- No argument ends the line; a text is one argument; and arguments that are to be words either are
words, or break into words that are no message of the type. -/
structure Separable (m : Message) : Prop where
  oneLine : ∀ arg ∈ m.args, newline ∉ arg
  text : m.messageType.isText = true → m.args.length ≤ 1
  words : m.messageType.isText = false →
    (∀ arg ∈ m.args, Value arg) ∨ Message.isValid { m with args := words m.args } = false

theorem noOther_iff {m : Message} {s : Str} : NoOther m s ↔ ∀ m', decode s = .ok m' → m' = m := by
  constructor
  · rintro (hs | ⟨what, hs⟩) m' hm'
    · rw [hs] at hm'
      exact (Except.ok.inj hm').symm
    · rw [hs] at hm'
      cases hm'
  · intro h
    cases hs : decode s with
    | ok m' => exact .inl (by rw [hs, h m' hs])
    | error e =>
        obtain ⟨what, rfl, -⟩ := decode_error hs
        exact .inr ⟨what, hs⟩

theorem oneLine_iff {m : Message} {s : Str} (h : encode m = .ok s) :
    OneLine s ↔ ∀ arg ∈ m.args, newline ∉ arg := by
  obtain ⟨word, hword, rfl, -⟩ := encode_eq_ok.mp h
  have hnewline : newline ∉ word := fun hc =>
    absurd ((commandStr_value hword).noSpace _ hc) (by decide)
  have hzero : word.count newline = 0 := List.count_eq_zero.mpr hnewline
  have hcount : OneLine (word ++ joined m.args ++ [newline]) ↔ newline ∉ joined m.args := by
    rw [OneLine, List.count_append, List.count_append, hzero, ← List.count_eq_zero]
    simp
  rw [hcount]
  constructor
  · exact fun hnot arg harg hc => hnot (mem_joined_of_mem harg hc)
  · intro hargs hc
    rcases mem_joined hc with hc | ⟨arg, harg, hc⟩
    · exact absurd hc (by decide)
    · exact hargs arg harg hc

/-- **When an encoded message is one line and never another message.**  Exactly when no argument
holds a newline, a text comes alone, and the other arguments do not break into the words of another
message. -/
theorem one_line_iff {m : Message} {s : Str} (h : encode m = .ok s) :
    OneLine s ∧ NoOther m s ↔ Separable m := by
  rw [oneLine_iff h, noOther_iff]
  cases htext : m.messageType.isText with
  | true =>
      simp only [decode_encoded_text h htext]
      constructor
      · rintro ⟨hline, hother⟩
        refine ⟨hline, fun _ => ?_, fun hfalse => ?_⟩
        · cases hm : m.args with
          | nil => exact Nat.zero_le _
          | cons arg more =>
              have hsame := congrArg Message.args (hother _ ⟨arg, more, hm, rfl⟩)
              rw [← hm, ← hsame]
              exact Nat.le_refl _
        · rw [htext] at hfalse
          cases hfalse
      · rintro ⟨hline, hone, -⟩
        refine ⟨hline, ?_⟩
        rintro m' ⟨arg, more, hm, rfl⟩
        have hnil : more = [] := by
          have := hone htext
          rw [hm, List.length_cons] at this
          exact List.eq_nil_of_length_eq_zero (by omega)
        obtain ⟨type, args⟩ := m
        obtain rfl : args = arg :: more := hm
        simp [hnil, joined]
  | false =>
      simp only [decode_encoded_words h htext]
      constructor
      · rintro ⟨hline, hother⟩
        refine ⟨hline, fun htrue => ?_, fun _ => ?_⟩
        · rw [htext] at htrue
          cases htrue
        · cases hvalid : Message.isValid { m with args := words m.args } with
          | false => exact .inr rfl
          | true =>
              exact .inl (words_eq_iff.mp (congrArg Message.args (hother _ ⟨rfl, hvalid⟩)))
      · rintro ⟨hline, -, hwords⟩
        refine ⟨hline, ?_⟩
        rintro m' ⟨rfl, hvalid⟩
        rcases hwords htext with hvalues | hinvalid
        · rw [words_eq_iff.mpr hvalues]
        · rw [hinvalid] at hvalid
          cases hvalid

/-- A value with a newline in it is two requests, and a table name with a blank in it is a table and
a key. -/
theorem push_says_bye :
    encode { messageType := .push, args := [bytes "1\nBYE"] } = .ok (bytes "PUSH 1\nBYE\n") ∧
      ¬ OneLine (bytes "PUSH 1\nBYE\n") ∧
      encode { messageType := .get, args := [bytes "accounts k1"] }
        = .ok (bytes "GET accounts k1\n") ∧
      ¬ NoOther { messageType := .get, args := [bytes "accounts k1"] }
        (bytes "GET accounts k1\n") := by
  refine ⟨by decide, fun h => absurd h.2 (by decide), by decide, fun h => ?_⟩
  have hother := noOther_iff.mp h { messageType := .get, args := [bytes "accounts", bytes "k1"] }
    (by decide)
  exact absurd hother (by decide)

/-- A GET of three words is refused, however they are grouped. -/
theorem one_line_iff_grouped :
    OneLine (bytes "GET accounts k1 k2\n") ∧
      NoOther { messageType := .get, args := [bytes "accounts", bytes "k1 k2"] }
        (bytes "GET accounts k1 k2\n") :=
  (one_line_iff (by decide)).mpr
    { oneLine := by decide
      text := by decide
      words := fun _ => .inr (by decide) }

/-! ### Quotes

The texts of FAILED and ERROR are quoted in the protocol's description, while the source
writes and reads them bare.
-/

/-- A text as the protocol has it on the line. -/
def quoted (text : Str) : Str := 34 :: text ++ [34]

def quotedLine (word text : Str) : Str := word ++ blank :: quoted text ++ [newline]

/-- A text that can be sent in quotes. -/
structure Quotable (type : MessageType) (word text : Str) : Prop where
  isText : type.isText = true
  command : commandStr type = .ok word
  clean : ∀ c ∈ text, c ≠ 34 ∧ c ≠ newline ∧ c ≠ nul
  fits : (quotedLine word text).length ≤ maxEncodedLen

/-- The message has the plain text, and the line has the quoted one. -/
def PlainAndQuoted (type : MessageType) (word text : Str) : Prop :=
  encode ⟨type, [text]⟩ = .ok (quotedLine word text) ∧
    (∀ lead, (∀ c ∈ lead, isSpace c = true) →
      (lead ++ quotedLine word text).length ≤ maxEncodedLen →
        decode (lead ++ quotedLine word text) = .ok ⟨type, [text]⟩) ∧
    Message.getQuotedText ⟨type, [text]⟩ = text

theorem getQuotedText_quoted (type : MessageType) (text : Str) :
    Message.getQuotedText ⟨type, [quoted text]⟩ = text := by
  have hlast : (quoted text).getLast? = some 34 := List.getLast?_concat
  rw [Message.getQuotedText]
  simp only [hlast]
  simp [quoted]

/-- A text without quotes has none to be taken off. -/
theorem getQuotedText_plain (type : MessageType) {text : Str} (h : (34 : Byte) ∉ text) :
    Message.getQuotedText ⟨type, [text]⟩ = text := by
  cases text with
  | nil => rfl
  | cons c cs =>
      have hc : c ≠ 34 := fun hc => h (hc ▸ List.mem_cons_self)
      simp [Message.getQuotedText, hc]

variable {type : MessageType} {word text : Str}

theorem encode_quotable (h : Quotable type word text) :
    encode ⟨type, [text]⟩ = .ok (word ++ blank :: text ++ [newline]) := by
  have hfits := h.fits
  simp only [quotedLine, quoted, List.length_append, List.length_cons] at hfits
  refine encode_eq_ok.mpr ⟨word, h.command, by simp [joined], ?_⟩
  simp only [List.length_append, List.length_cons]
  omega

theorem decode_quoted (h : Quotable type word text) {lead : Str}
    (hlead : ∀ c ∈ lead, isSpace c = true)
    (hlen : (lead ++ quotedLine word text).length ≤ maxEncodedLen) :
    decode (lead ++ quotedLine word text) = .ok ⟨type, [quoted text]⟩ := by
  have hargs : Arguments type [quoted text] := by
    have htext := h.isText
    cases type <;> cases htext
    · exact .failed _
    · exact .error _
  have hspace : ∀ c, (blank :: quoted text).head? = some c → isSpace c = true := by
    intro c hc
    obtain rfl := Option.some.inj hc
    decide
  have hshape : lead ++ quotedLine word text
      = lead ++ word ++ blank :: quoted text ++ [newline] := by
    simp only [quotedLine, List.append_assoc]
  rw [hshape] at hlen ⊢
  exact (decode_line h.command hlead hspace hlen).mpr ⟨rfl, .text h.isText _, hargs⟩

/-- **The quotes are neither written nor taken off.**  No text has the format on either side:
`encode` writes it without quotes, and `decode` leaves them in the message; only `get_quoted_text` gives
the text both ways. -/
theorem quotes_kept (h : Quotable type word text) :
    ¬ PlainAndQuoted type word text ∧
      encode ⟨type, [text]⟩ = .ok (word ++ blank :: text ++ [newline]) ∧
      (∀ lead, (∀ c ∈ lead, isSpace c = true) →
        (lead ++ quotedLine word text).length ≤ maxEncodedLen →
          decode (lead ++ quotedLine word text) = .ok ⟨type, [quoted text]⟩) ∧
      Message.getQuotedText ⟨type, [text]⟩ = text ∧
      Message.getQuotedText ⟨type, [quoted text]⟩ = text := by
  refine ⟨?_, encode_quotable h, fun lead hlead hlen => decode_quoted h hlead hlen,
    getQuotedText_plain type fun hc => (h.clean 34 hc).1 rfl, getQuotedText_quoted type text⟩
  rintro ⟨hencode, -, -⟩
  have hline := congrArg List.length (Except.ok.inj ((encode_quotable h).symm.trans hencode))
  simp only [quotedLine, quoted, List.length_append, List.length_cons, List.length_nil] at hline
  omega

theorem quotes_kept_error :
    ¬ PlainAndQuoted .error (bytes "ERROR") (bytes "no such table") := by
  have hclean : ((bytes "no such table").all fun c => c ≠ 34 ∧ c ≠ newline ∧ c ≠ nul) = true := by
    decide
  have hquotable : Quotable .error (bytes "ERROR") (bytes "no such table") :=
    { isText := rfl, command := rfl, clean := by simpa using hclean, fits := by decide }
  exact (quotes_kept hquotable).1

/-- FAILED with the text `x`, one way and the other. -/
theorem failed_unquoted :
    encode ⟨.failed, [bytes "x"]⟩ = .ok (bytes "FAILED x\n") ∧
      decode (bytes "FAILED \"x\"\n") = .ok ⟨.failed, [bytes "\"x\""]⟩ ∧
      ¬ PlainAndQuoted .failed (bytes "FAILED") (bytes "x") := by
  refine ⟨by decide, by decide, ?_⟩
  rintro ⟨hencode, -, -⟩
  exact absurd hencode (by decide)

end KvServer
