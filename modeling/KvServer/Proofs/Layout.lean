/-
The white space of a line.

Two things are asked of it.  Encoding what a line decodes to gives the same message in
its shortest form, so doing it again changes nothing: `reencode_normalises`.  And the
white space between the tokens of a line should not matter; it does when the command word
is followed by white space that is not a blank, because there `decode` looks for the
blank alone.  `whitespace_matters_iff` says exactly when two layouts of the same tokens
have different outcomes.
-/
import KvServer.Proofs.Serialization

namespace KvServer

/-! ### Words that follow a command word

`decode` needs a blank behind the command word; behind that any white space will do.
-/

/-- Nothing, or something that begins with a blank. -/
def StartsBlank (s : Str) : Prop := ∀ c, s.head? = some c → c = blank

instance (s : Str) : Decidable (StartsBlank s) :=
  Option.decidableForallMem s.head?

theorem Tail.startsBlank {type : MessageType} {tail : Str} {args : List Str}
    (h : Tail type tail args) : StartsBlank tail := by
  intro c hc
  cases h with
  | bare => cases hc
  | text _ _ => exact (Option.some.inj hc).symm
  | words _ _ => exact (Option.some.inj hc).symm

/-- After a command word that is followed by words, the grammar wants their runs, the blank before
them included. -/
theorem tail_iff {type : MessageType} (htext : type.isText = false) {tail : Str}
    {args : List Str} :
    Tail type tail args ↔ Lexing.Runs isSpace tail args ∧ StartsBlank tail := by
  constructor
  · intro h
    refine ⟨?_, h.startsBlank⟩
    cases h with
    | bare => exact .nil (by simp)
    | text htype _ => rw [htext] at htype; cases htype
    | words _ hruns => exact hruns.cons_sep (by decide)
  · rintro ⟨hruns, hstart⟩
    cases tail with
    | nil =>
        obtain rfl := Lexing.tokens_eq_iff.mpr hruns
        exact .bare
    | cons c rest =>
        obtain rfl := hstart c rfl
        exact .words htext (hruns.of_cons (by decide))

theorem length_joined (args : List Str) :
    (joined args).length = args.flatten.length + args.length := by
  induction args with
  | nil => rfl
  | cons arg more ih =>
      have hcons : joined (arg :: more) = blank :: arg ++ joined more := rfl
      rw [hcons, List.length_append, ih]
      simp only [List.flatten_cons, List.length_cons, List.length_append]
      omega

/-- What `encode` writes after the command word is no longer than what was read there. -/
theorem Tail.joined_le {type : MessageType} {tail : Str} {args : List Str}
    (h : Tail type tail args) : (joined args).length ≤ tail.length := by
  cases htype : type.isText with
  | false =>
      obtain ⟨hruns, hstart⟩ := (tail_iff htype).mp h
      rw [length_joined]
      refine hruns.length_le fun c hc => ?_
      rw [hstart c hc]
      decide
  | true =>
      cases h with
      | bare => simp [joined]
      | text _ rest => simp [joined]
      | words hfalse _ => rw [htype] at hfalse; cases hfalse

/-! ### Re-encoding

What `encode` writes has single blanks, which is the least a line can have.
-/

/-- `decode` followed by `encode`. -/
def reencode (s : Str) : Except Exn Str := decode s >>= encode

theorem reencode_encode {m : Message} {s : Str} (hvalid : m.isValid = true)
    (h : encode m = .ok s) : reencode s = .ok s := by
  rw [reencode, decode_eq_ok.mpr (encode_encodes hvalid h), ok_bind, h]

/-- Whatever encodes a message, `encode` finds something that is no longer. -/
theorem Encodes.encode_le {s : Str} {m : Message} (h : Encodes s m) :
    ∃ s', encode m = .ok s' ∧ s'.length ≤ s.length := by
  obtain ⟨hlen, hlast, ⟨word, tail, hword, hline, htail⟩, -⟩ := h
  have hjoined := htail.joined_le
  have hdrop : (s.dropLast.dropWhile isSpace).length ≤ s.length - 1 := by
    rw [← List.length_dropLast]
    exact (List.dropWhile_sublist isSpace).length_le
  have hpos : 0 < s.length := List.length_pos_iff.mpr (by rintro rfl; cases hlast)
  have hle : (word ++ joined m.args ++ [newline]).length ≤ s.length := by
    rw [hline] at hdrop
    simp only [List.length_append, List.length_cons, List.length_nil] at hdrop ⊢
    omega
  exact ⟨_, encode_eq_ok.mpr ⟨word, hword, rfl, by omega⟩, hle⟩

/-- **Re-encoding normalises and never grows a line.**  What a line decodes to can be encoded, in no
more bytes, and re-encoding that changes nothing; and two lines decode to the same message exactly
when they re-encode to the same line. -/
theorem reencode_normalises {s t : Str} {m n : Message} (hs : decode s = .ok m)
    (ht : decode t = .ok n) :
    (∃ s', encode m = .ok s' ∧ s'.length ≤ s.length ∧ reencode s' = .ok s') ∧
      (m = n ↔ encode m = encode n) := by
  have hm := decode_eq_ok.mp hs
  have hn := decode_eq_ok.mp ht
  obtain ⟨s', hs', hle⟩ := hm.encode_le
  have hvalid : m.isValid = true := isValid_iff.mpr hm.line.arguments
  refine ⟨⟨s', hs', hle, reencode_encode hvalid hs'⟩, fun h => by rw [h], fun h => ?_⟩
  -- both messages can be read off the one line they encode to
  have hm' := decode_encode hvalid hs'
  have hn' := decode_encode (isValid_iff.mpr hn.line.arguments) (h ▸ hs')
  rw [hm'] at hn'
  exact Except.ok.inj hn'

/-- A GET with more white space than it needs, and the same GET without. -/
theorem reencode_normalises_get :
    ∃ s', encode { messageType := .get, args := [bytes "accounts", bytes "k1"] } = .ok s' ∧
      s'.length ≤ (bytes "  GET  accounts\t k1 \r\n").length ∧ reencode s' = .ok s' :=
  (reencode_normalises (s := bytes "  GET  accounts\t k1 \r\n") (t := bytes "GET accounts k1\n")
    (n := { messageType := .get, args := [bytes "accounts", bytes "k1"] })
    (by decide) (by decide)).1

/-! ### Layouts

A layout is the text of a line with the white space spelled out, so that two lines with the
same tokens can be compared.
-/

/-- Space, tab, carriage return, vertical tab and form feed: all white space but the newline. -/
def Gap (w : Str) : Prop := ∀ c ∈ w, c = 32 ∨ c = 9 ∨ c = 13 ∨ c = 11 ∨ c = 12

instance (w : Str) : Decidable (Gap w) := List.decidableBAll _ w

theorem Gap.isSpace {w : Str} (h : Gap w) : ∀ c ∈ w, isSpace c = true := by
  intro c hc
  rcases h c hc with rfl | rfl | rfl | rfl | rfl <;> decide

/-- The arguments of a line with the white space around them. -/
structure Layout where
  lead : Str
  /-- each argument after the white space before it -/
  tokens : List (Str × Str)
  trail : Str
  lead_gap : Gap lead
  tokens_gap : ∀ p ∈ tokens, (p.1 ≠ [] ∧ Gap p.1) ∧ Value p.2
  trail_gap : Gap trail

namespace Layout

def args (l : Layout) : List Str := l.tokens.map Prod.snd

/-- What stands between the command word and the newline. -/
def afterWord (l : Layout) : Str := (l.tokens.map fun p => p.1 ++ p.2).flatten ++ l.trail

def line (l : Layout) (word : Str) : Str := l.lead ++ word ++ l.afterWord ++ [newline]

/-- The same arguments, each after a single blank. -/
def single (l : Layout) : Layout where
  lead := []
  tokens := l.tokens.map fun p => ([blank], p.2)
  trail := []
  lead_gap := by simp [Gap]
  tokens_gap := by
    intro p hp
    obtain ⟨q, hq, rfl⟩ := List.mem_map.mp hp
    exact ⟨⟨List.cons_ne_nil _ _, by simp [Gap, blank]⟩, (l.tokens_gap q hq).2⟩
  trail_gap := by simp [Gap]

@[simp] theorem single_args (l : Layout) : l.single.args = l.args := by
  simp [single, args]

theorem single_afterWord (l : Layout) : l.single.afterWord = joined l.args := by
  simp [single, afterWord, args, joined, Function.comp_def]

theorem runs (l : Layout) : Lexing.Runs isSpace l.afterWord l.args := by
  refine Lexing.runs_spaced (fun p hp => ?_) l.trail_gap.isSpace
  obtain ⟨⟨hne, hgap⟩, hvalue⟩ := l.tokens_gap p hp
  exact ⟨hne, hgap.isSpace, hvalue.nonempty, hvalue.noSpace⟩

/-- Whatever follows the command word begins with white space. -/
theorem head_isSpace (l : Layout) {c : Byte} (h : l.afterWord.head? = some c) :
    isSpace c = true := by
  cases htokens : l.tokens with
  | nil =>
      refine l.trail_gap.isSpace c (List.mem_of_mem_head? ?_)
      simpa [afterWord, htokens] using h
  | cons p more =>
      obtain ⟨⟨hne, hgap⟩, -⟩ := l.tokens_gap p (by simp [htokens])
      obtain ⟨d, ds, hd⟩ := List.exists_cons_of_ne_nil hne
      have hc : d = c := by simpa [afterWord, htokens, hd] using h
      exact hgap.isSpace c (by simp [hd, hc])

theorem single_startsBlank (l : Layout) : StartsBlank l.single.afterWord := by
  rw [single_afterWord]
  intro c hc
  cases hargs : l.args with
  | nil => simp [hargs, joined] at hc
  | cons arg more => simpa [hargs, joined] using hc.symm

/-- Single blanks take no more room. -/
theorem single_le (l : Layout) (word : Str) :
    (l.single.line word).length ≤ (l.line word).length := by
  have hle := l.runs.length_le fun c => l.head_isSpace
  have hlead : l.single.lead.length = 0 := rfl
  rw [← length_joined] at hle
  rw [line, line, single_afterWord]
  simp only [List.length_append, hlead]
  omega

end Layout

/-! ### What a layout decodes to

If the command word is followed by white space other than a blank, what `decode` takes for the
command goes on behind it, with white space inside, and no command word has any.
-/

theorem commandStr_injective {type type' : MessageType} {word : Str}
    (h : commandStr type = .ok word) (h' : commandStr type' = .ok word) : type = type' := by
  have htype := commandType_eq_ok.mpr h
  rw [commandType_eq_ok.mpr h', Except.ok.injEq] at htype
  exact htype.symm

/-- Two words without white space, each at its end or followed by white space, are one. -/
theorem first_word {word word' tail tail' : Str} (hword : Value word) (hword' : Value word')
    (h : word ++ tail = word' ++ tail') (htail : ∀ c, tail.head? = some c → isSpace c = true)
    (htail' : ∀ c, tail'.head? = some c → isSpace c = true) : word = word' ∧ tail = tail' := by
  obtain ⟨htake, hdrop⟩ := Lexing.takeWhile_token hword.noSpace htail
  obtain ⟨htake', hdrop'⟩ := Lexing.takeWhile_token hword'.noSpace htail'
  rw [h] at htake hdrop
  exact ⟨htake.symm.trans htake', hdrop.symm.trans hdrop'⟩

section Decoding

variable {type : MessageType} {word : Str} (hword : commandStr type = .ok word)
include hword

/-- A line with a command word in it is a message of that command, if one at all. -/
theorem decode_line {lead tail : Str} {m : Message} (hlead : ∀ c ∈ lead, isSpace c = true)
    (htail : ∀ c, tail.head? = some c → isSpace c = true)
    (hlen : (lead ++ word ++ tail ++ [newline]).length ≤ maxEncodedLen) :
    decode (lead ++ word ++ tail ++ [newline]) = .ok m ↔
      m.messageType = type ∧ Tail type tail m.args ∧ Arguments type m.args := by
  have hvalue := commandStr_value hword
  rw [decode_eq_ok]
  constructor
  · rintro ⟨-, -, hline⟩
    rw [trimmed hlead hvalue] at hline
    obtain ⟨⟨word', tail', hword', hsplit, htail'⟩, hargs⟩ := hline
    have hspace : ∀ c, tail'.head? = some c → isSpace c = true := by
      intro c hc
      rw [htail'.startsBlank c hc]
      decide
    obtain ⟨rfl, rfl⟩ := first_word hvalue (commandStr_value hword') hsplit htail hspace
    have htype := commandStr_injective hword' hword
    exact ⟨htype, htype ▸ htail', htype ▸ hargs⟩
  · rintro ⟨rfl, htail, hargs⟩
    refine ⟨hlen, List.getLast?_concat, ?_⟩
    rw [trimmed hlead hvalue]
    exact ⟨⟨word, tail, hword, rfl, htail⟩, hargs⟩

theorem decode_layout (htext : type.isText = false) (l : Layout)
    (hlen : (l.line word).length ≤ maxEncodedLen) {m : Message} :
    decode (l.line word) = .ok m ↔
      m = ⟨type, l.args⟩ ∧ Arguments type l.args ∧ StartsBlank l.afterWord := by
  rw [Layout.line, decode_line hword l.lead_gap.isSpace (fun c => l.head_isSpace) hlen]
  constructor
  · rintro ⟨htype, htail, hargs⟩
    obtain ⟨hruns, hstart⟩ := (tail_iff htext).mp htail
    -- the runs of what follows the word are the arguments of the layout, and no others
    have hsame : m.args = l.args := by
      rw [← Lexing.tokens_eq_iff.mpr hruns, Lexing.tokens_eq_iff.mpr l.runs]
    refine ⟨?_, hsame ▸ hargs, hstart⟩
    rw [← htype, ← hsame]
  · rintro ⟨rfl, hargs, hstart⟩
    exact ⟨rfl, (tail_iff htext).mpr ⟨l.runs, hstart⟩, hargs⟩

end Decoding

/-! ### Two layouts of the same tokens -/

/-- The same message, or `InvalidMessage` from both. -/
def SameDecoding (r r' : Except Exn Message) : Prop :=
  (∃ m, r = .ok m ∧ r' = .ok m) ∨
    (∃ what, r = .error (.invalidMessage what)) ∧ ∃ what, r' = .error (.invalidMessage what)

theorem sameDecoding_iff {s t : Str} :
    SameDecoding (decode s) (decode t) ↔ ∀ m, decode s = .ok m ↔ decode t = .ok m := by
  constructor
  · rintro (⟨n, hs, ht⟩ | ⟨⟨what, hs⟩, what', ht⟩)
    · rw [hs, ht]
      exact fun _ => Iff.rfl
    · rw [hs, ht]
      exact fun _ => ⟨nofun, nofun⟩
  · intro h
    cases hs : decode s with
    | ok m => exact .inl ⟨m, rfl, (h m).mp hs⟩
    | error e =>
        obtain ⟨what, rfl, -⟩ := decode_error hs
        cases ht : decode t with
        | ok m =>
            rw [(h m).mpr ht] at hs
            cases hs
        | error e' =>
            obtain ⟨what', rfl, -⟩ := decode_error ht
            exact .inr ⟨⟨what, rfl⟩, what', rfl⟩

/-- **When white space between tokens does not matter.**  A layout of a command has the outcome of
the same tokens with single blanks exactly when the white space after the command word, if there
is any, begins with a blank, or the tokens are not a message at all. -/
theorem whitespace_matters_iff {type : MessageType} {word : Str}
    (hword : commandStr type = .ok word) (htext : type.isText = false) (l : Layout)
    (hlen : (l.line word).length ≤ maxEncodedLen) :
    SameDecoding (decode (l.line word)) (decode (l.single.line word)) ↔
      StartsBlank l.afterWord ∨ Message.isValid ⟨type, l.args⟩ = false := by
  have hsingle := l.single_startsBlank
  have hline (m : Message) := decode_layout hword htext l hlen (m := m)
  have hsame (m : Message) :=
    decode_layout hword htext l.single ((l.single_le word).trans hlen) (m := m)
  simp only [sameDecoding_iff, hline, hsame, Layout.single_args]
  rw [← Bool.not_eq_true, isValid_iff]
  constructor
  · intro h
    by_contra hnot
    obtain ⟨hstart, hvalid⟩ := not_or.mp hnot
    exact hstart ((h _).mpr ⟨rfl, not_not.mp hvalid, hsingle⟩).2.2
  · rintro (hstart | hinvalid) m
    · exact ⟨fun ⟨hm, hargs, _⟩ => ⟨hm, hargs, hsingle⟩, fun ⟨hm, hargs, _⟩ => ⟨hm, hargs, hstart⟩⟩
    · exact ⟨fun h => absurd h.2.1 hinvalid, fun h => absurd h.2.1 hinvalid⟩

/-- The end of a line, a carriage return and a newline, right after the command word. -/
def crlf : Layout where
  lead := []
  tokens := []
  trail := [13]
  lead_gap := by decide
  tokens_gap := by simp
  trail_gap := by decide

/-- TOP is refused with a carriage return before the newline, though it is a message without. -/
theorem top_crlf_refused :
    crlf.line (bytes "TOP") = bytes "TOP\r\n" ∧ crlf.single.line (bytes "TOP") = bytes "TOP\n" ∧
      ¬ SameDecoding (decode (bytes "TOP\r\n")) (decode (bytes "TOP\n")) := by
  refine ⟨by decide, by decide, ?_⟩
  rintro (⟨m, hcrlf, -⟩ | ⟨-, what, hplain⟩)
  · have : decode (bytes "TOP\r\n") = .error (.invalidMessage (bytes "Unknown command")) := by
      decide
    rw [this] at hcrlf
    cases hcrlf
  · have : decode (bytes "TOP\n") = .ok { messageType := .top } := by decide
    rw [this] at hplain
    cases hplain

/-- The same end of a line, after two arguments. -/
def spread : Layout where
  lead := []
  tokens := [(bytes "  ", bytes "a"), (bytes "\t", bytes "b")]
  trail := bytes " \r"
  lead_gap := by decide
  tokens_gap := by
    simp only [List.mem_cons, List.not_mem_nil, or_false, forall_eq_or_imp, forall_eq]
    exact ⟨⟨by decide, isValue_iff.mp (by decide)⟩, by decide, isValue_iff.mp (by decide)⟩
  trail_gap := by decide

/-- The carriage return is no trouble there. -/
theorem whitespace_matters_iff_blank :
    SameDecoding (decode (bytes "GET  a\tb \r\n")) (decode (bytes "GET a b\n")) := by
  have hword : commandStr .get = .ok (bytes "GET") := rfl
  exact (whitespace_matters_iff hword rfl spread (by decide)).mpr (.inl (by decide))

end KvServer
