/-
`encode` and `decode` against the grammar.

`Encodes s m` is the grammar of a whole line; `decode_eq_ok` proves that `decode`
accepts exactly it, and `decode_error` that the only other outcome is
`InvalidMessage`.  The round trip then needs no second look at `decode`: it is enough
that what `encode` writes is in the grammar.
-/
import KvServer.Proofs.Grammar

namespace KvServer

/-! ### The command words

`encode` goes from the type to the word by a table, and `decode` from the word to the type by
a chain of comparisons; the two are inverse to each other.
-/

/-- One link of the chain of comparisons. -/
theorem ite_eq {c : Prop} [Decidable c] {α : Type} {a r : α} {x : α}
    (h : (if c then a else x) = r) : (c ∧ a = r) ∨ x = r := by
  by_cases hc : c
  · exact .inl ⟨hc, by rwa [if_pos hc] at h⟩
  · exact .inr (by rwa [if_neg hc] at h)

/-- The two tables are inverse to each other. -/
theorem commandType_eq_ok {word : Str} {type : MessageType} :
    commandType word = .ok type ↔ commandStr type = .ok word := by
  constructor
  · intro h
    unfold commandType at h
    iterate 18
      rcases ite_eq h with ⟨rfl, htype⟩ | h
      · obtain rfl := Except.ok.inj htype
        rfl
    cases h
  · intro h
    cases type
    case none => cases h
    all_goals
      obtain rfl := Except.ok.inj h
      decide

theorem commandType_error {word : Str} {e : Exn} (h : commandType word = .error e) :
    e = .invalidMessage (bytes "Unknown command") := by
  unfold commandType at h
  iterate 18
    rcases ite_eq h with ⟨-, hok⟩ | h
    · cases hok
  exact (Except.error.inj h).symm

theorem commandStr_value {type : MessageType} {word : Str} (h : commandStr type = .ok word) :
    Value word := by
  rw [← isValue_iff]
  cases type
  case none => cases h
  all_goals
    obtain rfl := Except.ok.inj h
    decide

/-- FAILED and ERROR carry one text; the others carry words. -/
def MessageType.isText : MessageType → Bool
  | .failed | .error => true
  | _ => false

theorem text_iff {type : MessageType} {word : Str} (h : commandStr type = .ok word) :
    (word = bytes "FAILED" ∨ word = bytes "ERROR") ↔ type.isText = true := by
  cases type
  case none => cases h
  all_goals
    obtain rfl := Except.ok.inj h
    decide

/-! ### The grammar of a line -/

/-- What may follow the command word. -/
inductive Tail (type : MessageType) : Str → List Str → Prop
  | bare : Tail type [] []
  | text (htype : type.isText = true) (rest : Str) : Tail type (blank :: rest) [rest]
  | words (htype : type.isText = false) {rest : Str} {args : List Str}
      (h : Lexing.Runs isSpace rest args) : Tail type (blank :: rest) args

/-- A line without its newline and leading white space. -/
structure Line (line : Str) (m : Message) : Prop where
  split : ∃ word tail, commandStr m.messageType = .ok word ∧ line = word ++ tail ∧
    Tail m.messageType tail m.args
  arguments : Arguments m.messageType m.args

/-- The strings that encode a message. -/
structure Encodes (s : Str) (m : Message) : Prop where
  length : s.length ≤ maxEncodedLen
  terminated : s.getLast? = some newline
  line : Line (s.dropLast.dropWhile isSpace) m

/-! ### The parts of `decode`

Each step of `decode` is matched with a part of the grammar: trimming with the leading white
space, the split with the first blank, the tokenizer with the runs of `Lib/Tokens`.
-/

theorem drop_skipSpaces (s : Str) : s.drop (skipSpaces s) = s.dropWhile isSpace := by
  induction s with
  | nil => rfl
  | cons c cs ih =>
      by_cases hc : isSpace c
      · simp [skipSpaces, hc, ih]
      · simp [skipSpaces, hc]

theorem skipSpaces_le (s : Str) : skipSpaces s ≤ s.length := by
  induction s with
  | nil => exact Nat.le_refl _
  | cons c cs ih =>
      by_cases hc : isSpace c
      · simpa [skipSpaces, hc] using ih
      · simp [skipSpaces, hc]

/-- None of the `substr` calls of `decode` is out of range. -/
theorem decode_eq (s : Str) :
    decode s =
      if maxEncodedLen < s.length then
        .error (.invalidMessage (bytes "Encoded message exceeds maximum length"))
      else if s.getLast? ≠ some newline then
        .error (.invalidMessage (bytes "Message is not terminated by newline"))
      else decodeLine (s.dropLast.dropWhile isSpace) := by
  have htake : s.take (s.length - 1) = s.dropLast := by rw [List.dropLast_eq_take]
  have hle := skipSpaces_le s.dropLast
  unfold decode
  split_ifs with hlen hlast
  · rfl
  · rfl
  · simp only [substrLen, Nat.not_lt_zero, if_false, List.drop_zero, pure_eq, ok_bind, htake,
      substr, if_neg (Nat.not_lt.mpr hle), drop_skipSpaces]

/-- The split at the first blank, for the two kinds of command word. -/
def argsAfter (word rest : Str) : List Str :=
  if word = bytes "FAILED" ∨ word = bytes "ERROR" then [rest] else Lexing.tokens isSpace rest

theorem splitLine_bare {line : Str} (h : blank ∉ line) : splitLine line = .ok (line, []) := by
  have hnone : find line blank = none := by
    rw [find, List.findIdx?_eq_none_iff]
    intro c hc
    simpa using fun he : c = blank => h (he ▸ hc)
  simp [splitLine, hnone]

theorem splitLine_blank {word rest : Str} (h : blank ∉ word) :
    splitLine (word ++ blank :: rest) = .ok (word, argsAfter word rest) := by
  have hsome : find (word ++ blank :: rest) blank = some word.length := by
    rw [find, List.findIdx?_append]
    have hnone : word.findIdx? (· == blank) = none := by
      rw [List.findIdx?_eq_none_iff]
      intro c hc
      simpa using fun he : c = blank => h (he ▸ hc)
    simp [hnone, List.findIdx?_cons]
  have htake : substrLen (word ++ blank :: rest) 0 word.length = .ok word := by
    simp [substrLen]
  have hdrop : substr (word ++ blank :: rest) (word.length + 1) = .ok rest := by
    simp [substr]
  simp only [splitLine, hsome, htake, hdrop, ok_bind, argsAfter]
  split <;> rfl

/-- A line either has no blank or is split at its first one. -/
theorem blank_cases (line : Str) :
    blank ∉ line ∨ ∃ word rest, line = word ++ blank :: rest ∧ blank ∉ word := by
  by_cases h : blank ∈ line
  · obtain ⟨word, rest, hsplit, hword⟩ := List.eq_append_cons_of_mem h
    exact .inr ⟨word, rest, hsplit, hword⟩
  · exact .inl h

theorem blank_notMem {word : Str} (h : Value word) : blank ∉ word := by
  intro hmem
  have := h.noSpace blank hmem
  exact absurd this (by decide)

/-- `decodeLine` after the line has been split. -/
def decodeSplit (word : Str) (args : List Str) : Except Exn Message := do
  let type ← commandType word
  let msg : Message := { messageType := type, args := args }
  if !msg.isValid then
    throw (.invalidMessage (bytes "Invalid message format for the given type"))
  else
    return msg

theorem decodeLine_eq {line word : Str} {args : List Str} (hne : line ≠ [])
    (h : splitLine line = .ok (word, args)) : decodeLine line = decodeSplit word args := by
  simp only [decodeLine, List.isEmpty_iff, hne, if_false, h, ok_bind]
  rfl

theorem decodeSplit_eq_ok {word : Str} {args : List Str} {m : Message} :
    decodeSplit word args = .ok m ↔
      commandStr m.messageType = .ok word ∧ m.args = args ∧ Arguments m.messageType m.args := by
  unfold decodeSplit
  cases htype : commandType word with
  | error e =>
      simp only [error_bind, reduceCtorEq, false_iff]
      rintro ⟨hword, -, -⟩
      rw [← commandType_eq_ok, htype] at hword
      exact absurd hword (by simp)
  | ok type =>
      have hword := commandType_eq_ok.mp htype
      simp only [ok_bind, pure_eq, throw_eq]
      by_cases hvalid : Message.isValid { messageType := type, args := args } = true
      · simp only [hvalid, Bool.not_true, Bool.false_eq_true, if_false, Except.ok.injEq]
        constructor
        · rintro rfl
          exact ⟨hword, rfl, isValid_iff.mp hvalid⟩
        · rintro ⟨hm, hargs, -⟩
          rw [← commandType_eq_ok, htype, Except.ok.injEq] at hm
          subst hm hargs
          rfl
      · simp only [hvalid, Bool.not_false, if_true, reduceCtorEq, false_iff]
        rintro ⟨hm, hargs, hok⟩
        rw [← commandType_eq_ok, htype, Except.ok.injEq] at hm
        subst hm hargs
        exact hvalid (isValid_iff.mpr hok)

theorem decodeSplit_error {word : Str} {args : List Str} {e : Exn}
    (h : decodeSplit word args = .error e) : ∃ what, e = .invalidMessage what ∧ Text what := by
  unfold decodeSplit at h
  cases htype : commandType word with
  | error e' =>
      simp only [htype, error_bind, Except.error.injEq] at h
      exact ⟨_, h ▸ commandType_error htype, by decide⟩
  | ok type =>
      simp only [htype, ok_bind, pure_eq, throw_eq] at h
      split at h
      · exact ⟨_, (Except.error.inj h).symm, by decide⟩
      · exact absurd h (by simp)

theorem not_line_nil {m : Message} : ¬ Line [] m := by
  rintro ⟨⟨word, tail, hword, hsplit, -⟩, -⟩
  exact (commandStr_value hword).nonempty (List.append_eq_nil_iff.mp hsplit.symm).1

/-- The word is what stands before the first blank. -/
theorem word_unique {word word' rest tail : Str} (hword : blank ∉ word) (hword' : blank ∉ word')
    (h : word ++ blank :: rest = word' ++ tail) (htail : tail ≠ [] → tail.head? = some blank) :
    word = word' ∧ tail = blank :: rest := by
  induction word generalizing word' with
  | nil =>
      cases word' with
      | nil => exact ⟨rfl, h.symm⟩
      | cons c cs =>
          have : blank = c := (List.cons.inj h).1
          exact absurd (this ▸ List.mem_cons_self) hword'
  | cons c cs ih =>
      cases word' with
      | nil =>
          have hhead := htail (by rw [← List.nil_append tail, ← h]; simp)
          rw [← List.nil_append tail, ← h] at hhead
          have : c = blank := by simpa using hhead
          exact absurd (this ▸ List.mem_cons_self) hword
      | cons c' cs' =>
          obtain ⟨hc, hcs⟩ := List.cons.inj h
          obtain ⟨hrec, hrest⟩ := ih (fun hm => hword (List.mem_cons_of_mem _ hm))
            (fun hm => hword' (List.mem_cons_of_mem _ hm)) hcs
          exact ⟨by rw [hc, hrec], hrest⟩

theorem tail_blank {type : MessageType} {word rest : Str} {args : List Str}
    (hword : commandStr type = .ok word) :
    Tail type (blank :: rest) args ↔ args = argsAfter word rest := by
  have htext := text_iff hword
  unfold argsAfter
  constructor
  · intro h
    cases h with
    | text htype => rw [if_pos (htext.mpr htype)]
    | words htype h =>
        rw [if_neg (fun hc => by simp [htext.mp hc] at htype)]
        exact (Lexing.tokens_eq_iff.mpr h).symm
  · rintro rfl
    split
    · rename_i hc
      exact .text (htext.mp hc) rest
    · rename_i hc
      exact .words (by simpa using mt htext.mpr hc) (Lexing.tokens_runs rest)

/-- A line is decoded to a message exactly when the grammar gives it that message. -/
theorem decodeLine_eq_ok {line : Str} {m : Message} :
    decodeLine line = .ok m ↔ Line line m := by
  by_cases hne : line = []
  · subst hne
    exact ⟨nofun, fun h => absurd h not_line_nil⟩
  rcases blank_cases line with hbare | ⟨word, rest, hsplit, hword⟩
  · rw [decodeLine_eq hne (splitLine_bare hbare), decodeSplit_eq_ok]
    constructor
    · rintro ⟨hm, hargs, hok⟩
      exact ⟨⟨line, [], hm, by simp, hargs ▸ .bare⟩, hok⟩
    · rintro ⟨⟨word, tail, hm, hline, htail⟩, hok⟩
      -- the line has no blank, so nothing can follow the word
      have htail' : tail = [] := by
        generalize hargs : m.args = args at htail
        cases htail with
        | bare => rfl
        | text _ rest => exact absurd (by simp [hline]) hbare
        | words _ _ => exact absurd (by simp [hline]) hbare
      subst htail'
      rw [List.append_nil] at hline
      generalize hargs : m.args = args at htail hok ⊢
      cases htail
      exact ⟨hline ▸ hm, rfl, hok⟩
  · subst hsplit
    rw [decodeLine_eq hne (splitLine_blank hword), decodeSplit_eq_ok]
    constructor
    · rintro ⟨hm, hargs, hok⟩
      exact ⟨⟨word, blank :: rest, hm, rfl, (tail_blank hm).mpr hargs⟩, hok⟩
    · rintro ⟨⟨word', tail, hm, hline, htail⟩, hok⟩
      have hhead : tail ≠ [] → tail.head? = some blank := by
        intro hne'
        generalize hargs : m.args = args at htail
        cases htail with
        | bare => exact absurd rfl hne'
        | text _ _ => rfl
        | words _ _ => rfl
      obtain ⟨rfl, rfl⟩ := word_unique hword (blank_notMem (commandStr_value hm)) hline hhead
      exact ⟨hm, (tail_blank hm).mp htail, hok⟩

theorem decodeLine_error {line : Str} {e : Exn} (h : decodeLine line = .error e) :
    ∃ what, e = .invalidMessage what ∧ Text what := by
  by_cases hne : line = []
  · subst hne
    exact ⟨_, (Except.error.inj h).symm, by decide⟩
  rcases blank_cases line with hbare | ⟨word, rest, hsplit, hword⟩
  · rw [decodeLine_eq hne (splitLine_bare hbare)] at h
    exact decodeSplit_error h
  · subst hsplit
    rw [decodeLine_eq hne (splitLine_blank hword)] at h
    exact decodeSplit_error h

/-! ### `decode` -/

theorem decode_eq_ok {s : Str} {m : Message} : decode s = .ok m ↔ Encodes s m := by
  rw [decode_eq]
  split_ifs with hlen hlast
  · exact ⟨nofun, fun h => absurd h.length (by omega)⟩
  · exact ⟨nofun, fun h => absurd h.terminated hlast⟩
  · rw [decodeLine_eq_ok]
    exact ⟨fun h => ⟨by omega, by simpa using hlast, h⟩, fun h => h.line⟩

/-- The only exception `decode` throws is `InvalidMessage`, with one of its own texts. -/
theorem decode_error {s : Str} {e : Exn} (h : decode s = .error e) :
    ∃ what, e = .invalidMessage what ∧ Text what := by
  rw [decode_eq] at h
  split_ifs at h
  · exact ⟨_, (Except.error.inj h).symm, by decide⟩
  · exact ⟨_, (Except.error.inj h).symm, by decide⟩
  · exact decodeLine_error h

/-- **`decode` returns a message exactly for the strings of the grammar, and throws
`InvalidMessage` for all others.** -/
theorem decode_exact (s : Str) :
    (∀ m, decode s = .ok m ↔ Encodes s m) ∧
      ((∃ m, Encodes s m) ∨ ∃ what, decode s = .error (.invalidMessage what)) := by
  refine ⟨fun m => decode_eq_ok, ?_⟩
  cases h : decode s with
  | ok m => exact .inl ⟨m, decode_eq_ok.mp h⟩
  | error e =>
      obtain ⟨what, rfl, -⟩ := decode_error h
      exact .inr ⟨what, rfl⟩

/-! ### `encode`

`encode` throws for a type without a word and for a line that is too long, and checks nothing
else.
-/

/-- The arguments of a message, each after a blank. -/
def joined (args : List Str) : Str :=
  (args.map (blank :: ·)).flatten

theorem writeArgs_eq (ss : Str) (args : List Str) : writeArgs ss args = ss ++ joined args := by
  induction args generalizing ss with
  | nil => simp [writeArgs, joined]
  | cons arg rest ih =>
      have hblank : bytes " " = [blank] := by decide
      show writeArgs (ss ++ bytes " " ++ arg) rest = _
      rw [ih, hblank]
      simp [joined]

theorem encode_eq_ok {m : Message} {s : Str} :
    encode m = .ok s ↔ ∃ word, commandStr m.messageType = .ok word ∧
      s = word ++ joined m.args ++ [newline] ∧ s.length ≤ maxEncodedLen := by
  unfold encode
  cases hword : commandStr m.messageType with
  | error e => simp
  | ok word =>
      simp only [ok_bind, writeArgs_eq, Except.ok.injEq, exists_eq_left']
      split_ifs with hlen
      · refine ⟨nofun, ?_⟩
        rintro ⟨rfl, hle⟩
        omega
      · constructor
        · intro h
          obtain rfl := Except.ok.inj h
          exact ⟨rfl, by omega⟩
        · rintro ⟨rfl, -⟩
          rfl

theorem encode_error {m : Message} {e : Exn} (h : encode m = .error e) :
    ∃ what, e = .invalidMessage what ∧ Text what := by
  unfold encode at h
  cases hword : commandStr m.messageType with
  | error e' =>
      simp only [hword, error_bind, Except.error.injEq] at h
      subst h
      cases htype : m.messageType <;> rw [htype] at hword
      case none => exact ⟨_, (Except.error.inj hword).symm, by decide⟩
      all_goals cases hword
  | ok word =>
      simp only [hword, ok_bind] at h
      split at h
      · exact ⟨_, (Except.error.inj h).symm, by decide⟩
      · cases h

/-- Words, each after a blank, are their own runs. -/
theorem joined_runs {args : List Str} (h : ∀ arg ∈ args, Value arg) :
    Lexing.Runs isSpace (joined args) args := by
  have hspaced : ∀ p ∈ args.map fun arg => ([blank], arg),
      p.1 ≠ [] ∧ (∀ c ∈ p.1, isSpace c = true) ∧ p.2 ≠ [] ∧ ∀ c ∈ p.2, isSpace c = false := by
    intro p hp
    obtain ⟨arg, harg, rfl⟩ := List.mem_map.mp hp
    obtain ⟨hne, hspace⟩ := h arg harg
    exact ⟨List.cons_ne_nil _ _, by simp [blank, isSpace], hne, hspace⟩
  have hruns := Lexing.runs_spaced hspaced (List.forall_mem_nil _)
  simpa [joined, Function.comp_def] using hruns

theorem Arguments.values {type : MessageType} {args : List Str} (h : Arguments type args)
    (htype : type.isText = false) : ∀ arg ∈ args, Value arg := by
  intro arg harg
  cases h with
  | login h => rw [List.mem_singleton.mp harg]; exact h.value
  | create h => rw [List.mem_singleton.mp harg]; exact h.value
  | get ht hk =>
      rcases List.mem_pair.mp harg with rfl | rfl
      · exact ht.value
      · exact hk.value
  | set ht hk =>
      rcases List.mem_pair.mp harg with rfl | rfl
      · exact ht.value
      · exact hk.value
  | push h => rw [List.mem_singleton.mp harg]; exact h
  | data h => rw [List.mem_singleton.mp harg]; exact h
  | failed text => exact absurd htype (by simp [MessageType.isText])
  | error text => exact absurd htype (by simp [MessageType.isText])
  | bare h => simp at harg

theorem Arguments.text {type : MessageType} {args : List Str} (h : Arguments type args)
    (htype : type.isText = true) : ∃ text, args = [text] := by
  cases h with
  | failed text => exact ⟨text, rfl⟩
  | error text => exact ⟨text, rfl⟩
  | bare h =>
      simp only [List.mem_cons, List.not_mem_nil, or_false] at h
      rcases h with rfl | rfl | rfl | rfl | rfl | rfl | rfl | rfl | rfl | rfl <;> cases htype
  | _ => cases htype

/-- What `encode` writes after the command word is what the grammar wants there. -/
theorem joined_tail {type : MessageType} {args : List Str} (h : Arguments type args) :
    Tail type (joined args) args := by
  cases htype : type.isText with
  | true =>
      obtain ⟨text, rfl⟩ := h.text htype
      simpa [joined] using Tail.text htype text
  | false =>
      cases args with
      | nil => exact .bare
      | cons arg more =>
          have hruns := joined_runs (h.values htype)
          have hcons : joined (arg :: more) = blank :: (arg ++ joined more) := by simp [joined]
          rw [hcons] at hruns ⊢
          exact .words htype (hruns.of_cons (by decide))

/-- What is left of a line without the white space before its command word and its newline. -/
theorem trimmed {lead word tail : Str} (hlead : ∀ c ∈ lead, isSpace c = true)
    (hword : Value word) :
    (lead ++ word ++ tail ++ [newline]).dropLast.dropWhile isSpace = word ++ tail := by
  obtain ⟨hne, hspace⟩ := hword
  obtain ⟨c, cs, rfl⟩ := List.exists_cons_of_ne_nil hne
  rw [List.dropLast_concat, List.append_assoc, List.dropWhile_append_of_pos hlead, List.cons_append,
    List.dropWhile_cons_of_neg (by simp [hspace c List.mem_cons_self])]

/-- **What `encode` writes for a valid message is in the grammar.** -/
theorem encode_encodes {m : Message} {s : Str} (hvalid : m.isValid = true)
    (h : encode m = .ok s) : Encodes s m := by
  obtain ⟨word, hword, rfl, hlen⟩ := encode_eq_ok.mp h
  have hargs := isValid_iff.mp hvalid
  refine ⟨hlen, by simp, ?_⟩
  have hdrop : (word ++ joined m.args ++ [newline]).dropLast.dropWhile isSpace
      = word ++ joined m.args := trimmed (List.forall_mem_nil _) (commandStr_value hword)
  rw [hdrop]
  exact ⟨⟨word, joined m.args, hword, rfl, joined_tail hargs⟩, hargs⟩

/-- **Decode undoes encode.** -/
theorem decode_encode {m : Message} {s : Str} (hvalid : m.isValid = true)
    (h : encode m = .ok s) : decode s = .ok m :=
  decode_eq_ok.mpr (encode_encodes hvalid h)

/-- An ERROR whose text begins with blanks and holds a newline comes back as it was. -/
theorem decode_encode_error :
    decode (bytes "ERROR   two\nlines \n") =
      .ok { messageType := .error, args := [bytes "  two\nlines "] } :=
  decode_encode (m := { messageType := .error, args := [bytes "  two\nlines "] }) (by decide)
    (by decide)

end KvServer
