/-
Receiving what was encoded.

A receiver reads a line with `rio_readlineb` into a buffer of `MAX_ENCODED_LEN` bytes
and decodes the buffer as a C string.  The buffer keeps one byte for the terminating
NUL, so it holds lines of at most `MAX_ENCODED_LEN - 1` bytes, while `encode` and
`decode` both allow one byte more.
-/
import KvServer.Model.Rio
import KvServer.Proofs.Serialization

namespace KvServer

/-! ### `rio_readlineb` on a line -/

theorem readLoop_line {line : Str} (h : newline ∉ line) (more : Str) :
    ∀ n, line.length < n →
      readLoop n (line ++ newline :: more) = (line ++ [newline], more) := by
  induction line with
  | nil =>
      intro n hn
      cases n with
      | zero => omega
      | succ n => simp [readLoop]
  | cons c cs ih =>
      intro n hn
      have hc : c ≠ newline := fun he => h (he ▸ List.mem_cons_self)
      cases n with
      | zero => omega
      | succ n =>
          have hrec := ih (fun hm => h (List.mem_cons_of_mem _ hm)) n (by simpa using hn)
          simp [readLoop, hc, hrec]

/-- A longer line is cut. -/
theorem readLoop_cut {line : Str} (h : newline ∉ line) (more : Str) :
    ∀ n, n ≤ line.length → readLoop n (line ++ more) = (line.take n, line.drop n ++ more) := by
  induction line with
  | nil =>
      intro n hn
      rw [Nat.le_zero.mp hn]
      simp [readLoop]
  | cons c cs ih =>
      intro n hn
      have hc : c ≠ newline := fun he => h (he ▸ List.mem_cons_self)
      cases n with
      | zero => simp [readLoop]
      | succ n =>
          have hrec := ih (fun hm => h (List.mem_cons_of_mem _ hm)) n (by simpa using hn)
          simp [readLoop, hc, hrec]

/-- The bytes read and the rest are the input. -/
theorem readLoop_append (n : Nat) (input : Str) :
    (readLoop n input).1 ++ (readLoop n input).2 = input := by
  induction n generalizing input with
  | zero => rfl
  | succ n ih =>
      cases input with
      | nil => rfl
      | cons c input =>
          unfold readLoop
          split
          · rfl
          · exact congrArg (c :: ·) (ih input)

/-- What has arrived is read in the same way whatever is still to come. -/
theorem readLoop_arrived {n : Nat} {input : Str}
    (h : newline ∈ input.take n ∨ n ≤ input.length) (more : Str) :
    readLoop n (input ++ more) = ((readLoop n input).1, (readLoop n input).2 ++ more) := by
  induction n generalizing input with
  | zero => rfl
  | succ n ih =>
      cases input with
      | nil => simp at h
      | cons c input =>
          by_cases hc : c = newline
          · simp [readLoop, hc]
          · have hrest : newline ∈ input.take n ∨ n ≤ input.length := by
              simpa [Ne.symm hc] using h
            simp [readLoop, hc, ih hrest]

/-- The NUL behind a string ends it. -/
theorem cstr_append_nul (s more : Str) : cstr (s ++ nul :: more) = cstr s := by
  induction s with
  | nil => simp [cstr]
  | cons c cs ih =>
      unfold cstr at ih ⊢
      by_cases hc : c = nul
      · simp [hc]
      · simp [hc, ih]

theorem cstr_eq_self {s : Str} (h : nul ∉ s) : cstr s = s := by
  rw [cstr, List.takeWhile_eq_self_iff]
  intro c hc
  simpa using fun he : c = nul => h (he ▸ hc)

/-- A line that fits the buffer is read whole, whatever the buffer held and whatever follows. -/
theorem rioReadlineb_line {line : Str} (hline : newline ∉ line) (hnul : nul ∉ line)
    (hlen : line.length + 1 < maxEncodedLen) (more buf : Str) :
    (rioReadlineb (line ++ newline :: more) buf maxEncodedLen).n = line.length + 1 ∧
      (rioReadlineb (line ++ newline :: more) buf maxEncodedLen).rest = more ∧
      cstr (rioReadlineb (line ++ newline :: more) buf maxEncodedLen).buf = line ++ [newline] := by
  have hne : line ++ newline :: more ≠ [] := by simp
  have hread := readLoop_line hline more (maxEncodedLen - 1) (by omega)
  have hmem : nul ∉ line ++ [newline] := by
    simp only [List.mem_append, List.mem_singleton, not_or]
    exact ⟨hnul, by decide⟩
  simp only [rioReadlineb, if_neg hne, hread]
  exact ⟨by simp, trivial, by rw [cstr_append_nul, cstr_eq_self hmem]⟩

theorem rioReadlineb_arrived {input : Str}
    (h : newline ∈ input.take (maxEncodedLen - 1) ∨ maxEncodedLen - 1 ≤ input.length)
    (more buf : Str) :
    rioReadlineb (input ++ more) buf maxEncodedLen
      = { rioReadlineb input buf maxEncodedLen with
          rest := (rioReadlineb input buf maxEncodedLen).rest ++ more } := by
  have hread := readLoop_arrived h more
  have hne : input ≠ [] := by
    intro hnil
    subst hnil
    exact absurd h (by decide)
  have hne' : input ++ more ≠ [] := by simp [hne]
  simp [rioReadlineb, hne, hne', hread]

/-- The bytes a read takes are those it counts. -/
theorem rioReadlineb_rest (input buf : Str) :
    (rioReadlineb input buf maxEncodedLen).rest
      = input.drop (rioReadlineb input buf maxEncodedLen).n ∧
      (rioReadlineb input buf maxEncodedLen).n ≤ input.length := by
  by_cases hnil : input = []
  · subst hnil
    exact ⟨rfl, Nat.le_refl 0⟩
  · have happend := readLoop_append (maxEncodedLen - 1) input
    simp only [rioReadlineb, if_neg hnil]
    have hdrop := congrArg (List.drop (readLoop (maxEncodedLen - 1) input).1.length) happend
    have hlen := congrArg List.length happend
    rw [List.drop_left] at hdrop
    rw [List.length_append] at hlen
    exact ⟨hdrop, by omega⟩

/-! ### The lines of requests -/

/-- The characters of an encoded message are those of its word and arguments, and blanks. -/
theorem mem_joined {args : List Str} {c : Byte} (h : c ∈ joined args) :
    c = blank ∨ ∃ arg ∈ args, c ∈ arg := by
  simp only [joined, List.mem_flatten, List.mem_map] at h
  obtain ⟨_, ⟨arg, harg, rfl⟩, hc⟩ := h
  rcases List.mem_cons.mp hc with rfl | hc
  · exact .inl rfl
  · exact .inr ⟨arg, harg, hc⟩

theorem commandStr_nul {type : MessageType} {word : Str} (h : commandStr type = .ok word) :
    nul ∉ word := by
  cases type
  case none => cases h
  all_goals
    obtain rfl := Except.ok.inj h
    decide

/-- What may be part of a line. -/
structure Printable (s : Str) : Prop where
  noNul : nul ∉ s
  noNewline : newline ∉ s

theorem Printable.of_value {s : Str} (h : Value s) (hnul : nul ∉ s) : Printable s :=
  ⟨hnul, fun hc => absurd (h.noSpace _ hc) (by decide)⟩

/-- A message is encoded as one line if its arguments can be part of one. -/
theorem encode_line {m : Message} {s : Str} (hargs : ∀ arg ∈ m.args, Printable arg)
    (h : encode m = .ok s) :
    ∃ line, s = line ++ [newline] ∧ newline ∉ line ∧ nul ∉ line := by
  obtain ⟨word, hword, rfl, -⟩ := encode_eq_ok.mp h
  refine ⟨word ++ joined m.args, rfl, ?_, ?_⟩
  · intro hc
    rcases List.mem_append.mp hc with hc | hc
    · exact absurd ((commandStr_value hword).noSpace _ hc) (by decide)
    · rcases mem_joined hc with hc | ⟨arg, harg, hc⟩
      · exact absurd hc (by decide)
      · exact (hargs arg harg).noNewline hc
  · intro hc
    rcases List.mem_append.mp hc with hc | hc
    · exact commandStr_nul hword hc
    · rcases mem_joined hc with hc | ⟨arg, harg, hc⟩
      · exact absurd hc (by decide)
      · exact (hargs arg harg).noNul hc

theorem isText_of_isRequest {type : MessageType} (h : type.isRequest = true) :
    type.isText = false := by
  cases type <;> first | rfl | cases h

/-- Reading with a receive buffer takes exactly `s` off the input and gives `m`. -/
def Receives (s more buf : Str) (m : Message) : Prop :=
  (rioReadlineb (s ++ more) buf maxEncodedLen).n = s.length ∧
    (rioReadlineb (s ++ more) buf maxEncodedLen).rest = more ∧
    decode (cstr (rioReadlineb (s ++ more) buf maxEncodedLen).buf) = .ok m

/-- A line of the full `MAX_ENCODED_LEN` bytes does not fit. -/
theorem not_receives_long {line : Str} (hline : newline ∉ line)
    (hlen : maxEncodedLen ≤ line.length + 1) (more buf : Str) (m : Message) :
    ¬ Receives (line ++ [newline]) more buf m := by
  rintro ⟨hn, -, -⟩
  have hne : line ++ [newline] ++ more ≠ [] := by simp
  have hread : readLoop (maxEncodedLen - 1) (line ++ [newline] ++ more)
      = (line.take (maxEncodedLen - 1), line.drop (maxEncodedLen - 1) ++ ([newline] ++ more)) := by
    rw [List.append_assoc]
    exact readLoop_cut hline _ _ (by omega)
  simp only [rioReadlineb, if_neg hne, hread, List.length_take, List.length_append,
    List.length_singleton] at hn
  omega

/-- A line with room for the NUL is received. -/
theorem receives_of_encode {m : Message} {s : Str} (hvalid : m.isValid = true)
    (hargs : ∀ arg ∈ m.args, Printable arg) (h : encode m = .ok s)
    (hlen : s.length ≤ maxEncodedLen - 1) (more buf : Str) : Receives s more buf m := by
  obtain ⟨line, rfl, hline, hnul⟩ := encode_line hargs h
  have hpos : 0 < maxEncodedLen := by decide
  rw [List.length_append, List.length_singleton] at hlen
  obtain ⟨hn, hrest, hbuf⟩ := rioReadlineb_line hline hnul (by omega) more buf
  refine ⟨by simpa using hn, by simpa using hrest, ?_⟩
  rw [List.append_assoc, List.singleton_append, hbuf]
  exact decode_eq_ok.mpr (encode_encodes hvalid h)

/-- The arguments of a request can be part of a line unless they hold a NUL. -/
theorem request_printable {m : Message} (hreq : m.messageType.isRequest = true)
    (hvalid : m.isValid = true) (hnul : ∀ arg ∈ m.args, nul ∉ arg) :
    ∀ arg ∈ m.args, Printable arg := fun arg harg =>
  .of_value ((isValid_iff.mp hvalid).values (isText_of_isRequest hreq) arg harg) (hnul arg harg)

/-- **The server receives an encoded request exactly if the line leaves room for the NUL.** -/
theorem request_received_iff {m : Message} {s : Str} (hreq : m.messageType.isRequest = true)
    (hvalid : m.isValid = true) (hnul : ∀ arg ∈ m.args, nul ∉ arg) (h : encode m = .ok s)
    (more buf : Str) : Receives s more buf m ↔ s.length ≤ maxEncodedLen - 1 := by
  have hargs := request_printable hreq hvalid hnul
  refine ⟨fun hreceives => ?_, fun hlen => receives_of_encode hvalid hargs h hlen more buf⟩
  obtain ⟨line, rfl, hline, -⟩ := encode_line hargs h
  have hpos : 0 < maxEncodedLen := by decide
  by_contra hlong
  rw [List.length_append, List.length_singleton] at hlong
  exact not_receives_long hline (by omega) more buf m hreceives

theorem request_received_login :
    Receives (bytes "LOGIN alice\n") (bytes "TOP\n") []
      { messageType := .login, args := [bytes "alice"] } :=
  (request_received_iff (m := { messageType := .login, args := [bytes "alice"] })
    (by decide) (by decide) (by decide) (by decide) _ _).mpr (by decide)

/-! ### A request of the full length

The name is a run of one letter, which is what the unit tests use.
-/

/-- An identifier of `n + 1` letters. -/
def longName (n : Nat) : Str := List.replicate (n + 1) 121

@[simp] theorem longName_length (n : Nat) : (longName n).length = n + 1 := List.length_replicate

theorem mem_longName {n : Nat} {c : Byte} (h : c ∈ longName n) : c = 121 := List.eq_of_mem_replicate h

theorem longName_identifier (n : Nat) : Identifier (longName n) := by
  rw [longName, List.replicate_succ]
  refine .mk (.inr (by decide)) fun d hd => .inl (.inr ?_)
  rw [List.eq_of_mem_replicate hd]
  decide

theorem longName_nul (n : Nat) : nul ∉ longName n := fun h => absurd (mem_longName h) (by decide)

theorem encode_get (table key : Str) (hlen : table.length + key.length + 6 ≤ maxEncodedLen) :
    encode { messageType := .get, args := [table, key] }
      = .ok (bytes "GET" ++ joined [table, key] ++ [newline]) := by
  refine encode_eq_ok.mpr ⟨_, rfl, rfl, ?_⟩
  have hword : (bytes "GET").length = 3 := by decide
  simp only [joined, List.map_cons, List.map_nil, List.flatten_cons, List.flatten_nil,
    List.length_append, List.length_cons, List.length_nil, hword]
  omega

/-- The longest GET `encode` admits. -/
def longGetReq : Message :=
  { messageType := .get, args := [longName 508, longName 508] }

theorem longGetReq_not_received :
    longGetReq.messageType.isRequest = true ∧ longGetReq.isValid = true ∧
      (∀ arg ∈ longGetReq.args, nul ∉ arg) ∧
      ∃ s, encode longGetReq = .ok s ∧ ¬ Receives s [] [] longGetReq := by
  have hvalid : longGetReq.isValid = true :=
    isValid_iff.mpr (.get (longName_identifier 508) (longName_identifier 508))
  have hnul : ∀ arg ∈ longGetReq.args, nul ∉ arg := by
    intro arg harg
    rcases List.mem_pair.mp harg with rfl | rfl <;> exact longName_nul 508
  have hencode := encode_get (longName 508) (longName 508)
    (by rw [longName_length]; decide)
  refine ⟨rfl, hvalid, hnul, _, hencode, ?_⟩
  obtain ⟨line, hsplit, hline, -⟩ := encode_line (request_printable rfl hvalid hnul) hencode
  have hlen := congrArg List.length hsplit
  have hword : (bytes "GET").length = 3 := by decide
  simp only [joined, List.map_cons, List.map_nil, List.flatten_cons, List.flatten_nil,
    List.length_append, List.length_cons, List.length_nil, hword, longName_length] at hlen
  rw [hsplit]
  exact not_receives_long hline (by unfold maxEncodedLen; omega) [] [] longGetReq

end KvServer
