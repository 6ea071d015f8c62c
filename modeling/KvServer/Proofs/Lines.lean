/-
What fits into a line of an answer.

Values get to a client in a DATA line, texts in a FAILED or ERROR line.  A value came in
with a PUSH, in a line as long as the DATA line it goes out in, or was computed; a text is
one of the program's, or has the name of a table in it, which came in with a GET or SET.
-/
import KvServer.Proofs.Decimal
import KvServer.Proofs.Receive
import KvServer.Proofs.Steps

namespace KvServer

def MessageType.isResponse : MessageType → Bool
  | .ok | .failed | .error | .data => true
  | _ => false

/-- A client's `rio_readlineb` and `decode` take the line for a response, whatever its
buffer held and whatever follows. -/
def Readable (line : Str) : Prop :=
  line.length ≤ maxEncodedLen - 1 ∧
    ∃ m : Message, m.messageType.isResponse = true ∧ ∀ more buf, Receives line more buf m

/-- A text that leaves room for its FAILED or ERROR. -/
structure Sendable (what : Str) : Prop where
  printable : Printable what
  length : what.length + 8 ≤ maxEncodedLen - 1

/-- A value that leaves room for its DATA. -/
structure Storable (v : Str) : Prop where
  value : Value v
  noNul : nul ∉ v
  length : v.length + 6 ≤ maxEncodedLen - 1

/-! ### Answers

Fitting has two sides: `encode` must not throw, and the receiver's buffer must have room for
the NUL. `Storable` and `Sendable` are what a value and a text need for both.
-/

theorem readable_ok : Readable okLine := by
  refine ⟨by decide, { messageType := .ok }, rfl, fun more buf => ?_⟩
  exact receives_of_encode (m := { messageType := .ok }) rfl (by simp) encode_ok (by decide) more buf

theorem Text.sendable {what : Str} (h : Text what) : Sendable what := by
  obtain ⟨hlen, hnul, hnewline⟩ := h
  exact ⟨⟨hnul, hnewline⟩, by unfold maxEncodedLen; omega⟩

theorem Sendable.readable {type : MessageType} {what line : Str} (h : Sendable what)
    (htype : type.isText = true)
    (hline : encode { messageType := type, args := [what] } = .ok line) : Readable line := by
  have hlen := h.length
  obtain ⟨word, -, hshort, hencode⟩ := encode_text what htype (by omega)
  have hshape : line = word ++ blank :: what ++ [newline] :=
    Except.ok.inj (hline.symm.trans hencode)
  have hfits : line.length ≤ maxEncodedLen - 1 := by
    simp only [hshape, List.length_append, List.length_cons, List.length_nil]
    omega
  refine ⟨hfits, { messageType := type, args := [what] }, ?_, fun more buf => ?_⟩
  · cases type <;> first | rfl | cases htype
  · refine receives_of_encode ?_ (fun arg harg => ?_) hline hfits more buf
    · cases type <;> first | rfl | cases htype
    · rw [List.mem_singleton.mp harg]
      exact h.printable

theorem Sendable.encodes {what : Str} (h : Sendable what) :
    ∃ line, encode { messageType := .failed, args := [what] } = .ok line := by
  have hlen := h.length
  have htext : MessageType.isText .failed = true := rfl
  obtain ⟨word, -, -, hline⟩ := encode_text what htext (by omega)
  exact ⟨_, hline⟩

/-- A value gets to a client in a DATA line. -/
theorem Storable.receives {value line : Str} (h : Storable value)
    (hline : encode { messageType := .data, args := [value] } = .ok line) :
    line.length ≤ maxEncodedLen - 1 ∧
      ∀ more buf, Receives line more buf { messageType := .data, args := [value] } := by
  have hlen := h.length
  obtain ⟨word, hword, hshape, -⟩ := encode_eq_ok.mp hline
  obtain rfl := Except.ok.inj hword
  have hdata : (bytes "DATA").length = 4 := by decide
  have hfits : line.length ≤ maxEncodedLen - 1 := by
    simp only [hshape, joined, List.map_cons, List.map_nil, List.flatten_cons, List.flatten_nil,
      List.length_append, List.length_cons, List.length_nil, hdata]
    omega
  refine ⟨hfits, fun more buf => ?_⟩
  refine receives_of_encode (isValid_iff.mpr (.data h.value)) (fun arg harg => ?_) hline hfits more buf
  rw [List.mem_singleton.mp harg]
  exact .of_value h.value h.noNul

theorem Storable.readable {value line : Str} (h : Storable value)
    (hline : encode { messageType := .data, args := [value] } = .ok line) : Readable line :=
  ⟨(h.receives hline).1, _, rfl, (h.receives hline).2⟩

theorem Storable.data {value : Str} (h : Storable value) :
    ∃ line, encode { messageType := .data, args := [value] } = .ok line := by
  have hlen := h.length
  have hdata : (bytes "DATA").length = 4 := by decide
  refine ⟨_, encode_eq_ok.mpr ⟨bytes "DATA", rfl, rfl, ?_⟩⟩
  simp only [joined, List.map_cons, List.map_nil, List.flatten_cons, List.flatten_nil,
    List.length_append, List.length_cons, List.length_nil, hdata]
  unfold maxEncodedLen at hlen ⊢
  omega

/-- An ERROR. -/
def isErrorLine (resp : Str) : Bool := (bytes "ERROR").isPrefixOf resp

/-- A FAILED. -/
def isFailedLine (resp : Str) : Bool := (bytes "FAILED").isPrefixOf resp

theorem encode_isError {m : Message} {resp : Str} (h : encode m = .ok resp) :
    isErrorLine resp = decide (m.messageType = .error) := by
  obtain ⟨word, hword, rfl, -⟩ := encode_eq_ok.mp h
  obtain ⟨type, args⟩ := m
  cases type with
  | none => cases hword
  | _ =>
      cases hword
      rfl

theorem encode_isFailed {m : Message} {resp : Str} (h : encode m = .ok resp) :
    isFailedLine resp = decide (m.messageType = .failed) := by
  obtain ⟨word, hword, rfl, -⟩ := encode_eq_ok.mp h
  obtain ⟨type, args⟩ := m
  cases type with
  | none => cases hword
  | _ =>
      cases hword
      rfl

theorem okLine_not_failed : isFailedLine okLine = false := by decide

theorem answered_failed {c c' : Conn} {resp : Str} (hfailed : isFailedLine resp = true)
    (hsent : c'.sent = c.sent ++ [resp]) : c'.sent ≠ c.sent ++ [okLine] := by
  intro hok
  obtain rfl := List.singleton_inj.mp (List.append_cancel_left (hsent.symm.trans hok))
  cases okLine_not_failed.symm.trans hfailed

theorem Answers.isFailed {e : Exn} {resp : Str} (h : Answers (.error e) resp) :
    isFailedLine resp = true := by
  cases h with
  | failed _ hline => simp [encode_isFailed hline]

/-- **Every answer of a handler can be read**, if what is on the stack can be stored. -/
theorem Reply.readable {c : Conn} {line : Str} (h : Reply c line)
    (hstack : ∀ v ∈ c.stack.vector, Storable v) : Readable line := by
  cases h with
  | ok => exact readable_ok
  | data hvector hline =>
      refine (hstack _ ?_).readable hline
      rw [hvector]
      exact List.mem_cons_self
  | failed hwhat hline => exact hwhat.sendable.readable rfl hline
  | error hwhat hline => exact hwhat.sendable.readable rfl hline

/-! ### What comes in

An argument came in a line with its command word. PUSH and DATA are words of the same length,
so a value fits on its way out as it did on its way in.
-/

/-- The arguments are shorter than their line, and of the same characters. -/
theorem decoded_args {s word : Str} {m : Message} (h : Encodes s m)
    (hword : commandStr m.messageType = .ok word) (htext : m.messageType.isText = false)
    (hargs : m.args ≠ []) :
    word.length + m.args.flatten.length + 2 ≤ s.length ∧ ∀ c ∈ m.args.flatten, c ∈ s := by
  obtain ⟨⟨word', tail, hword', hsplit, htail⟩, -⟩ := h.line
  obtain rfl := Except.ok.inj (hword.symm.trans hword')
  have hsub : (s.dropLast.dropWhile isSpace).Sublist s.dropLast := List.dropWhile_sublist _
  generalize m.args = args at htail hargs
  cases htail with
  | bare => exact absurd rfl hargs
  | text htype rest => cases htext.symm.trans htype
  | @words _ rest _ hruns =>
      have hflat : args.flatten.Sublist rest := hruns.sublist
      have hrest : (word ++ blank :: rest).Sublist s.dropLast := by rwa [← hsplit]
      have hne : s ≠ [] := by
        intro hs
        have hlast := h.terminated
        rw [hs] at hlast
        cases hlast
      have hpos := List.length_pos_iff.mpr hne
      have hlen := hrest.length_le
      have harglen := hflat.length_le
      simp only [List.length_append, List.length_cons, List.length_dropLast] at hlen
      refine ⟨by omega, fun c hc => List.mem_of_mem_dropLast (hrest.subset ?_)⟩
      exact List.mem_append_right _ (List.mem_cons_of_mem _ (hflat.subset hc))

/-- So is each of them. -/
theorem decoded_arg {s word arg : Str} {m : Message} (h : Encodes s m)
    (hword : commandStr m.messageType = .ok word) (htext : m.messageType.isText = false)
    (harg : arg ∈ m.args) : word.length + arg.length + 2 ≤ s.length ∧ ∀ c ∈ arg, c ∈ s := by
  obtain ⟨hlen, hmem⟩ := decoded_args h hword htext (List.ne_nil_of_mem harg)
  have hsub : arg.Sublist m.args.flatten := List.sublist_flatten_of_mem harg
  have harglen := hsub.length_le
  exact ⟨by omega, fun c hc => hmem c (hsub.subset hc)⟩

theorem nul_notMem_cstr (buf : Str) : nul ∉ cstr buf := by
  intro h
  have := List.mem_takeWhile_imp h
  simp at this

theorem cstr_length_le (buf : Str) : (cstr buf).length ≤ buf.length :=
  (List.takeWhile_sublist _).length_le

/-- The value of a PUSH. -/
theorem storable_push {line : Str} {m : Message} (hm : decode (cstr line) = .ok m)
    (htype : m.messageType = .push) (hlen : line.length ≤ maxEncodedLen - 1) :
    Storable m.getValue := by
  have hencodes := decode_eq_ok.mp hm
  have hargs := hencodes.line.arguments
  have hword : commandStr m.messageType = .ok (bytes "PUSH") := by rw [htype]; rfl
  have harg : ∀ arg ∈ m.args, _ := fun arg => decoded_arg hencodes hword (by rw [htype]; rfl)
  have hpush : (bytes "PUSH").length = 4 := by decide
  obtain ⟨type, args⟩ := m
  obtain rfl : type = .push := htype
  cases hargs with
  | @push value hvalue =>
      obtain ⟨hshort, hmem⟩ := harg _ (List.mem_singleton_self _)
      have hcstr := cstr_length_le line
      have hfits : value.length + 6 ≤ maxEncodedLen - 1 := by omega
      exact ⟨hvalue, fun hc => nul_notMem_cstr line (hmem _ hc), hfits⟩
  | bare h => simp at h

/-- The table name of a GET or SET. -/
theorem printable_table {line : Str} {m : Message} (hm : decode (cstr line) = .ok m)
    (htype : m.messageType = .get ∨ m.messageType = .set) : Printable m.getTable := by
  have hencodes := decode_eq_ok.mp hm
  have hargs := hencodes.line.arguments
  have hname : Identifier m.getTable := by
    obtain ⟨type, args⟩ := m
    rcases htype with rfl | rfl
    · cases hargs with
      | get ht hk => exact ht
      | bare h => simp at h
    · cases hargs with
      | set ht hk => exact ht
      | bare h => simp at h
  refine .of_value hname.value fun hc => ?_
  have := hname.toNat _ hc
  simp [nul] at this

/-- The key of a GET or SET, which has a table's name before it in the line. -/
theorem storable_key {line : Str} {m : Message} (hm : decode (cstr line) = .ok m)
    (htype : m.messageType = .get ∨ m.messageType = .set)
    (hlen : line.length ≤ maxEncodedLen - 1) : Storable m.getKey := by
  have hencodes := decode_eq_ok.mp hm
  have hargs := hencodes.line.arguments
  obtain ⟨word, hword, hshort⟩ : ∃ word, commandStr m.messageType = .ok word ∧ word.length = 3 := by
    rcases htype with htype | htype <;> rw [htype] <;> exact ⟨_, rfl, by decide⟩
  have htext : m.messageType.isText = false := by rcases htype with htype | htype <;> rw [htype] <;> rfl
  obtain ⟨table, key, hshape, htable, hkey⟩ :
      ∃ table key, m.args = [table, key] ∧ Identifier table ∧ Identifier key := by
    obtain ⟨type, args⟩ := m
    rcases htype with rfl | rfl
    · cases hargs with
      | get ht hk => exact ⟨_, _, rfl, ht, hk⟩
      | bare h => simp at h
    · cases hargs with
      | set ht hk => exact ⟨_, _, rfl, ht, hk⟩
      | bare h => simp at h
  have hline := (decoded_args hencodes hword htext (by simp [hshape])).1
  have hcstr := cstr_length_le line
  have hpos := List.length_pos_iff.mpr htable.value.1
  have hget : m.getKey = key := by simp [Message.getKey, hshape]
  rw [hshape] at hline
  simp only [List.flatten_cons, List.flatten_nil, List.append_nil, List.length_append] at hline
  rw [hget]
  refine ⟨hkey.value, fun hc => ?_, by omega⟩
  have := hkey.toNat _ hc
  simp [nul] at this

theorem storable_toString {v : Int} (h : InInt v) : Storable (toString v) where
  value := ⟨toString_ne_nil v, fun _ hc => (mem_toString hc).1⟩
  noNul hc := (mem_toString hc).2 rfl
  length := by
    have := toString_length h
    unfold maxEncodedLen
    omega

end KvServer
