/-
What the arithmetic handlers take for an integer.

`std::stoi` stops where the digits do and does not say so.  A value that only begins with
a number is computed with like that number, and its operation answered OK; what is refused
is a value that does not even begin with an `int`, and a division by zero.
-/
import KvServer.Proofs.Arithmetic
import KvServer.Proofs.Values

namespace KvServer

/-- A sign, if any, and digits: an `int`, as a whole. -/
def IsInteger (s : Str) : Prop := ∃ v, Spells s v ∧ InInt v

/-- An `int`, and then anything but another digit. -/
def BeginsInteger (s : Str) : Prop := ∃ v, Reads s v ∧ InInt v

/--
What the answer to an operation should be: OK only if both operands are integers, and
FAILED if one is not.
-/
def OnlyIntegers (left right : Str) (c c' : Conn) : Prop :=
  (c'.sent = c.sent ++ [okLine] → IsInteger left ∧ IsInteger right) ∧
    (¬ (IsInteger left ∧ IsInteger right) →
      ∃ resp, c'.sent = c.sent ++ [resp] ∧ isFailedLine resp = true)

theorem Storable.stoi_eq_ok {s : Str} {v : Int} (h : Storable s) :
    stoi s = .ok v ↔ Reads s v ∧ InInt v := by
  have hblanks : s.dropWhile isSpace = s := by
    cases s with
    | nil => rfl
    | cons c s => simp [h.value.2 c List.mem_cons_self]
  rw [KvServer.stoi_eq_ok, hblanks]

section Operands

variable {p : Platform} {c c' : Conn} {line right left : Str} {rest : List Str} {m : Message}
  {op : ArithOp}

/-- It is FAILED or both operands are integers. -/
theorem onlyIntegers_iff :
    OnlyIntegers left right c c' ↔ (IsInteger left ∧ IsInteger right) ∨
      ∃ resp, c'.sent = c.sent ++ [resp] ∧ isFailedLine resp = true := by
  constructor
  · intro h
    by_cases hint : IsInteger left ∧ IsInteger right
    · exact .inl hint
    · exact .inr (h.2 hint)
  · rintro (hint | ⟨resp, hsent, hfailed⟩)
    · exact ⟨fun _ => hint, fun hnot => absurd hint hnot⟩
    · exact ⟨fun hok => absurd hok (answered_failed hfailed hsent), fun _ => ⟨resp, hsent, hfailed⟩⟩

/-- An operand that `stoi` does not take is refused. -/
theorem unread_refused (hin : c.loggedIn = true) (hstack : c.stack.vector = right :: left :: rest)
    (hm : decode (cstr line) = .ok m) (htype : m.messageType = op.messageType)
    (hunread : (∀ l, stoi left ≠ .ok l) ∨ ∀ r, stoi right ≠ .ok r) :
    ∃ resp, (c.chatWithClient p line).sent = c.sent ++ [resp] ∧ isFailedLine resp = true := by
  -- whichever operand it is, the handler has popped both and throws one of its texts
  obtain ⟨what, hwhat, hoperands⟩ : ∃ what, Text what ∧
      (do let l ← operandValue left; let r ← operandValue right; return (l, r) : Except Exn _)
        = .error (.operation what) := by
    cases hl : operandValue left with
    | error e =>
        obtain ⟨what, rfl, hwhat⟩ := operandValue_error hl
        exact ⟨what, hwhat, rfl⟩
    | ok l =>
        cases hr : operandValue right with
        | error e =>
            obtain ⟨what, rfl, hwhat⟩ := operandValue_error hr
            exact ⟨what, hwhat, rfl⟩
        | ok r =>
            rcases hunread with h | h
            · exact absurd (operandValue_eq_ok.mp hl) (h l)
            · exact absurd (operandValue_eq_ok.mp hr) (h r)
  obtain ⟨resp, hresp, heq⟩ := catchClause_operation
    (c := { c with received := c.received ++ [line], stack := { vector := rest } }) hwhat
  refine ⟨resp, ?_, hresp.isFailed⟩
  rw [chatWithClient_ok p hm, Conn.attempt, handleRequest_arith (by exact hin) htype,
    handleArith_exec, operands_exec]
  simp only [hstack, hoperands]
  exact congrArg Conn.sent heq

/-- Two operands that `stoi` takes are computed with, whatever follows the digits. -/
theorem read_answered {l r : Int} (hin : c.loggedIn = true)
    (hstack : c.stack.vector = right :: left :: rest) (hm : decode (cstr line) = .ok m)
    (htype : m.messageType = op.messageType) (hl : stoi left = .ok l) (hr : stoi right = .ok r)
    (hdiv : ¬ (op = .div ∧ r = 0)) :
    ¬ ∃ resp, (c.chatWithClient p line).sent = c.sent ++ [resp] ∧ isFailedLine resp = true := by
  rintro ⟨resp, hsent, hfailed⟩
  rw [arithmetic_line hin hstack hl hr hm htype, if_neg hdiv] at hsent
  rcases arith_cases p op l r with ⟨v, hv, -⟩ | htrap
  · rw [hv] at hsent
    exact answered_failed hfailed hsent rfl
  · -- the machine has trapped, and nothing is sent any more
    rw [htrap] at hsent
    have hlen := congrArg List.length (show c.sent = c.sent ++ [resp] from hsent)
    simp at hlen

/-- **What is refused**: an operand that does not begin with an `int`, and a zero to divide by. -/
theorem refused_iff (hin : c.loggedIn = true) (hstack : c.stack.vector = right :: left :: rest)
    (hleft : Storable left) (hright : Storable right) (hm : decode (cstr line) = .ok m)
    (htype : m.messageType = op.messageType) :
    (∃ resp, (c.chatWithClient p line).sent = c.sent ++ [resp] ∧ isFailedLine resp = true) ↔
      ¬ BeginsInteger left ∨ ¬ BeginsInteger right ∨ (op = .div ∧ Reads right 0) := by
  have hread : ∀ {s}, Storable s → ((∀ v, stoi s ≠ .ok v) ↔ ¬ BeginsInteger s) := by
    intro s hs
    simp only [BeginsInteger, ne_eq, hs.stoi_eq_ok, not_exists]
  rw [← hread hleft, ← hread hright]
  by_cases hl : ∀ l, stoi left ≠ .ok l
  · exact ⟨fun _ => .inl hl, fun _ => unread_refused hin hstack hm htype (.inl hl)⟩
  by_cases hr : ∀ r, stoi right ≠ .ok r
  · exact ⟨fun _ => .inr (.inl hr), fun _ => unread_refused hin hstack hm htype (.inr hr)⟩
  simp only [hl, hr, false_or]
  obtain ⟨l, hl⟩ : ∃ l, stoi left = .ok l := by simpa using hl
  obtain ⟨r, hr⟩ : ∃ r, stoi right = .ok r := by simpa using hr
  have hzero : Reads right 0 ↔ r = 0 := by
    constructor
    · intro h
      have hok := hright.stoi_eq_ok.mpr ⟨h, by decide⟩
      exact Except.ok.inj (hr.symm.trans hok)
    · rintro rfl
      exact (hright.stoi_eq_ok.mp hr).1
  rw [hzero]
  constructor
  · intro h
    by_contra hdiv
    exact read_answered hin hstack hm htype hl hr hdiv h
  · intro hdiv
    have h := exact_line (p := p) hin hstack hl hr hm htype (.inl hdiv)
    unfold ExactOrRefused at h
    rw [if_neg fun hint => hint.2 hdiv] at h
    exact h.2

/--
**Arithmetic accepts only integers** just when both operands are integers, or one does not
even begin with an `int`, or the operation divides by a value that begins with zero.
-/
theorem only_integers_iff {s : State} {turns : List Turn} {i : ConnId}
    (hrun : Transition.run (State.step p) State.initial turns = some s)
    (hrunning : s.terminated = false) (hpc : (s.conns i).pc = .reading)
    (hstack : (s.conns i).stack.vector = right :: left :: rest)
    (hpos : 0 < line.length) (hlen : line.length ≤ maxEncodedLen - 1)
    (hm : decode (cstr line) = .ok m) (htype : m.messageType = op.messageType) :
    ∃ s', s.step p ⟨i, .recv line⟩ = some s' ∧
      (OnlyIntegers left right (s.conns i) (s'.conns i) ↔
        (IsInteger left ∧ IsInteger right) ∨
          ¬ BeginsInteger left ∨ ¬ BeginsInteger right ∨ (op = .div ∧ Reads right 0)) := by
  have hstored := stored_run hrun
  have hleft : Storable left := hstored.has (.stack (i := i) (by simp [hstack]))
  have hright : Storable right := hstored.has (.stack (i := i) (by simp [hstack]))
  have hin := boot_initial.loggedIn_of_stack hrun hstack
  obtain ⟨s', hstep, hconn⟩ := step_recv p hrunning hpc hpos hlen
  refine ⟨s', hstep, ?_⟩
  rw [hconn, onlyIntegers_iff, refused_iff hin hstack hleft hright hm htype]

end Operands

/-! ### A value that begins with a number

`12abc` and `1` are operands on which the handlers and the grammar of integers part: `stoi`
reads what it can and leaves the rest.
-/

/-- Two values are pushed. -/
def pushing (left right : String) : List Turn :=
  [⟨0, .recv (bytes "LOGIN a\n")⟩, ⟨0, .recv (bytes "PUSH " ++ bytes left ++ [newline])⟩,
    ⟨0, .recv (bytes "PUSH " ++ bytes right ++ [newline])⟩]

theorem pushing_run {left : String} (hleft : left = "12abc" ∨ left = "abc") :
    ∃ s, Transition.run (State.step trapping) State.initial (pushing left "1") = some s ∧
      s.terminated = false ∧ (s.conns 0).pc = .reading ∧
      (s.conns 0).stack.vector = [bytes "1", bytes left] := by
  have hstate : (Transition.run (State.step trapping) State.initial (pushing left "1")).map
      (fun s => (s.terminated, (s.conns 0).pc, (s.conns 0).stack.vector))
        = some (false, .reading, [bytes "1", bytes left]) := by
    rcases hleft with rfl | rfl <;> decide +kernel
  obtain ⟨s, hrun, hs⟩ := Option.map_eq_some_iff.mp hstate
  exact ⟨s, hrun, by simpa using hs⟩

theorem only_integers_iff_abc :
    ∃ s s', Transition.run (State.step trapping) State.initial (pushing "abc" "1") = some s ∧
      s.step trapping ⟨0, .recv (bytes "ADD\n")⟩ = some s' ∧
      OnlyIntegers (bytes "abc") (bytes "1") (s.conns 0) (s'.conns 0) := by
  obtain ⟨s, hrun, hrunning, hpc, hstack⟩ := pushing_run (.inr rfl)
  have hm : decode (cstr (bytes "ADD\n")) = .ok { messageType := .add } := by decide +kernel
  have htype : MessageType.add = ArithOp.add.messageType := rfl
  have hpos : 0 < (bytes "ADD\n").length := by decide
  obtain ⟨s', hstep, hiff⟩ := only_integers_iff hrun hrunning hpc hstack hpos (by decide) hm htype
  refine ⟨s, s', hrun, hstep, hiff.mpr (.inr (.inl ?_))⟩
  rintro ⟨v, hreads⟩
  have hvalue : (bytes "abc").dropWhile isSpace = bytes "abc" := by decide
  have hok : stoi (bytes "abc") = .ok v := stoi_eq_ok.mpr (hvalue ▸ hreads)
  have hthrows : stoi (bytes "abc") = .error .invalidArgument := by decide
  cases hthrows.symm.trans hok

/-- After its sign a spelling has only digits. -/
theorem Spells.digit {s : Str} {v : Int} (h : Spells s v) {c : Byte} (hc : c ∈ s.tail) :
    isDigit c = true := by
  cases h with
  | digits _ hdigits => exact hdigits c (List.mem_of_mem_tail hc)
  | plus _ hdigits => exact hdigits c hc
  | minus _ hdigits => exact hdigits c hc

/-- ADD of 12abc and 1 is answered OK. -/
theorem add_takes_prefix :
    ¬ ∀ (p : Platform) (turns : List Turn) (s s' : State) (i : ConnId) (op : ArithOp)
      (left right : Str) (rest : List Str) (line : Str) (m : Message),
      Transition.run (State.step p) State.initial turns = some s → s.terminated = false →
      (s.conns i).pc = .reading → (s.conns i).stack.vector = right :: left :: rest →
      decode (cstr line) = .ok m → m.messageType = op.messageType →
      s.step p ⟨i, .recv line⟩ = some s' →
      OnlyIntegers left right (s.conns i) (s'.conns i) := by
  intro h
  obtain ⟨s, hrun, hrunning, hpc, hstack⟩ := pushing_run (.inl rfl)
  have hm : decode (cstr (bytes "ADD\n")) = .ok { messageType := .add } := by decide +kernel
  have hin := boot_initial.loggedIn_of_stack hrun hstack
  have hpos : 0 < (bytes "ADD\n").length := by decide
  obtain ⟨s', hstep, hconn⟩ := step_recv trapping hrunning hpc hpos (by decide)
  have honly := h trapping (pushing "12abc" "1") s s' 0 .add _ _ [] _ _ hrun hrunning hpc hstack hm
    rfl hstep
  rw [hconn, onlyIntegers_iff] at honly
  rcases honly with ⟨⟨v, hspells, -⟩, -⟩ | hfailed
  · have hletter : (97 : Byte) ∈ (bytes "12abc").tail := by decide
    cases hspells.digit hletter
  · have htype : MessageType.add = ArithOp.add.messageType := rfl
    have hleft : stoi (bytes "12abc") = .ok 12 := by decide
    have hright : stoi (bytes "1") = .ok 1 := by decide
    exact read_answered hin hstack hm htype hleft hright (by decide) hfailed

end KvServer
