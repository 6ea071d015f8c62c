/-
When arithmetic is exact or refused.

The handlers look for a result that is out of range after they have computed it, in the
conversion to text, which never fails.  So an operation on two numbers does what it should
just when its result is an `int` or it is a division by zero; otherwise the machine has
already delivered some other `int`, or trapped.
-/
import KvServer.Proofs.Lines
import KvServer.Proofs.Strangers

namespace KvServer

/--
What an operation on the numbers `l` and `r` should make of a connection: the exact result
in their place and OK, or FAILED if there is none.
-/
def ExactOrRefused (op : ArithOp) (l r : Int) (rest : List Str) (c c' : Conn) : Prop :=
  c'.pc = .reading ∧
    if InInt (op.exact l r) ∧ ¬ (op = .div ∧ r = 0) then
      c'.stack.vector = toString (op.exact l r) :: rest ∧ c'.sent = c.sent ++ [okLine]
    else ∃ resp, c'.sent = c.sent ++ [resp] ∧ isFailedLine resp = true

section Arithmetic

variable {p : Platform} {c : Conn} {line right left : Str} {rest : List Str} {m : Message}
  {op : ArithOp} {l r : Int}

/-- A request for an operation runs its handler. -/
theorem handleRequest_arith (hin : c.loggedIn = true) (htype : m.messageType = op.messageType) :
    (handleRequest p m).exec c = (handleArith p op).exec c := by
  cases op <;> simp [handleRequest, htype, ArithOp.messageType, hin, handleArith]

/-- A request for an operation on two numbers. -/
theorem arithmetic_line (hin : c.loggedIn = true) (hstack : c.stack.vector = right :: left :: rest)
    (hl : stoi left = .ok l) (hr : stoi right = .ok r) (hm : decode (cstr line) = .ok m)
    (htype : m.messageType = op.messageType) :
    c.chatWithClient p line =
      if op = .div ∧ r = 0 then
        Conn.catchClause
          { c with received := c.received ++ [line], stack := { vector := rest } }
          (.operation (bytes "the division is 0"))
      else
        match arith p op l r with
        | .ok v =>
            { c with
              received := c.received ++ [line], stack := { vector := toString v :: rest },
              sent := c.sent ++ [okLine], pc := .reading }
        | .error e => Conn.catchClause
            { c with received := c.received ++ [line], stack := { vector := rest } } e := by
  have hleft : operandValue left = .ok l := by simp [operandValue, hl]
  have hright : operandValue right = .ok r := by simp [operandValue, hr]
  rw [chatWithClient_ok p hm, Conn.attempt, handleRequest_arith (by exact hin) htype,
    handleArith_exec, operands_exec]
  simp only [hstack, hleft, hright, ok_bind, pure_eq]
  by_cases hdiv : op = .div ∧ r = 0
  · rw [if_pos hdiv, if_pos hdiv]
  · rw [if_neg hdiv, if_neg hdiv, pushResult_exec]
    cases arith p op l r <;> rfl

/-- What the machine makes of a result that is not an `int` is neither exact nor refused. -/
theorem overflow_line (hin : c.loggedIn = true) (hstack : c.stack.vector = right :: left :: rest)
    (hl : stoi left = .ok l) (hr : stoi right = .ok r) (hm : decode (cstr line) = .ok m)
    (htype : m.messageType = op.messageType) (hdiv : ¬ (op = .div ∧ r = 0))
    (hover : ¬ InInt (op.exact l r)) :
    ¬ ExactOrRefused op l r rest c (c.chatWithClient p line) := by
  rintro ⟨hpc, hresult⟩
  rw [if_neg fun h => hover h.1] at hresult
  rw [arithmetic_line hin hstack hl hr hm htype, if_neg hdiv] at hpc hresult
  rcases arith_cases p op l r with ⟨v, hv, -⟩ | htrap
  · -- some other `int`, with OK
    rw [hv] at hresult
    obtain ⟨resp, hsent, hfailed⟩ := hresult
    exact answered_failed hfailed hsent rfl
  · rw [htrap] at hpc
    cases hpc

/-- A result that is an `int` is delivered, and a division by zero refused. -/
theorem exact_line (hin : c.loggedIn = true) (hstack : c.stack.vector = right :: left :: rest)
    (hl : stoi left = .ok l) (hr : stoi right = .ok r) (hm : decode (cstr line) = .ok m)
    (htype : m.messageType = op.messageType) (h : (op = .div ∧ r = 0) ∨ InInt (op.exact l r)) :
    ExactOrRefused op l r rest c (c.chatWithClient p line) := by
  unfold ExactOrRefused
  rw [arithmetic_line hin hstack hl hr hm htype]
  by_cases hdiv : op = .div ∧ r = 0
  · have hwhat : Text (bytes "the division is 0") := by decide
    obtain ⟨resp, hresp, heq⟩ := catchClause_operation
      (c := { c with received := c.received ++ [line], stack := { vector := rest } }) hwhat
    rw [if_pos hdiv, if_neg fun h => h.2 hdiv, heq]
    exact ⟨rfl, resp, rfl, hresp.isFailed⟩
  · have hint : InInt (op.exact l r) := h.resolve_left hdiv
    have harith : arith p op l r = .ok (op.exact l r) := if_pos hint
    rw [if_neg hdiv, harith, if_pos ⟨hint, hdiv⟩]
    exact ⟨rfl, rfl, rfl⟩

/--
**Arithmetic on two numbers is exact or refused** just when it is a division by zero or has
a result that is an `int`.
-/
theorem arithmetic_exact_iff {s₀ s : State} {turns : List Turn} {i : ConnId} (hboot : Boot s₀)
    (hrun : Transition.run (State.step p) s₀ turns = some s) (hrunning : s.terminated = false)
    (hpc : (s.conns i).pc = .reading) (hstack : (s.conns i).stack.vector = right :: left :: rest)
    (hl : Spells left l) (hlint : InInt l) (hr : Spells right r) (hrint : InInt r)
    (hpos : 0 < line.length) (hlen : line.length ≤ maxEncodedLen - 1)
    (hm : decode (cstr line) = .ok m) (htype : m.messageType = op.messageType) :
    ∃ s', s.step p ⟨i, .recv line⟩ = some s' ∧
      (ExactOrRefused op l r rest (s.conns i) (s'.conns i)
        ↔ (op = .div ∧ r = 0) ∨ InInt (op.exact l r)) := by
  have hin := hboot.loggedIn_of_stack hrun hstack
  have hleft := stoi_spells hl hlint
  have hright := stoi_spells hr hrint
  obtain ⟨s', hstep, hconn⟩ := step_recv p hrunning hpc hpos hlen
  refine ⟨s', hstep, ?_⟩
  rw [hconn]
  constructor
  · intro h
    by_contra hneither
    obtain ⟨hdiv, hover⟩ := not_or.mp hneither
    exact overflow_line hin hstack hleft hright hm htype hdiv hover h
  · exact exact_line hin hstack hleft hright hm htype

end Arithmetic

/-! ### A machine that wraps around

The platform is a parameter, so a run that shows an overflow has to choose one. This is the
one most machines have.
-/

/-- Two's complement. -/
def wrapping : Platform where
  overflow op l r := some ⟨Int.bmod (op.exact l r) 4294967296, by
    have hlow := Int.le_bmod (x := op.exact l r) (m := 4294967296) (by decide)
    have hhigh := Int.bmod_lt (x := op.exact l r) (m := 4294967296) (by decide)
    exact ⟨by omega, by omega⟩⟩

/-- 2147483647 and 1 are on the stack. -/
def overflowing : List Turn :=
  [⟨0, .recv (bytes "LOGIN a\n")⟩, ⟨0, .recv (bytes "PUSH 2147483647\n")⟩,
    ⟨0, .recv (bytes "PUSH 1\n")⟩]

theorem overflowing_run {p : Platform} (hp : p = trapping ∨ p = wrapping) :
    ∃ s, Transition.run (State.step p) State.initial overflowing = some s ∧
      s.terminated = false ∧ (s.conns 0).pc = .reading ∧
      (s.conns 0).stack.vector = [bytes "1", bytes "2147483647"] := by
  have hstate : (Transition.run (State.step p) State.initial overflowing).map
      (fun s => (s.terminated, (s.conns 0).pc, (s.conns 0).stack.vector))
        = some (false, .reading, [bytes "1", bytes "2147483647"]) := by
    rcases hp with rfl | rfl <;> decide +kernel
  obtain ⟨s, hrun, hs⟩ := Option.map_eq_some_iff.mp hstate
  exact ⟨s, hrun, by simpa using hs⟩

theorem spells_one : Spells (bytes "1") 1 := spells_toString 1

theorem spells_max : Spells (bytes "2147483647") 2147483647 := by
  have h := spells_toString 2147483647
  rwa [show toString 2147483647 = bytes "2147483647" by decide +kernel] at h

theorem arithmetic_exact_iff_sub :
    ∃ s s', Transition.run (State.step trapping) State.initial overflowing = some s ∧
      s.step trapping ⟨0, .recv (bytes "SUB\n")⟩ = some s' ∧
      ExactOrRefused .sub 2147483647 1 [] (s.conns 0) (s'.conns 0) := by
  obtain ⟨s, hrun, hrunning, hpc, hstack⟩ := overflowing_run (.inl rfl)
  have hm : decode (cstr (bytes "SUB\n")) = .ok { messageType := .sub } := by decide +kernel
  have htype : MessageType.sub = ArithOp.sub.messageType := rfl
  obtain ⟨s', hstep, hiff⟩ := arithmetic_exact_iff boot_initial hrun hrunning hpc hstack spells_max
    (by decide) spells_one (by decide) (by decide) (by decide) hm htype
  exact ⟨s, s', hrun, hstep, hiff.mpr (.inr (by decide))⟩

/-- ADD of 2147483647 and 1 is answered OK, and leaves -2147483648. -/
theorem add_wraps :
    ¬ ∀ (p : Platform) (turns : List Turn) (s s' : State) (i : ConnId) (op : ArithOp) (l r : Int)
      (left right : Str) (rest : List Str) (line : Str) (m : Message),
      Transition.run (State.step p) State.initial turns = some s → s.terminated = false →
      (s.conns i).pc = .reading → (s.conns i).stack.vector = right :: left :: rest →
      Spells left l → InInt l → Spells right r → InInt r → decode (cstr line) = .ok m →
      m.messageType = op.messageType → s.step p ⟨i, .recv line⟩ = some s' →
      ExactOrRefused op l r rest (s.conns i) (s'.conns i) := by
  intro h
  obtain ⟨s, hrun, hrunning, hpc, hstack⟩ := overflowing_run (.inr rfl)
  have hm : decode (cstr (bytes "ADD\n")) = .ok { messageType := .add } := by decide +kernel
  have hin := boot_initial.loggedIn_of_stack hrun hstack
  have hpos : 0 < (bytes "ADD\n").length := by decide
  obtain ⟨s', hstep, hconn⟩ := step_recv wrapping hrunning hpc hpos (by decide)
  have hexact := h wrapping overflowing s s' 0 .add 2147483647 1 _ _ [] _ _ hrun hrunning hpc hstack
    spells_max (by decide) spells_one (by decide) hm rfl hstep
  rw [hconn] at hexact
  have htype : MessageType.add = ArithOp.add.messageType := rfl
  exact overflow_line hin hstack (stoi_spells spells_max (by decide))
    (stoi_spells spells_one (by decide)) hm htype (by decide) (by decide) hexact

end KvServer
