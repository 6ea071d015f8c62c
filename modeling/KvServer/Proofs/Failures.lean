/-
What a request that fails leaves on the stack.

A handler takes its operands off the stack before it has looked at them, and SET its value
before it has looked for the table; nothing puts them back.  `Course` follows a request
from its receipt to its answer, among the turns of other connections.
-/
import KvServer.Proofs.Solo
import KvServer.Proofs.Values

namespace KvServer

/-! ### The stack after a failure

For a client alone what a request leaves on the stack is read off `Solo.request`. An operand
that is taken is gone, whatever is wrong with it.
-/

/-- The stack that a request leaves if it fails. -/
def failedStack (m : Message) (stack : List Str) : List Str :=
  match m.messageType with
  | .set => stack.tail
  | .add | .sub | .mul | .div =>
      match stack with
      | _ :: _ :: rest => rest
      | _ => stack
  | _ => stack

/-- A request takes something off the stack before all its checks are made. -/
def Message.Consumes (m : Message) (stack : List Str) : Prop :=
  m.messageType = .set ∧ stack ≠ [] ∨
    (∃ op : ArithOp, m.messageType = op.messageType) ∧ 2 ≤ stack.length

theorem failedStack_arithmetic {m : Message} {op : ArithOp} (htype : m.messageType = op.messageType)
    (stack : List Str) :
    failedStack m stack = match stack with
      | _ :: _ :: rest => rest
      | _ => stack := by
  unfold failedStack
  rw [htype]
  cases op <;> rfl

theorem arithmetic_ne_set {m : Message} {op : ArithOp} (htype : m.messageType = op.messageType) :
    m.messageType ≠ .set := by
  rw [htype]
  cases op <;> exact nofun

/-- **When a failure leaves the stack as it was.** -/
theorem failedStack_eq_iff {m : Message} {stack : List Str} :
    failedStack m stack = stack ↔ ¬ m.Consumes stack := by
  have harith : ∀ op : ArithOp, m.messageType = op.messageType →
      (failedStack m stack = stack ↔ ¬ m.Consumes stack) := by
    intro op htype
    have hset := arithmetic_ne_set htype
    rw [failedStack_arithmetic htype, Message.Consumes]
    rcases stack with _ | ⟨right, _ | ⟨left, rest⟩⟩
    · simp
    · simp [hset]
    · refine ⟨fun h => ?_, fun h => absurd (.inr ⟨⟨op, htype⟩, by simp⟩) h⟩
      have hlength := congrArg List.length h
      simp only [List.length_cons] at hlength
      omega
  cases htype : m.messageType with
  | set =>
      cases stack with
      | nil => simp [failedStack, Message.Consumes, htype]
      | cons value rest =>
          refine ⟨fun h => ?_, fun h => absurd (.inl ⟨htype, by simp⟩) h⟩
          have hlength := congrArg List.length h
          simp [failedStack, htype] at hlength
  | add => exact harith .add htype
  | sub => exact harith .sub htype
  | mul => exact harith .mul htype
  | div => exact harith .div htype
  | _ =>
      refine ⟨fun _ => ?_, fun _ => by simp [failedStack, htype]⟩
      rintro (⟨hset, -⟩ | ⟨⟨op, hop⟩, -⟩)
      · cases htype.symm.trans hset
      · cases op <;> cases htype.symm.trans hop

section Failed

variable {p : Platform} {σ σ' : Solo} {resp : Str} {m : Message}

/-- If session `σ` is answered FAILED, it is left with `stack`. -/
def Solo.Fails (σ σ' : Solo) (stack : List Str) : Prop :=
  ∀ resp, σ'.sent = σ.sent ++ [resp] → isFailedLine resp = true → σ'.stack = stack

theorem fails_ok {stack : List Str} (hsent : σ'.sent = σ.sent) : σ.Fails σ'.ok stack := by
  intro resp hresp hfailed
  rw [Solo.ok, hsent] at hresp
  obtain rfl := List.singleton_inj.mp (List.append_cancel_left hresp)
  cases okLine_not_failed.symm.trans hfailed

theorem fails_unchanged {stack : List Str} (h : σ'.stack = stack) : σ.Fails σ' stack :=
  fun _ _ _ => h

theorem respond_stack (resp : Message) : (σ.respond resp).stack = σ.stack := by
  unfold Solo.respond
  split <;> rfl

/-- An exception leaves the stack alone. -/
theorem raise_stack (e : Exn) : (σ.raise e).stack = σ.stack := by
  cases e with
  | operation what => exact respond_stack _
  | failedTransaction what => exact respond_stack _
  | invalidMessage what =>
      show (σ.refuse what).stack = _
      unfold Solo.refuse
      split <;> rfl
  | _ => rfl

theorem fails_failed (what : Str) : σ.Fails (σ'.failed what) σ'.stack :=
  fails_unchanged (respond_stack _)

/-- The table is not found, or the key, or all is well. -/
theorem fails_access {a : Access} (hsent : σ'.sent = σ.sent) : σ.Fails (σ'.access a) σ'.stack := by
  unfold Solo.access
  split
  · cases a with
    | get name key =>
        show σ.Fails (σ'.get name key) _
        unfold Solo.get
        split
        · exact fails_ok hsent
        · exact fails_failed _
    | set name key value => exact fails_ok hsent
  · exact fails_failed _

theorem fails_arithmetic (op : ArithOp) (htype : m.messageType = op.messageType) :
    σ.Fails (σ.arithmetic p op) (failedStack m σ.stack) := by
  rw [failedStack_arithmetic htype]
  unfold Solo.arithmetic
  have hfew : σ.Fails (σ.failed (tooFew op)) σ.stack := fails_failed (tooFew op)
  rcases hstack : σ.stack with _ | ⟨right, _ | ⟨left, rest⟩⟩
  · rwa [hstack] at hfew
  · rwa [hstack] at hfew
  · dsimp only
    cases hresult : Solo.result p op left right with
    | ok v => exact fails_ok rfl
    | error e =>
        have hraised : (Solo.raise { σ with stack := rest } e).stack = rest := raise_stack e
        exact fails_unchanged hraised

/-- **What a request leaves on the stack** if it fails at once. -/
theorem request_fails (hstranger : σ.loggedIn = false → σ.stack = []) :
    σ.Fails (σ.request p m) (failedStack m σ.stack) := by
  have hsame : failedStack m σ.stack = σ.stack → ∀ what, σ.Fails (σ.failed what)
      (failedStack m σ.stack) := fun h what => by
    rw [h]
    exact fails_failed what
  unfold Solo.request
  split
  · rename_i hout
    have hnone : σ.stack = [] := hstranger (by simpa using hout.2.2)
    refine hsame (failedStack_eq_iff.mpr ?_) _
    rintro (⟨-, hne⟩ | ⟨-, hlen⟩)
    · exact hne hnone
    · simp [hnone] at hlen
  · cases htype : m.messageType with
    | login =>
        show σ.Fails σ.login _
        unfold Solo.login
        split
        · exact hsame (by simp [failedStack, htype]) _
        · exact fails_ok rfl
    | create =>
        show σ.Fails (σ.create _) _
        unfold Solo.create
        split
        · exact hsame (by simp [failedStack, htype]) _
        · exact fails_ok rfl
    | get =>
        have hstack : failedStack m σ.stack = σ.stack := by simp [failedStack, htype]
        rw [hstack]
        exact fails_access rfl
    | set =>
        show σ.Fails (σ.takeSet _ _) _
        have hstack : failedStack m σ.stack = σ.stack.tail := by simp [failedStack, htype]
        rw [hstack]
        unfold Solo.takeSet
        split
        · rename_i hnil
          have htail : σ.stack.tail = σ.stack := by rw [hnil]; rfl
          rw [htail]
          exact fails_failed _
        · rename_i value rest hcons
          rw [hcons]
          have hsent : ({ σ with stack := rest } : Solo).sent = σ.sent := rfl
          exact fails_access hsent
    | push => exact fails_ok rfl
    | pop =>
        show σ.Fails σ.pop _
        unfold Solo.pop
        split
        · exact hsame (by simp [failedStack, htype]) _
        · exact fails_ok rfl
    | top =>
        have hstack : failedStack m σ.stack = σ.stack := by simp [failedStack, htype]
        rw [hstack]
        show σ.Fails σ.top _
        unfold Solo.top
        split
        · exact fails_failed _
        · split
          · exact fails_unchanged rfl
          · exact fails_unchanged (raise_stack _)
    | add => exact fails_arithmetic .add htype
    | sub => exact fails_arithmetic .sub htype
    | mul => exact fails_arithmetic .mul htype
    | div => exact fails_arithmetic .div htype
    | begin =>
        show σ.Fails σ.begin _
        unfold Solo.begin
        split
        · have hstack : failedStack m σ.stack = σ.stack := by simp [failedStack, htype]
          rw [hstack]
          exact fails_unchanged (raise_stack (.failedTransaction _))
        · exact fails_ok rfl
    | commit =>
        show σ.Fails σ.commit _
        unfold Solo.commit
        split
        · exact fails_ok rfl
        · exact hsame (by simp [failedStack, htype]) _
    | bye => exact fails_unchanged (by simp [failedStack, htype, Solo.ok, Solo.leave])
    | _ =>
        have hstack : failedStack m σ.stack = σ.stack := by simp [failedStack, htype]
        rw [hstack]
        exact fails_unchanged (raise_stack (.invalidMessage _))

end Failed

/-! ### From its receipt to its answer

On the server other connections move in between, but none of them touches the stack of this
one, so its course can be followed by its own steps.
-/

/-- Where connection `c` is with request `m`, which it has received as it was in `c₀`. -/
inductive Course (m : Message) (c₀ c : Conn) : Prop
  | busy (hpc : c.pc ≠ .reading) (hsent : c.sent = c₀.sent)
      (hstack : c.stack.vector = failedStack m c₀.stack.vector ∨ ∃ t, c.pc = .guardUnlock t (.ok ()))
  | answered {resp : Str} (hpc : c.pc = .reading) (hsent : c.sent = c₀.sent ++ [resp])
      (hstack : isFailedLine resp = true → c.stack.vector = failedStack m c₀.stack.vector)
  /-- it will not read again -/
  | ended (hpc : c.pc.gone = true ∨ c.pc = .terminated)

section Course

variable {p : Platform} {sv : Server} {c₀ c c' : Conn} {ch : Choice} {effect : Effect} {m : Message}

/-- An answer that is not FAILED. -/
theorem Course.ok (hsent : c.sent = c₀.sent ++ [okLine])
    (hpc : c.pc = .reading) : Course m c₀ c :=
  .answered hpc hsent fun h => by cases okLine_not_failed.symm.trans h

/-- A line is answered at once, or is on its way. -/
theorem course_line {line : Str} (hstranger : c.loggedIn = false → c.stack.vector = [])
    (hm : decode (cstr line) = .ok m) : Course m c (c.chatWithClient p line) := by
  have hserved := served p line c
  let st : Store := ⟨fun _ => false, fun _ _ => none, fun _ _ => none⟩
  have hsettle := line_settle p c st line
  have hfails : (c.session st).Fails ((c.session st).request p m) (failedStack m c.stack.vector) :=
    request_fails hstranger
  rw [Solo.line, hm] at hsettle
  change _ = (c.session st).request p m at hsettle
  rw [← hsettle] at hfails
  generalize c.chatWithClient p line = c' at hserved hfails
  have hsame : ∀ {m' : Message}, decode (cstr line) = .ok m' → m' = m := fun hm' =>
    Except.ok.inj (hm'.symm.trans hm)
  cases hserved with
  | reply hresp htx hlogin hstack => exact .answered rfl rfl (hfails _ rfl)
  | create hm' htype =>
      obtain rfl := hsame hm'
      exact .busy (by simp) rfl (.inl (by simp [failedStack, htype]))
  | get hm' htype =>
      obtain rfl := hsame hm'
      exact .busy (by simp) rfl (.inl (by simp [failedStack, htype]))
  | set hm' htype hstack =>
      obtain rfl := hsame hm'
      have hvector : c.stack.vector = _ :: _ := hstack
      exact .busy (by simp) rfl (.inl (by simp [failedStack, htype, hvector]))
  | commit hm' htype htx =>
      obtain rfl := hsame hm'
      exact .busy (by simp) rfl (.inl (by simp [failedStack, htype]))
  | nested hm' htype htx =>
      obtain rfl := hsame hm'
      exact .busy (by simp) rfl (.inl (by simp [failedStack, htype]))
  | leave hresp hleft => exact .ended (.inl (leave_gone c))
  | trap hm' htype htrap hstack => exact .ended (.inr rfl)

/-- **A request in its course.** -/
theorem Course.step (h : Course m c₀ c) (hmoves : Moves p sv c ch effect c')
    (hpc : c.pc ≠ .reading) : Course m c₀ c' := by
  cases h with
  | answered hread hsent hstack => exact absurd hread hpc
  | ended hover =>
      rcases hover with hgone | hterminated
      · exact .ended (.inl ((hmoves.gone hpc).trans hgone))
      · exact absurd hterminated hmoves.not_terminated
  | busy _ hsent hstack =>
      have hplain : (∀ t, c.pc ≠ .guardUnlock t (.ok ())) →
          c.stack.vector = failedStack m c₀.stack.vector := fun hnot =>
        hstack.resolve_right fun ⟨t, ht⟩ => hnot t ht
      have hok : c.sent ++ [okLine] = c₀.sent ++ [okLine] := by rw [hsent]
      cases hmoves with
      | request hread hpos hlen h => exact absurd hread hpc
      | eof hread => exact absurd hread hpc
      | createUnlock hpc hresp =>
          exact .answered rfl (congrArg (· ++ _) hsent) fun _ => hplain (by simp [hpc])
      | notFound hpc hresp =>
          exact .answered rfl (congrArg (· ++ _) hsent) fun _ => hplain (by simp [hpc])
      | callGet hpc hget => exact .ok hok rfl
      | callGetFail hpc hget hresp =>
          exact .answered rfl (congrArg (· ++ _) hsent) fun _ => hplain (by simp [hpc])
      | callSet hpc => exact .ok hok rfl
      | guardGet hpc hget => exact .busy (by simp) hsent (.inr ⟨_, rfl⟩)
      | @guardUnlock t result resp hpc hresp =>
          cases result with
          | ok u =>
              cases hresp
              exact .ok hok rfl
          | error e => exact .answered rfl (congrArg (· ++ _) hsent) fun _ => hplain (by simp [hpc])
      | finishCommit hpc => exact .ok hok rfl
      | finishAbort hpc hline =>
          exact .answered rfl (congrArg (· ++ _) hsent) fun _ => hplain (by simp [hpc])
      | finishCrash hpc hline => exact .ended (.inr rfl)
      | finishDestroy hpc => exact .ended (.inl rfl)
      | _ => exact .busy (by simp) hsent (.inl (hplain (by simp [‹c.pc = _›])))

end Course

/-! ### Runs

What is to be shown is about the stack at two moments of a run, the receipt of a request and
its answer; `Since` keeps the first while the run goes on to the second.
-/

/-- What has become of connection `c₀`: nothing yet, or a request, or more. -/
inductive Since (c₀ c : Conn) : Prop
  | same (h : c = c₀)
  | first {line : Str} {m : Message} (hreceived : c.received = c₀.received ++ [line])
      (hm : decode (cstr line) = .ok m) (h : Course m c₀ c)
  | later (h : c₀.received.length + 2 ≤ c.received.length)
  | ended (hpc : c.pc.gone = true ∨ c.pc = .terminated)

section System

variable {p : Platform} {s s' s₀ : State} {a : Turn} {turns : List Turn} {i : ConnId}

/-- A step of the connection takes it on. -/
theorem Since.step {sv : Server} {c₀ c c' : Conn} {ch : Choice} {effect : Effect} (h : Since c₀ c)
    (hread : c₀.pc = .reading) (hstranger : c₀.loggedIn = false → c₀.stack.vector = [])
    (hwf : c.WF) (hstep : c.step p sv ch = some (effect, c')) : Since c₀ c' := by
  have hmoves := step_moves hwf hstep
  have hreceived := hmoves.received
  by_cases hpc : c.pc = .reading
  · cases ch with
    | eof =>
        simp only [Conn.step, if_pos hpc] at hstep
        obtain ⟨-, rfl⟩ := Prod.mk.inj (Option.some.inj hstep)
        exact .ended (.inl (leave_gone c))
    | recv line =>
        cases h with
        | same heq =>
            subst heq
            simp only [Conn.step] at hstep
            split at hstep
            · obtain ⟨-, rfl⟩ := Prod.mk.inj (Option.some.inj hstep)
              cases hm : decode (cstr line) with
              | ok m => exact .first hreceived hm (course_line hstranger hm)
              | error e =>
                  obtain ⟨what, resp, -, -, heq⟩ := chatWithClient_error p (c := c) hm
                  rw [heq]
                  exact .ended (.inl (leave_gone c))
            · cases hstep
        | first hfirst hm h =>
            refine .later ?_
            rw [hreceived, hfirst, List.length_append, List.length_append]
            exact Nat.le_refl _
        | later h =>
            refine .later (Nat.le_trans h ?_)
            rw [hreceived, List.length_append]
            exact Nat.le_add_right _ _
        | ended hover => rcases hover with hover | hover <;> simp [hpc, Pc.gone] at hover
    | go => simp [Conn.step, Conn.go, hpc] at hstep
    | visit t => simp [Conn.step, hpc] at hstep
  · cases h with
    | same heq => exact absurd (heq ▸ hread) hpc
    | first hfirst hm h => exact .first ((hmoves.received_same hpc).trans hfirst) hm (h.step hmoves hpc)
    | later h => exact .later (by rwa [hmoves.received_same hpc])
    | ended hover =>
        rcases hover with hgone | hterminated
        · exact .ended (.inl ((hmoves.gone hpc).trans hgone))
        · exact absurd hterminated hmoves.not_terminated

/--
**A request that fails leaves the stack as it was** just when it takes nothing off it before
its checks; and that whichever exception it is answered FAILED for, and whatever the other
connections do in the meantime.
-/
theorem failed_keeps_stack_iff {before : List Turn} {line resp : Str} {m : Message}
    (hboot : Boot s₀) (hbefore : Transition.run (State.step p) s₀ before = some s)
    (hpc : (s.conns i).pc = .reading) (hm : decode (cstr line) = .ok m)
    (hrun : Transition.run (State.step p) s turns = some s')
    (hreceived : (s'.conns i).received = (s.conns i).received ++ [line])
    (hpc' : (s'.conns i).pc = .reading) (hsent : (s'.conns i).sent = (s.conns i).sent ++ [resp])
    (hfailed : isFailedLine resp = true) :
    (s'.conns i).stack.vector = (s.conns i).stack.vector
      ↔ ¬ m.Consumes (s.conns i).stack.vector := by
  have hstranger : (s.conns i).loggedIn = false → (s.conns i).stack.vector = [] := fun hout =>
    (hboot.strangers_run hbefore i hout).stack
  obtain ⟨-, hsince⟩ := Transition.run_invariant
    (I := fun m => Inv m ∧ Since (s.conns i) (m.conns i))
    (fun {m a m'} h hstep => by
      obtain ⟨effect, c', hst⟩ := h.1.stepped hstep
      refine ⟨hst.inv h.1, ?_⟩
      by_cases hi : i = a.conn
      · subst hi
        rw [hst.self]
        exact h.2.step hpc hstranger (h.1.wf _) hst.runs
      · rw [hst.other hi]
        exact h.2)
    ⟨hboot.inv_run hbefore, .same rfl⟩ hrun
  have hstack : (s'.conns i).stack.vector = failedStack m (s.conns i).stack.vector := by
    cases hsince with
    | same heq => simp [heq] at hreceived
    | first hfirst hm' h =>
        obtain rfl := List.singleton_inj.mp (List.append_cancel_left (hreceived.symm.trans hfirst))
        obtain rfl := Except.ok.inj (hm.symm.trans hm')
        cases h with
        | busy hbusy _ _ => exact absurd hpc' hbusy
        | answered _ hsent' hstack =>
            obtain rfl := List.singleton_inj.mp (List.append_cancel_left (hsent.symm.trans hsent'))
            exact hstack hfailed
        | ended hover => rcases hover with hover | hover <;> simp [hpc', Pc.gone] at hover
    | later h =>
        rw [hreceived, List.length_append, List.length_singleton] at h
        omega
    | ended hover => rcases hover with hover | hover <;> simp [hpc', Pc.gone] at hover
  rw [hstack]
  exact failedStack_eq_iff

end System

/-- A value is on the stack. -/
def pushed : List Turn :=
  [⟨0, .recv (bytes "LOGIN a\n")⟩, ⟨0, .recv (bytes "PUSH 1\n")⟩]

/-- A request for a table that does not exist. -/
def nowhere (line : Str) : List Turn :=
  [⟨0, .recv line⟩, ⟨0, .go⟩, ⟨0, .go⟩, ⟨0, .go⟩]

def notFoundLine : Str := bytes "FAILED The table that you want to find is not exist\n"

/-- A logged-in connection that has pushed `1` and been answered. -/
def afterPush : Conn :=
  { stack := { vector := [bytes "1"] },
    loggedIn := true,
    received := [bytes "LOGIN a\n", bytes "PUSH 1\n"],
    sent := [okLine, okLine] }

/-- The same connection once `line` is answered that there is no such table. -/
def afterNowhere (line : Str) (stack : List Str) : Conn :=
  { stack := { vector := stack },
    loggedIn := true,
    received := [bytes "LOGIN a\n", bytes "PUSH 1\n", line],
    sent := [okLine, okLine, notFoundLine] }

/-- The two runs, from what connection 0 is after each. -/
theorem nowhere_run {line : Str} {stack : List Str}
    (h : ((Transition.run (State.step trapping) State.initial pushed).bind fun s =>
        (Transition.run (State.step trapping) s (nowhere line)).map fun s' =>
          (s.conns 0, s'.conns 0)) = some (afterPush, afterNowhere line stack)) :
    ∃ s s', Transition.run (State.step trapping) State.initial pushed = some s ∧
      Transition.run (State.step trapping) s (nowhere line) = some s' ∧
      s.conns 0 = afterPush ∧ s'.conns 0 = afterNowhere line stack := by
  obtain ⟨s, hs, hmap⟩ := Option.bind_eq_some_iff.mp h
  obtain ⟨s', hs', hconns⟩ := Option.map_eq_some_iff.mp hmap
  exact ⟨s, s', hs, hs', Prod.mk.inj hconns⟩

theorem failed_keeps_stack_iff_get :
    ∃ s s', Transition.run (State.step trapping) State.initial pushed = some s ∧
      Transition.run (State.step trapping) s (nowhere (bytes "GET t k\n")) = some s' ∧
      (s'.conns 0).stack.vector = (s.conns 0).stack.vector := by
  have hend : ((Transition.run (State.step trapping) State.initial pushed).bind fun s =>
      (Transition.run (State.step trapping) s (nowhere (bytes "GET t k\n"))).map fun s' =>
        (s.conns 0, s'.conns 0)) =
      some (afterPush, afterNowhere (bytes "GET t k\n") [bytes "1"]) := by
    decide +kernel
  obtain ⟨s, s', hbefore, hrun, hs, hs'⟩ := nowhere_run hend
  refine ⟨s, s', hbefore, hrun, ?_⟩
  have hm : decode (cstr (bytes "GET t k\n")) =
      .ok { messageType := .get, args := [bytes "t", bytes "k"] } := by
    decide +kernel
  refine (failed_keeps_stack_iff boot_initial hbefore (by rw [hs]; rfl) hm hrun
    (by rw [hs, hs']; rfl) (by rw [hs']; rfl) (by rw [hs, hs']; exact rfl)
    (show isFailedLine notFoundLine = true by decide)).mpr ?_
  rintro (⟨htype, -⟩ | ⟨⟨op, htype⟩, -⟩)
  · cases htype
  · cases op <;> cases htype

/-- A SET into a table that does not exist is answered FAILED, and the value is gone. -/
theorem set_loses_value :
    ¬ ∀ (p : Platform) (before turns : List Turn) (s s' : State) (i : ConnId) (line resp : Str),
      Transition.run (State.step p) State.initial before = some s → (s.conns i).pc = .reading →
      Transition.run (State.step p) s turns = some s' →
      (s'.conns i).received = (s.conns i).received ++ [line] → (s'.conns i).pc = .reading →
      (s'.conns i).sent = (s.conns i).sent ++ [resp] → isFailedLine resp = true →
      -- a `FailedTransaction` would have ended the transaction
      (s'.conns i).inTransaction = (s.conns i).inTransaction →
      (s'.conns i).stack.vector = (s.conns i).stack.vector := by
  intro h
  obtain ⟨s, s', hbefore, hrun, hs, hs'⟩ :=
    nowhere_run (show _ = some (afterPush, afterNowhere (bytes "SET t k\n") []) by decide +kernel)
  have hsame := h trapping pushed _ s s' 0 (bytes "SET t k\n") notFoundLine hbefore
    (by rw [hs]; rfl) hrun (by rw [hs, hs']; rfl) (by rw [hs']; rfl) (by rw [hs, hs']; rfl)
    (by decide) (by rw [hs, hs']; rfl)
  rw [hs, hs'] at hsame
  cases hsame

end KvServer
