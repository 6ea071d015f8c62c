/-
What the request in progress will come to.

`Conn.settle` is the client's session once it is done, from any point of its handling on:
the tables are what they are, and nobody else touches them.  Reading a line changes it as
`Solo.line` says.
-/
import KvServer.Proofs.Steps
import KvServer.Spec.Solo

namespace KvServer

/-! ### What the rest of a request comes to

`settle` is defined by the point: at rest it is the session as it is, and inside a request the
rest of the request applied to it. Reading a line then has to give `Solo.line`, handler by
handler.
-/

/-- A connection's session, as it is. -/
def Conn.session (c : Conn) (st : Store) : Solo where
  stack := c.stack.vector
  loggedIn := c.loggedIn
  inTransaction := c.inTransaction
  sent := c.sent
  store := st

/-- What a loop over the locked tables and what follows it come to. -/
def Solo.conclude (σ : Solo) : Ending → Solo
  | .commit => { σ with inTransaction := false, store := σ.store.commit }.ok
  | .abort what => σ.abort what
  | .destroy => σ.leave

/-- The session once the request in progress is done with. -/
def Conn.settle (c : Conn) (st : Store) : Solo :=
  let σ := c.session st
  match c.pc with
  | .reading => σ
  | .closed => { σ with status := .closed }
  | .terminated => σ.crash
  | .createLock name | .createBody name => σ.create name
  | .createUnlock result | .guardUnlock _ result => σ.outcome result
  | .findLock a | .findBody a => σ.access a
  | .findUnlock a found =>
      if found.isSome then σ.reach a
      else σ.failed (bytes "The table that you want to find is not exist")
  | .trylock a _ | .call a _ | .guardLock a _ | .guardCall a _ => σ.reach a
  | .guardCommit _ => { σ with store := st.commit }.ok
  | .ending e _ | .endingUnlock e _ _ => σ.conclude e

section Requests

variable {p : Platform} {c : Conn} {st : Store}

theorem settle_reading (h : c.pc = .reading) : c.settle st = c.session st := by
  rw [Conn.settle, h]

theorem settle_leave (h : c.pc = c.leave) : c.settle st = (c.session st).leave := by
  unfold Conn.leave at h
  rw [Conn.settle, h]
  by_cases htx : c.inTransaction = true
  · rw [if_pos htx]
    rfl
  · rw [if_neg htx]
    simp [Solo.leave, Conn.session, htx]

theorem leave_status (h : c.pc = c.leave) : (c.settle st).status = .closed := by
  rw [settle_leave h]
  rfl

theorem respondWith_failed (c : Conn) (st : Store) (what : Str) :
    (c.respondWith { messageType := .failed, args := [what] } .reading).settle st
      = (c.session st).failed what := by
  unfold Conn.respondWith Solo.failed Solo.respond
  cases encode { messageType := .failed, args := [what] } <;> rfl

/-- The `catch` clauses. -/
theorem catchClause_settle (c : Conn) (st : Store) (e : Exn) :
    (c.catchClause e).settle st = (c.session st).raise e := by
  cases e with
  | operation what => exact respondWith_failed c st what
  | failedTransaction what => rfl
  | invalidMessage what =>
      unfold Conn.catchClause Conn.respondWith Solo.raise Solo.refuse
      dsimp only
      cases encode { messageType := .error, args := [what] } with
      | ok line => exact settle_leave rfl
      | error e => rfl
  | _ => rfl

/-- The `try` block around a part of a handler. -/
theorem attempt_settle (c : Conn) (st : Store) (act : ConnM Pc) :
    (c.attempt act).settle st =
      match act.exec c with
      | (.ok pc, c) => { c with pc := pc }.settle st
      | (.error e, c) => (c.session st).raise e := by
  unfold Conn.attempt
  rcases act.exec c with ⟨r, c'⟩
  cases r with
  | ok pc => rfl
  | error e => exact catchClause_settle c' st e

theorem afterGuard_settle (c : Conn) (st : Store) (result : Except Exn Unit) :
    (c.attempt (afterGuard result)).settle st = (c.session st).outcome result := by
  rw [attempt_settle]
  cases result with
  | ok u => simp [afterGuard, Conn.settle, Conn.session, Solo.outcome, Solo.ok]
  | error e => simp [afterGuard, Solo.outcome]

theorem login_settle (c : Conn) (st : Store) :
    (c.attempt handleLogin).settle st = (c.session st).login := by
  rw [attempt_settle, handleLogin_exec]
  by_cases h : c.loggedIn = true
  · rw [if_pos h, Solo.login, if_pos (show (c.session st).loggedIn = true from h)]
    rfl
  · rw [if_neg h, Solo.login, if_neg (show ¬ (c.session st).loggedIn = true from h)]
    rfl

theorem set_settle (c : Conn) (st : Store) (m : Message) :
    (c.attempt (handleSet m)).settle st = (c.session st).takeSet m.getTable m.getKey := by
  have hstack : (c.session st).stack = c.stack.vector := rfl
  rw [attempt_settle, handleSet_exec, Solo.takeSet, hstack]
  cases c.stack.vector <;> rfl

theorem push_settle (c : Conn) (st : Store) (m : Message) :
    (c.attempt (handlePush m)).settle st
      = { c.session st with stack := m.getValue :: (c.session st).stack }.ok := by
  rw [attempt_settle, handlePush_exec]
  rfl

theorem pop_settle (c : Conn) (st : Store) :
    (c.attempt handlePop).settle st = (c.session st).pop := by
  have hstack : (c.session st).stack = c.stack.vector := rfl
  rw [attempt_settle, handlePop_exec, Solo.pop, hstack]
  cases c.stack.vector <;> rfl

theorem top_settle (c : Conn) (st : Store) :
    (c.attempt handleTop).settle st = (c.session st).top := by
  rw [attempt_settle, handleTop_exec, Solo.top]
  cases hstack : c.stack.vector with
  | nil => simp [Conn.session, Solo.raise, hstack]
  | cons value rest =>
      cases hline : encode { messageType := .data, args := [value] } with
      | ok line => simp [Conn.settle, Conn.session, hstack, hline]
      | error e => simp [Conn.session, hstack, hline]

theorem arithmetic_settle (c : Conn) (st : Store) (op : ArithOp) :
    (c.attempt (handleArith p op)).settle st = (c.session st).arithmetic p op := by
  have hstack : (c.session st).stack = c.stack.vector := rfl
  rw [attempt_settle, handleArith_exec, operands_exec, Solo.arithmetic, hstack]
  rcases c.stack.vector with _ | ⟨right, _ | ⟨left, rest⟩⟩
  · rfl
  · rfl
  · dsimp only [Solo.result]
    cases operandValue left with
    | error e => rfl
    | ok l =>
        cases operandValue right with
        | error e => rfl
        | ok r =>
            simp only [ok_bind, pure_eq]
            by_cases hdiv : op = .div ∧ r = 0
            · rw [if_pos hdiv, if_pos hdiv]
              rfl
            · rw [if_neg hdiv, if_neg hdiv, pushResult_exec]
              cases arith p op l r <;> rfl

theorem begin_settle (c : Conn) (st : Store) :
    (c.attempt handleBegin).settle st = (c.session st).begin := by
  rw [attempt_settle, handleBegin_exec]
  by_cases h : c.inTransaction = true
  · rw [if_pos h, Solo.begin, if_pos (show (c.session st).inTransaction = true from h)]
    rfl
  · rw [if_neg h, Solo.begin, if_neg (show ¬ (c.session st).inTransaction = true from h)]
    rfl

theorem commit_settle (c : Conn) (st : Store) :
    (c.attempt handleCommit).settle st = (c.session st).commit := by
  rw [attempt_settle, handleCommit_exec]
  by_cases h : c.inTransaction = true
  · rw [if_pos h, Solo.commit, if_pos (show (c.session st).inTransaction = true from h)]
    rfl
  · rw [if_neg h, Solo.commit, if_neg (show ¬ (c.session st).inTransaction = true from h)]
    rfl

/-- **What a request comes to.** -/
theorem request_settle (p : Platform) (c : Conn) (st : Store) (m : Message) :
    (c.attempt (handleRequest p m)).settle st = (c.session st).request p m := by
  have hhandler : ∀ act : ConnM Pc, (match act.exec c with
      | (.ok pc, c) => { c with pc := pc }.settle st
      | (.error e, c) => (c.session st).raise e) = (c.attempt act).settle st :=
    fun act => (attempt_settle c st act).symm
  rw [attempt_settle, Solo.request]
  unfold handleRequest
  rw [ConnM.exec_bind, ConnM.exec_get]
  dsimp only
  by_cases hout : m.messageType ≠ .login ∧ m.messageType ≠ .bye ∧ !c.loggedIn
  · rw [if_pos hout, if_pos (show _ ∧ _ ∧ !(c.session st).loggedIn from hout)]
    rfl
  · rw [if_neg hout, if_neg (show ¬ (_ ∧ _ ∧ !(c.session st).loggedIn) from hout)]
    cases m.messageType with
    | login => exact (hhandler _).trans (login_settle c st)
    | create => rfl
    | get => rfl
    | set => exact (hhandler _).trans (set_settle c st m)
    | push => exact (hhandler _).trans (push_settle c st m)
    | pop => exact (hhandler _).trans (pop_settle c st)
    | top => exact (hhandler _).trans (top_settle c st)
    | add => exact (hhandler _).trans (arithmetic_settle c st .add)
    | sub => exact (hhandler _).trans (arithmetic_settle c st .sub)
    | mul => exact (hhandler _).trans (arithmetic_settle c st .mul)
    | div => exact (hhandler _).trans (arithmetic_settle c st .div)
    | begin => exact (hhandler _).trans (begin_settle c st)
    | commit => exact (hhandler _).trans (commit_settle c st)
    | bye =>
        simp only [handleBye, ConnM.exec_bind, respondOk_exec, ConnM.exec_get, ConnM.exec_pure]
        exact settle_leave rfl
    | none => rfl
    | ok => rfl
    | failed => rfl
    | error => rfl
    | data => rfl

/-- **What a line comes to.** -/
theorem line_settle (p : Platform) (c : Conn) (st : Store) (line : Str) :
    (c.chatWithClient p line).settle st = (c.session st).line p line := by
  rw [Solo.line]
  cases hm : decode (cstr line) with
  | ok m =>
      rw [chatWithClient_ok p hm]
      exact request_settle p _ st m
  | error e =>
      have hattempt : c.chatWithClient p line
          = Conn.catchClause { c with received := c.received ++ [line] } e := by
        simp [Conn.chatWithClient, Conn.attempt, hm]
      rw [hattempt]
      exact catchClause_settle _ st e

theorem operandValue_raise {s : Str} {e : Exn} (h : operandValue s = .error e) :
    ∃ what, e = .operation what := by
  obtain ⟨what, rfl, -⟩ := operandValue_error h
  exact ⟨what, rfl⟩

/-- Arithmetic that comes to nothing ends in an `OperationException`, or traps. -/
theorem result_error {op : ArithOp} {left right : Str} {e : Exn}
    (h : Solo.result p op left right = .error e) : (∃ what, e = .operation what) ∨ e = .trap := by
  unfold Solo.result at h
  cases hl : operandValue left with
  | error e =>
      rw [hl] at h
      cases h
      exact .inl (operandValue_raise hl)
  | ok l =>
      cases hr : operandValue right with
      | error e =>
          rw [hl, hr] at h
          cases h
          exact .inl (operandValue_raise hr)
      | ok r =>
          simp only [hl, hr, ok_bind] at h
          split at h
          · cases h
            exact .inl ⟨_, rfl⟩
          · rcases arith_cases p op l r with ⟨v, hv, -⟩ | htrap
            · cases hv.symm.trans h
            · exact .inr (Except.error.inj (h.symm.trans htrap))

end Requests

end KvServer
