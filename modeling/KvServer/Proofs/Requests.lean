/-
The server's side of `incr_value -t`.

The seven requests of the tool take its connection through the points of `Ready`: before
request `j` the connection is at rest with these operands and these operations recorded,
and the request is refused, granted, or on its way (`Busy`).  A refusal is a line that no
client takes for OK, and leaves the connection where it cannot commit (`Lost`).
-/
import KvServer.Lib.Replay
import KvServer.Model.Tools
import KvServer.Proofs.Clients
import KvServer.Proofs.Endings

namespace KvServer

/-- What has been read and written under locks, by table and key. -/
abbrev Ops := List (Replay.Op (TablePtr × Str) Str)

/-! ### Refusals

A refusal is recognised by its first letter: OK begins with an O, FAILED and ERROR do not.
-/

/-- The beginning of a FAILED or an ERROR line. -/
def Negative (s : Str) : Prop := ∃ c rest, s = c :: rest ∧ (c = 70 ∨ c = 69)

theorem Negative.append {s : Str} (h : Negative s) (more : Str) : Negative (s ++ more) := by
  obtain ⟨c, rest, rfl, hc⟩ := h
  exact ⟨c, rest ++ more, rfl, hc⟩

theorem negative_text {type : MessageType} {what line : Str} (htype : type.isText = true)
    (h : encode { messageType := type, args := [what] } = .ok line) : Negative line := by
  obtain ⟨word, hword, rfl, -⟩ := encode_eq_ok.mp h
  cases type with
  | failed =>
      obtain rfl := Except.ok.inj hword
      exact ⟨70, _, rfl, .inl rfl⟩
  | error =>
      obtain rfl := Except.ok.inj hword
      exact ⟨69, _, rfl, .inr rfl⟩
  | _ => cases htype

theorem Answers.negative {e : Exn} {line : Str} (h : Answers (.error e) line) : Negative line := by
  cases h with
  | failed hwhat hline => exact negative_text rfl hline

/-- What decodes to OK begins, after white space, with an O. -/
theorem decode_ok_head {c : Byte} {rest : Str} {m : Message} (hspace : isSpace c = false)
    (h : decode (c :: rest) = .ok m) (hok : m.messageType = .ok) : c = 79 := by
  have hencodes := decode_eq_ok.mp h
  obtain ⟨⟨word, tail, hword, hsplit, -⟩, -⟩ := hencodes.line
  rw [hok] at hword
  obtain rfl := Except.ok.inj hword
  cases rest with
  | nil =>
      have hlast : some c = some newline := hencodes.terminated
      obtain rfl := Option.some.inj hlast
      cases hspace
  | cons d rest =>
      rw [List.dropLast_cons_cons, List.dropWhile_cons, hspace] at hsplit
      exact (List.cons.inj hsplit).1

/-- **No client takes a refusal for OK.** -/
theorem Negative.not_holdsOk {arrived : Str} (h : Negative arrived) (buf : Str) :
    ¬ HoldsOk (rioReadlineb arrived buf maxEncodedLen).buf := by
  rintro ⟨m, hm, hok⟩
  obtain ⟨c, rest, rfl, hc⟩ := h
  have hne : c ≠ newline ∧ (c != nul) = true ∧ isSpace c = false ∧ c ≠ 79 := by
    rcases hc with rfl | rfl
    · decide
    · decide
  have hread : (readLoop (maxEncodedLen - 1) (c :: rest)).1
      = c :: (readLoop (maxEncodedLen - 2) rest).1 := by
    show (if c = newline then _ else _ : Str × Str).1 = _
    rw [if_neg hne.1]
    rfl
  simp only [rioReadlineb, List.cons_ne_nil, if_false, hread] at hm
  rw [cstr_append_nul, cstr, List.takeWhile_cons, hne.2.1] at hm
  exact hne.2.2.2 (decode_ok_head hne.2.2.1 hm hok)

/-- A connection that will not commit. -/
def Lost (c : Conn) : Prop :=
  c.pc = .reading ∨ c.pc = .closed ∨ c.pc.loop = some .destroy

/-- The request comes to nothing: a refusal has been sent, or will be after an abort, or
the process has ended. -/
structure Refused (c c' : Conn) : Prop where
  received : c'.received = c.received
  answer : (∃ resp, Negative resp ∧ c'.sent = c.sent ++ [resp] ∧ Lost c') ∨
    c'.sent = c.sent ∧ (c'.pc = .terminated ∨ ∃ what, c'.pc.loop = some (.abort what))

/-- The request is answered with OK. -/
structure Granted (c c' : Conn) : Prop where
  received : c'.received = c.received
  sent : c'.sent = c.sent ++ [okLine]
  point : c'.pc = .reading

section Refusals

variable {p : Platform} {c c' : Conn} {line : Str} {m : Message}

theorem lost_leave (hpc : c'.pc = c.leave) : Lost c' := by
  unfold Conn.leave at hpc
  split at hpc
  · exact .inr (.inr (by rw [hpc]; rfl))
  · exact .inr (.inl hpc)

theorem attempt_failed {act : ConnM Pc} {what : Str}
    (hexec : act.exec c = (.error (.operation what), c'))
    (hwhat : Text what) (hsent : c'.sent = c.sent) (hreceived : c'.received = c.received) :
    Refused c (c.attempt act) := by
  obtain ⟨resp, hresp, heq⟩ := catchClause_operation (c := c') hwhat
  have hattempt : c.attempt act = { c' with sent := c'.sent ++ [resp], pc := .reading } := by
    rw [Conn.attempt, hexec]
    exact heq
  rw [hattempt]
  exact ⟨hreceived, .inl ⟨resp, hresp.negative, by rw [hsent], .inl rfl⟩⟩

/-- Whoever has not logged in can only log in or say BYE. -/
theorem attempt_stranger (hlogin : m.messageType ≠ .login) (hbye : m.messageType ≠ .bye)
    (hout : c.loggedIn = false) : Refused c (c.attempt (handleRequest p m)) := by
  have hexec : (handleRequest p m).exec c
      = (.error (.operation (bytes "User has not logged in")), c) := by
    simp [handleRequest, hlogin, hbye, hout]
  exact attempt_failed hexec (by decide) rfl rfl

theorem refused_malformed {e : Exn} (he : decode (cstr line) = .error e) :
    ∃ resp, Negative resp ∧ (c.chatWithClient p line).received = c.received ++ [line] ∧
      (c.chatWithClient p line).sent = c.sent ++ [resp] ∧
      ((c.chatWithClient p line).pc = .closed ∨ (c.chatWithClient p line).pc.loop = some .destroy) := by
  obtain ⟨what, resp, -, hresp, heq⟩ := chatWithClient_error p he
  refine ⟨resp, negative_text rfl hresp, by rw [heq], by rw [heq], ?_⟩
  have hpc : (c.chatWithClient p line).pc = c.leave := by rw [heq]
  rw [hpc]
  unfold Conn.leave
  split
  · exact .inr rfl
  · exact .inl rfl

end Refusals

/-! ### The points of a run

Before each request the stack and the recorded operations are known up to the value that was
read, and `Ready` says so by the number of the request.
-/

/-- `y` is what ADD makes of `x` and 1. -/
def Bumped (p : Platform) (x y : Str) : Prop :=
  ∃ n m, stoi x = .ok n ∧ arith p .add n 1 = .ok m ∧ y = toString m

/-- The operations of a transaction that increments a location. -/
def Increment (p : Platform) (loc : TablePtr × Str) (ops : Ops) : Prop :=
  ∃ x y, Bumped p x y ∧ ops = [.read loc (some x), .write loc y]

section Points

variable (p : Platform) (table key : Str) (t : TablePtr)

/-- Before request `j`: the transaction, the operands and the operations so far. -/
def Ready (j : Nat) (c : Conn) (ops : Ops) : Prop :=
  match j with
  | 0 | 1 => c.inTransaction = false ∧ c.stack.vector = []
  | 2 => c.inTransaction = true ∧ c.stack.vector = [] ∧ ops = []
  | 3 => c.inTransaction = true ∧
      ∃ x, c.stack.vector = [x] ∧ ops = [.read (t, key) (some x)]
  | 4 => c.inTransaction = true ∧
      ∃ x, c.stack.vector = [bytes "1", x] ∧ ops = [.read (t, key) (some x)]
  | 5 => c.inTransaction = true ∧
      ∃ x y, c.stack.vector = [y] ∧ Bumped p x y ∧ ops = [.read (t, key) (some x)]
  | 6 => c.inTransaction = true ∧ Increment p (t, key) ops
  | _ => c.inTransaction = false

/-- A GET or SET on its way to the table, once the table is known to exist. -/
inductive Travels (a : Access) : Pc → Prop
  | findLock : Travels a (.findLock a)
  | findBody : Travels a (.findBody a)
  | findUnlock : Travels a (.findUnlock a (some t))
  | trylock : Travels a (.trylock a t)
  | call : Travels a (.call a t)

/-- While request `j` is handled. -/
inductive Busy : Nat → Conn → Ops → Prop
  | get {c : Conn} (hpc : Travels t (.get table key) c.pc) (htx : c.inTransaction = true)
      (hstack : c.stack.vector = []) : Busy 2 c []
  | set {c : Conn} {x y : Str} (hpc : Travels t (.set table key y) c.pc)
      (htx : c.inTransaction = true) (hbump : Bumped p x y) : Busy 5 c [.read (t, key) (some x)]
  | commit {c : Conn} {ops : Ops} (hpc : c.pc.loop = some .commit) (htx : c.inTransaction = true)
      (hops : Increment p (t, key) ops) : Busy 6 c ops

end Points

/-- The requests of `incr_value -t`. -/
def increment (user table key : Str) : List Exchange :=
  incrValueExchanges true user table key

theorem increment_length (user table key : Str) : (increment user table key).length = 7 := rfl

section Handled

variable {p : Platform} {user table key line : Str} {t : TablePtr} {c : Conn} {ops : Ops}
  {m : Message} {x : Exchange}

/-! What a request that nothing stands in the way of makes of its connection. -/

theorem attempt_login (hm : m.messageType = .login) (hin : c.loggedIn = false) :
    c.attempt (handleRequest p m)
      = { c with loggedIn := true, sent := c.sent ++ [okLine], pc := .reading } := by
  simp [Conn.attempt, handleRequest, hm, handleLogin_exec, hin]

theorem attempt_get (hin : c.loggedIn = true) :
    c.attempt (handleRequest p { messageType := .get, args := [table, key] })
      = { c with pc := .findLock (.get table key) } := by
  simp [Conn.attempt, handleRequest, hin, handleGet, Message.getTable, Message.getKey]

theorem attempt_push {value : Str} (hin : c.loggedIn = true) :
    c.attempt (handleRequest p { messageType := .push, args := [value] })
      = { c with stack := c.stack.push value, sent := c.sent ++ [okLine], pc := .reading } := by
  simp [Conn.attempt, handleRequest, hin, handlePush_exec, Message.getValue]

theorem attempt_set {value : Str} {rest : List Str} (hin : c.loggedIn = true)
    (hstack : c.stack.vector = value :: rest) :
    c.attempt (handleRequest p { messageType := .set, args := [table, key] })
      = { c with stack := { vector := rest }, pc := .findLock (.set table key value) } := by
  simp [Conn.attempt, handleRequest, hin, handleSet_exec, hstack, Message.getTable, Message.getKey]

theorem attempt_top {value resp : Str} {rest : List Str} (hin : c.loggedIn = true)
    (hstack : c.stack.vector = value :: rest)
    (hresp : encode { messageType := .data, args := [value] } = .ok resp) :
    c.attempt (handleRequest p { messageType := .top })
      = { c with sent := c.sent ++ [resp], pc := .reading } := by
  simp [Conn.attempt, handleRequest, hin, handleTop_exec, hstack, hresp]

/-- The operations recorded once a request has been read: a request outside a transaction
is the first of something. -/
def opsRead (c : Conn) (ops : Ops) : Ops :=
  if c.inTransaction then ops else []

/-- The ways a request can go on. -/
inductive Outcome (p : Platform) (table key : Str) (t : TablePtr) (j : Nat) (c c' : Conn)
    (ops : Ops) : Prop
  | refused (h : Refused c c')
  | granted (hj : j < 6) (h : Granted c c') (hready : Ready p key t (j + 1) c' ops)
  | busy (hreceived : c'.received = c.received) (hsent : c'.sent = c.sent)
      (hbusy : Busy p table key t j c' ops)

theorem outcome_login (hm : m.messageType = .login) (h : Ready p key t 0 c ops) (ops' : Ops) :
    Outcome p table key t 0 c (c.attempt (handleRequest p m)) ops' := by
  cases hin : c.loggedIn with
  | true =>
      have hexec : (handleRequest p m).exec c
          = (.error (.operation (bytes "User already logged in")), c) := by
        simp [handleRequest, hm, handleLogin_exec, hin]
      exact .refused (attempt_failed hexec (by decide) rfl rfl)
  | false =>
      rw [attempt_login hm hin]
      exact .granted (by decide) ⟨rfl, rfl, rfl⟩ h

theorem outcome_begin (hin : c.loggedIn = true) (h : Ready p key t 1 c ops) :
    Outcome p table key t 1 c (c.attempt (handleRequest p { messageType := .begin })) [] := by
  have heq : c.attempt (handleRequest p { messageType := .begin })
      = { c with inTransaction := true, sent := c.sent ++ [okLine], pc := .reading } := by
    simp [Conn.attempt, handleRequest, handleBegin_exec, hin, h.1]
  rw [heq]
  exact .granted (by decide) ⟨rfl, rfl, rfl⟩ ⟨rfl, h.2, rfl⟩

theorem outcome_get (hin : c.loggedIn = true) (h : Ready p key t 2 c ops) :
    Outcome p table key t 2 c
      (c.attempt (handleRequest p { messageType := .get, args := [table, key] })) ops := by
  obtain ⟨htx, hstack, rfl⟩ := h
  rw [attempt_get hin]
  exact .busy rfl rfl (.get .findLock htx hstack)

theorem outcome_push (hin : c.loggedIn = true) (h : Ready p key t 3 c ops) :
    Outcome p table key t 3 c
      (c.attempt (handleRequest p { messageType := .push, args := [bytes "1"] })) ops := by
  obtain ⟨htx, x, hstack, hops⟩ := h
  rw [attempt_push hin]
  refine .granted (by decide) ⟨rfl, rfl, rfl⟩ ⟨htx, x, ?_, hops⟩
  show bytes "1" :: c.stack.vector = _
  rw [hstack]

theorem operandValue_one : operandValue (bytes "1") = .ok 1 := by decide

theorem outcome_add (hin : c.loggedIn = true) (h : Ready p key t 4 c ops) :
    Outcome p table key t 4 c (c.attempt (handleRequest p { messageType := .add })) ops := by
  obtain ⟨htx, x, hstack, hops⟩ := h
  have hexec : (handleRequest p { messageType := .add }).exec c = (handleArith p .add).exec c := by
    simp [handleRequest, hin, handleArith]
  rw [handleArith_exec, operands_exec, hstack] at hexec
  cases hx : operandValue x with
  | error e =>
      obtain ⟨what, rfl, hwhat⟩ := operandValue_error hx
      have hfailed : (handleRequest p { messageType := .add }).exec c
          = (.error (.operation what), { c with stack := { vector := [] } }) := by
        rw [hexec]
        simp [hx]
      exact .refused (attempt_failed hfailed hwhat rfl rfl)
  | ok n =>
      simp only [hx, operandValue_one, ok_bind, pure_eq, reduceCtorEq, false_and, if_false,
        pushResult_exec] at hexec
      rcases arith_cases p .add n 1 with ⟨v, hv, -⟩ | htrap
      · rw [hv] at hexec
        have heq : c.attempt (handleRequest p { messageType := .add })
            = { c with stack := { vector := [toString v] }, sent := c.sent ++ [okLine],
                       pc := .reading } := by
          rw [Conn.attempt, hexec]
          rfl
        rw [heq]
        refine .granted (by decide) ⟨rfl, rfl, rfl⟩ ⟨htx, x, toString v, rfl, ?_, hops⟩
        exact ⟨n, v, operandValue_eq_ok.mp hx, hv, rfl⟩
      · rw [htrap] at hexec
        have heq : c.attempt (handleRequest p { messageType := .add })
            = { c with stack := { vector := [] }, pc := .terminated } := by
          rw [Conn.attempt, hexec]
          rfl
        rw [heq]
        exact .refused ⟨rfl, .inr ⟨rfl, .inl rfl⟩⟩

theorem outcome_set (hin : c.loggedIn = true) (h : Ready p key t 5 c ops) :
    Outcome p table key t 5 c
      (c.attempt (handleRequest p { messageType := .set, args := [table, key] })) ops := by
  obtain ⟨htx, x, y, hstack, hbump, rfl⟩ := h
  rw [attempt_set hin hstack]
  exact .busy rfl rfl (.set .findLock htx hbump)

theorem outcome_commit (hin : c.loggedIn = true) (h : Ready p key t 6 c ops) :
    Outcome p table key t 6 c (c.attempt (handleRequest p { messageType := .commit })) ops := by
  obtain ⟨htx, hops⟩ := h
  have heq : c.attempt (handleRequest p { messageType := .commit })
      = { c with pc := .ending .commit c.lockedTables } := by
    simp [Conn.attempt, handleRequest, hin, handleCommit_exec, htx]
  rw [heq]
  exact .busy rfl rfl (.commit rfl htx hops)

/-- **What becomes of each of the seven requests.** -/
theorem outcome {j : Nat} (hreq : (increment user table key)[j]? = some x)
    (hm : m = x.request ∨ j = 0 ∧ m.messageType = .login) (h : Ready p key t j c ops) :
    Outcome p table key t j c (c.attempt (handleRequest p m)) (opsRead c ops) := by
  have hj : j < 7 := by
    have := (List.getElem?_eq_some_iff.mp hreq).1
    rwa [increment_length] at this
  by_cases hzero : j = 0
  · subst hzero
    have hlogin : m.messageType = .login := by
      rcases hm with rfl | ⟨-, hm⟩
      · obtain rfl := Option.some.inj hreq
        rfl
      · exact hm
    exact outcome_login hlogin h _
  · obtain rfl : m = x.request := hm.resolve_right fun hm => hzero hm.1
    have hcases : j = 1 ∨ j = 2 ∨ j = 3 ∨ j = 4 ∨ j = 5 ∨ j = 6 := by omega
    have htype : x.request.messageType ≠ .login ∧ x.request.messageType ≠ .bye := by
      rcases hcases with rfl | rfl | rfl | rfl | rfl | rfl <;>
        (obtain rfl := Option.some.inj hreq; exact ⟨nofun, nofun⟩)
    by_cases hin : c.loggedIn = true
    · have hinside : c.inTransaction = true → opsRead c ops = ops := fun htx => if_pos htx
      rcases hcases with rfl | rfl | rfl | rfl | rfl | rfl <;>
        obtain rfl := Option.some.inj hreq
      · rw [opsRead, if_neg (by simp [h.1])]
        exact outcome_begin hin h
      · rw [hinside h.1]
        exact outcome_get hin h
      · rw [hinside h.1]
        exact outcome_push hin h
      · rw [hinside h.1]
        exact outcome_add hin h
      · rw [hinside h.1]
        exact outcome_set hin h
      · rw [hinside h.1]
        exact outcome_commit hin h
    · exact .refused (attempt_stranger htype.1 htype.2 (by simpa using hin))

end Handled

/-! ### The steps on the way

GET and SET go through several points before their call on the table. None of these answers or
records anything, except that the transaction may be refused the table.
-/

/-- The operations recorded after a step, for what is visible before it. -/
def opsNext (visible : TablePtr → Str → Option Str) (ops : Ops) : Call → Ops
  | .arrive => []
  | .get t key => ops ++ [.read (t, key) (visible t key)]
  | .set t key value => ops ++ [.write (t, key) value]
  | _ => ops

theorem opsNext_recv (visible : TablePtr → Str → Option Str) (c : Conn) (ops : Ops) (line : Str) :
    opsNext visible ops (c.call (.recv line) .none) = opsRead c ops := by
  by_cases htx : c.inTransaction = true
  · simp [Conn.call, opsRead, opsNext, htx]
  · simp [Conn.call, opsRead, opsNext, htx]

section Steps

variable {p : Platform} {sv : Server} {c c' : Conn} {ch : Choice} {effect : Effect}
  {table key : Str} {t : TablePtr} {a : Access} {ops : Ops}

/-- The call of a GET or SET on its table. -/
def Reached (sv : Server) (t : TablePtr) (a : Access) (c : Conn) (effect : Effect) (c' : Conn) : Prop :=
  match a with
  | .get _ key => effect = .get t key ∧
      ∃ x, (sv.tables t).visible key = some x ∧ c'.stack.vector = x :: c.stack.vector
  | .set _ key value => effect = .set t key value

/-- What a step leaves alone on the way to the table. -/
structure Still (c c' : Conn) : Prop where
  inTransaction : c'.inTransaction = c.inTransaction
  stack : c'.stack = c.stack
  sent : c'.sent = c.sent
  received : c'.received = c.received

theorem Travels.moves (hpc : Travels t a c.pc) (htx : c.inTransaction = true)
    (hfound : sv.findTable a.table = some t) (h : Moves p sv c ch effect c') :
    (Travels t a c'.pc ∧ Still c c' ∧ (effect.call = .none ∨ effect.call = .lock t)) ∨
      Refused c c' ∨
      (Granted c c' ∧ c'.inTransaction = true ∧ Reached sv t a c effect c') := by
  generalize hat : c.pc = pc at hpc
  cases hpc with
  | findLock =>
      cases h with
      | findLock hpc hfree =>
          cases hat.symm.trans hpc
          exact .inl ⟨.findBody, ⟨rfl, rfl, rfl, rfl⟩, .inl rfl⟩
      | _ => cases hat.symm.trans ‹c.pc = _›
  | findBody =>
      cases h with
      | findBody hpc =>
          cases hat.symm.trans hpc
          refine .inl ⟨?_, ⟨rfl, rfl, rfl, rfl⟩, .inl rfl⟩
          rw [hfound]
          exact .findUnlock
      | _ => cases hat.symm.trans ‹c.pc = _›
  | findUnlock =>
      cases h with
      | foundNew hpc _ ht =>
          cases hat.symm.trans hpc
          exact .inl ⟨.trylock, ⟨rfl, rfl, rfl, rfl⟩, .inl rfl⟩
      | foundLocked hpc _ ht =>
          cases hat.symm.trans hpc
          exact .inl ⟨.call, ⟨rfl, rfl, rfl, rfl⟩, .inl rfl⟩
      | foundAuto hpc hout => cases htx.symm.trans hout
      | _ => cases hat.symm.trans ‹c.pc = _›
  | trylock =>
      cases h with
      | trylock hpc hfree =>
          cases hat.symm.trans hpc
          exact .inl ⟨.call, ⟨rfl, rfl, rfl, rfl⟩, .inr rfl⟩
      | conflict hpc hheld => exact .inr (.inl ⟨rfl, .inr ⟨rfl, .inr ⟨_, rfl⟩⟩⟩)
      | _ => cases hat.symm.trans ‹c.pc = _›
  | call =>
      cases h with
      | callGet hpc hget =>
          cases hat.symm.trans hpc
          exact .inr (.inr ⟨⟨rfl, rfl, rfl⟩, htx, rfl, _, Table.get_eq_ok.mp hget, rfl⟩)
      | callGetFail hpc hget hresp =>
          exact .inr (.inl ⟨rfl, .inl ⟨_, hresp.negative, rfl, .inl rfl⟩⟩)
      | callSet hpc =>
          cases hat.symm.trans hpc
          exact .inr (.inr ⟨⟨rfl, rfl, rfl⟩, htx, rfl⟩)
      | _ => cases hat.symm.trans ‹c.pc = _›

theorem Moves.call_eq (h : Moves p sv c ch effect c') (hpc : c.pc ≠ .reading) :
    c.call ch effect = effect.call := by
  cases h with
  | request hreading _ _ _ => exact absurd hreading hpc
  | _ => rfl

/-- **What becomes of a GET or SET on its way.** -/
theorem Busy.moves {j : Nat} (h : Busy p table key t j c ops) (hj : j ≠ 6)
    (hfound : sv.findTable table = some t) (hmoves : Moves p sv c ch effect c') :
    Outcome p table key t j c c' (opsNext (fun u => (sv.tables u).visible) ops effect.call) := by
  have hquiet : ∀ {ops : Ops}, effect.call = .none ∨ effect.call = .lock t →
      opsNext (fun u => (sv.tables u).visible) ops effect.call = ops := by
    rintro ops (hcall | hcall) <;> rw [hcall] <;> rfl
  cases h with
  | get hpc htx hstack =>
      rcases hpc.moves htx hfound hmoves with
        ⟨hpc', hstill, hcall⟩ | hrefused | ⟨hgranted, htx', hreached⟩
      · refine .busy hstill.received hstill.sent ?_
        rw [hquiet hcall]
        exact .get hpc' (hstill.inTransaction.trans htx) (hstill.stack ▸ hstack)
      · exact .refused hrefused
      · obtain ⟨rfl, x, hx, hstack'⟩ := hreached
        refine .granted (by decide) hgranted ⟨htx', x, by rw [hstack', hstack], ?_⟩
        show [] ++ [Replay.Op.read (t, key) ((sv.tables t).visible key)] = _
        rw [hx]
        rfl
  | @set _ x y hpc htx hbump =>
      rcases hpc.moves htx hfound hmoves with
        ⟨hpc', hstill, hcall⟩ | hrefused | ⟨hgranted, htx', hreached⟩
      · refine .busy hstill.received hstill.sent ?_
        rw [hquiet hcall]
        exact .set hpc' (hstill.inTransaction.trans htx) hbump
      · exact .refused hrefused
      · obtain rfl : effect = .set t key y := hreached
        exact .granted (by decide) hgranted ⟨htx', x, y, hbump, rfl⟩
  | commit hpc htx hops => exact absurd rfl hj

theorem Travels.ne_reading (h : Travels t a c.pc) : c.pc ≠ .reading := by
  intro hpc
  rw [hpc] at h
  cases h

/-- At these points a connection is in its transaction. -/
theorem Travels.view (hpc : Travels t a c.pc) (htx : c.inTransaction = true) :
    c.view = .inside c.lockedTables := by
  generalize hat : c.pc = pc at hpc
  cases hpc <;> simp [Conn.view, hat, htx]

end Steps

end KvServer
