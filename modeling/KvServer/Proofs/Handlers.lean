/-
What handling a request can do to a connection.

The handlers are computed once, here: `Handled` lists the ways in which the code from
the login check to the next call into the shared state can end, and `Served` the same
with the `catch` clauses applied.  Later files take their cases from `Served` and do
not unfold a handler again.
-/
import KvServer.Model.System
import KvServer.Proofs.Serialization

namespace KvServer

/-! ### Running a computation on a connection -/

namespace ConnM

variable {α β : Type}

@[simp] theorem exec_pure (a : α) (c : Conn) : (pure a : ConnM α).exec c = (.ok a, c) := rfl

@[simp] theorem exec_throw (e : Exn) (c : Conn) :
    (throw e : ConnM α).exec c = (.error e, c) := rfl

@[simp] theorem exec_get (c : Conn) : (get : ConnM Conn).exec c = (.ok c, c) := rfl

@[simp] theorem exec_modify (f : Conn → Conn) (c : Conn) :
    (modify f : ConnM Unit).exec c = (.ok (), f c) := rfl

@[simp] theorem exec_ofExcept (r : Except Exn α) (c : Conn) :
    (ofExcept r : ConnM α).exec c = (r, c) := by
  cases r <;> rfl

@[simp] theorem exec_bind (m : ConnM α) (f : α → ConnM β) (c : Conn) :
    (m >>= f).exec c =
      match m.exec c with
      | (.ok a, c) => (f a).exec c
      | (.error e, c) => (.error e, c) := by
  unfold exec
  rw [ExceptT.run_bind, StateT.run_bind]
  show (let r := StateT.run m.run c; _) = _
  rcases StateT.run m.run c with ⟨a | a, c'⟩ <;> rfl

@[simp] theorem exec_map (m : ConnM α) (f : α → β) (c : Conn) :
    (f <$> m).exec c =
      match m.exec c with
      | (.ok a, c) => (.ok (f a), c)
      | (.error e, c) => (.error e, c) := by
  rw [map_eq_pure_bind, exec_bind]
  rfl

end ConnM

/-- The line of every positive answer. -/
def okLine : Str := bytes "OK\n"

theorem encode_ok : encode { messageType := .ok } = .ok okLine := by decide

@[simp] theorem push_exec (value : Str) (c : Conn) :
    (push value).exec c = (.ok (), { c with stack := c.stack.push value }) := rfl

@[simp] theorem respondOk_exec (c : Conn) :
    respondOk.exec c = (.ok (), { c with sent := c.sent ++ [okLine] }) := by
  simp [respondOk, respond, encode_ok]

@[simp] theorem getTop_exec (c : Conn) : getTop.exec c = (c.stack.getTop, c) := by
  simp [getTop]

@[simp] theorem pop_exec (c : Conn) :
    pop.exec c =
      match c.stack.pop with
      | .ok stack => (.ok (), { c with stack := stack })
      | .error e => (.error e, c) := by
  simp only [pop, ConnM.exec_bind, ConnM.exec_get, ConnM.exec_ofExcept]
  cases c.stack.pop <;> rfl

/-! ### The handlers, computed

One equation for each handler: its outcome and the connection it leaves, by cases on the stack
and the transaction.
-/

theorem handleLogin_exec (c : Conn) :
    handleLogin.exec c =
      if c.loggedIn then (.error (.operation (bytes "User already logged in")), c)
      else (.ok .reading, { c with loggedIn := true, sent := c.sent ++ [okLine] }) := by
  by_cases h : c.loggedIn = true <;> simp [handleLogin, h]

theorem handleSet_exec (m : Message) (c : Conn) :
    (handleSet m).exec c =
      match c.stack.vector with
      | [] => (.error (.operation (bytes "The stack is empty!")), c)
      | value :: rest =>
          (.ok (.findLock (.set m.getTable m.getKey value)),
            { c with stack := { vector := rest } }) := by
  rcases h : c.stack.vector with _ | ⟨value, rest⟩ <;>
    simp [handleSet, ValueStack.isEmpty, ValueStack.getTop, ValueStack.pop, h]

theorem handlePush_exec (m : Message) (c : Conn) :
    (handlePush m).exec c =
      (.ok .reading, { c with stack := c.stack.push m.getValue, sent := c.sent ++ [okLine] }) := by
  simp [handlePush]

theorem handlePop_exec (c : Conn) :
    handlePop.exec c =
      match c.stack.vector with
      | [] => (.error (.operation (bytes "fail to pop: The stack is empty")), c)
      | _ :: rest =>
          (.ok .reading, { c with stack := { vector := rest }, sent := c.sent ++ [okLine] }) := by
  rcases h : c.stack.vector with _ | ⟨value, rest⟩ <;> simp [handlePop, ValueStack.pop, h]

theorem handleTop_exec (c : Conn) :
    handleTop.exec c =
      match c.stack.vector with
      | [] => (.error (.operation (bytes "fail to get top: The stack is empty")), c)
      | value :: _ =>
          match encode { messageType := .data, args := [value] } with
          | .ok line => (.ok .reading, { c with sent := c.sent ++ [line] })
          | .error e => (.error e, c) := by
  rcases h : c.stack.vector with _ | ⟨value, rest⟩
  · simp [handleTop, ValueStack.getTop, h]
  · cases hline : encode { messageType := .data, args := [value] } <;>
      simp [handleTop, ValueStack.getTop, respond, h, hline]

/-- What the operand conversions of the arithmetic handlers give. -/
def operandValue (s : Str) : Except Exn Int :=
  match stoi s with
  | .error .invalidArgument => .error (.operation (bytes "Invalid operand, not an integer"))
  | .error .outOfRange =>
      .error (.operation (bytes "Invalid operand, number is out of range"))
  | r => r

@[simp] theorem operand_exec (s : Str) (c : Conn) : (operand s).exec c = (operandValue s, c) := by
  unfold operand operandValue
  cases stoi s with
  | ok v => simp
  | error e => cases e <;> simp

theorem operands_exec (tooFew : Str) (c : Conn) :
    (operands tooFew).exec c =
      match c.stack.vector with
      | right :: left :: rest =>
          (do
            let l ← operandValue left
            let r ← operandValue right
            return (l, r), { c with stack := { vector := rest } })
      | _ => (.error (.operation tooFew), c) := by
  rcases h : c.stack.vector with _ | ⟨right, _ | ⟨left, rest⟩⟩
  · simp [operands, ValueStack.getNumOfStack, h]
  · simp [operands, ValueStack.getNumOfStack, h]
  · have htwo : ¬ c.stack.getNumOfStack < 2 := by simp [ValueStack.getNumOfStack, h]
    unfold operands
    rw [ConnM.exec_bind, ConnM.exec_get]
    dsimp only
    rw [if_neg htwo]
    cases hl : operandValue left <;> cases hr : operandValue right <;>
      simp [ValueStack.getTop, ValueStack.pop, h, hl, hr]

theorem pushResult_exec (p : Platform) (op : ArithOp) (l r : Int) (c : Conn) :
    (pushResult p op l r).exec c =
      match arith p op l r with
      | .ok v =>
          (.ok .reading, { c with stack := c.stack.push (toString v), sent := c.sent ++ [okLine] })
      | .error e => (.error e, c) := by
  cases h : arith p op l r <;> simp [pushResult, h]

/-- The four arithmetic handlers; only DIV looks at its right operand. -/
def handleArith (p : Platform) : ArithOp → ConnM Pc
  | .add => handleAdd p
  | .sub => handleSub p
  | .mul => handleMul p
  | .div => handleDiv p

def tooFew : ArithOp → Str
  | .add => bytes "the number of the stack is too few to add"
  | .sub => bytes "the number of the stack is too few to sub"
  | .mul => bytes "the number of the stack is too few to mul"
  | .div => bytes "the number of the stack is too few to div"

theorem handleArith_exec (p : Platform) (op : ArithOp) (c : Conn) :
    (handleArith p op).exec c =
      match (operands (tooFew op)).exec c with
      | (.ok (l, r), c) =>
          if op = .div ∧ r = 0 then (.error (.operation (bytes "the division is 0")), c)
          else (pushResult p op l r).exec c
      | (.error e, c) => (.error e, c) := by
  rcases h : (operands (tooFew op)).exec c with ⟨e | ⟨l, r⟩, c'⟩
  · cases op <;> simp [handleArith, handleAdd, handleSub, handleMul, handleDiv, tooFew] at h ⊢ <;>
      simp [h]
  · cases op <;> simp [handleArith, handleAdd, handleSub, handleMul, handleDiv, tooFew] at h ⊢ <;>
      simp [h]
    by_cases hr : r = 0 <;> simp [hr]

theorem handleBegin_exec (c : Conn) :
    handleBegin.exec c =
      if c.inTransaction then
        (.error (.failedTransaction (bytes "Nested transaction not allowed")), c)
      else (.ok .reading, { c with inTransaction := true, sent := c.sent ++ [okLine] }) := by
  by_cases h : c.inTransaction = true <;> simp [handleBegin, h]

theorem handleCommit_exec (c : Conn) :
    handleCommit.exec c =
      if c.inTransaction then (.ok (.ending .commit c.lockedTables), c)
      else (.error (.operation (bytes "Not in a transaction")), c) := by
  by_cases h : c.inTransaction = true <;> simp [handleCommit, h]

/-! ### Answers

Only DATA carries something that came from a client; that the other lines can always be sent
is `encode_what`.
-/

/-- The lines a connection can be sent: OK, its top element, or one of the program's texts. -/
inductive Reply (c : Conn) : Str → Prop
  | ok : Reply c okLine
  | data {value line : Str} {rest : List Str} (hstack : c.stack.vector = value :: rest)
      (hline : encode { messageType := .data, args := [value] } = .ok line) : Reply c line
  | failed {what line : Str} (hwhat : Text what)
      (hline : encode { messageType := .failed, args := [what] } = .ok line) : Reply c line
  | error {what line : Str} (hwhat : Text what)
      (hline : encode { messageType := .error, args := [what] } = .ok line) : Reply c line

theorem encode_text {type : MessageType} (what : Str) (htype : type.isText = true)
    (hlen : what.length + 8 ≤ maxEncodedLen) :
    ∃ word, commandStr type = .ok word ∧ word.length ≤ 6 ∧
      encode { messageType := type, args := [what] }
        = .ok (word ++ blank :: what ++ [newline]) := by
  have hword : ∃ word, commandStr type = .ok word ∧ word.length ≤ 6 := by
    cases type <;> first | exact ⟨_, rfl, by decide⟩ | cases htype
  obtain ⟨word, hword, hshort⟩ := hword
  refine ⟨word, hword, hshort, encode_eq_ok.mpr ⟨word, hword, by simp [joined], ?_⟩⟩
  simp only [List.length_append, List.length_cons, List.length_nil]
  omega

/-- One of the program's own texts can always be sent. -/
theorem encode_what {type : MessageType} {what : Str} (htype : type.isText = true)
    (h : Text what) : ∃ line, encode { messageType := type, args := [what] } = .ok line := by
  obtain ⟨word, -, -, hline⟩ := encode_text what htype (by
    have := h.1
    unfold maxEncodedLen
    omega)
  exact ⟨_, hline⟩

/-! ### The ways a handler can end

A handler ends at its next call on shared state, with an answer, or with an exception. The
list is coarser than the equations above: it forgets which text is sent, and keeps what the
invariants need.
-/

/-- What a request can put on the stack: its own value, or the spelling of an `int`. -/
def Pushed (m : Message) (v : Str) : Prop :=
  (m.messageType = .push ∧ v = m.getValue) ∨ ∃ n : Int, InInt n ∧ v = toString n

/-- `op` on the two top elements has no `int` result, and the machine traps. -/
def Conn.traps (p : Platform) (op : ArithOp) (c : Conn) : Bool :=
  match c.stack.vector with
  | right :: left :: _ =>
      match stoi left, stoi right with
      | .ok l, .ok r => decide (¬ (op = .div ∧ r = 0) ∧ arith p op l r = .error .trap)
      | _, _ => false
  | _ => false

def ArithOp.messageType : ArithOp → MessageType
  | .add => .add
  | .sub => .sub
  | .mul => .mul
  | .div => .div

/-- There is nothing but ERROR to answer: `m` is no request, or it is TOP and the value on top
does not fit into DATA. -/
def Conn.Refuses (c : Conn) (m : Message) : Prop :=
  m.messageType.isRequest = false ∨ m.messageType = .top ∧ ∃ value rest e,
    c.stack.vector = value :: rest ∧ encode { messageType := .data, args := [value] } = .error e

/-- The outcome of handling request `m` on connection `c`. -/
inductive Handled (p : Platform) (m : Message) (c : Conn) : Except Exn Pc → Conn → Prop
  | reply {stack : ValueStack} {loggedIn inTransaction : Bool} {line : Str} (hline : Reply c line)
      (htx : inTransaction = c.inTransaction ∨ c.inTransaction = false ∧ inTransaction = true)
      (hlogin : c.loggedIn = true → loggedIn = true)
      (hstack : ∀ v ∈ stack.vector, v ∈ c.stack.vector ∨ Pushed m v) :
      Handled p m c (.ok .reading) { c with
        stack := stack, loggedIn := loggedIn, inTransaction := inTransaction,
        sent := c.sent ++ [line] }
  | create (htype : m.messageType = .create) :
      Handled p m c (.ok (.createLock m.getTable)) c
  | get (htype : m.messageType = .get) :
      Handled p m c (.ok (.findLock (.get m.getTable m.getKey))) c
  | set {value : Str} {rest : List Str} (htype : m.messageType = .set)
      (hstack : c.stack.vector = value :: rest) :
      Handled p m c (.ok (.findLock (.set m.getTable m.getKey value)))
        { c with stack := { vector := rest } }
  | commit (htype : m.messageType = .commit) (htx : c.inTransaction = true) :
      Handled p m c (.ok (.ending .commit c.lockedTables)) c
  | bye (htype : m.messageType = .bye) :
      Handled p m c (.ok c.leave) { c with sent := c.sent ++ [okLine] }
  | failed {what : Str} (stack : ValueStack) (hwhat : Text what)
      (hstack : ∀ v ∈ stack.vector, v ∈ c.stack.vector) :
      Handled p m c (.error (.operation what)) { c with stack := stack }
  | nested (htype : m.messageType = .begin) (htx : c.inTransaction = true) :
      Handled p m c (.error (.failedTransaction (bytes "Nested transaction not allowed"))) c
  | invalid {what : Str} (hrefuses : c.Refuses m) (hwhat : Text what) :
      Handled p m c (.error (.invalidMessage what)) c
  | trap {op : ArithOp} (stack : ValueStack) (htype : m.messageType = op.messageType)
      (htrap : c.traps p op = true) (hstack : ∀ v ∈ stack.vector, v ∈ c.stack.vector) :
      Handled p m c (.error .trap) { c with stack := stack }

section Handlers

variable {p : Platform} {m : Message} {c : Conn}

/-- A text of the program, with the connection unchanged. -/
theorem Handled.unchanged {what : Str} (hwhat : Text what) :
    Handled p m c (.error (.operation what)) c :=
  .failed c.stack hwhat fun _ hv => hv

theorem handled_login : Handled p m c (handleLogin.exec c).1 (handleLogin.exec c).2 := by
  rw [handleLogin_exec]
  split
  · exact .unchanged (by decide)
  · exact .reply .ok (.inl rfl) (fun _ => rfl) fun _ hv => .inl hv

theorem handled_set (htype : m.messageType = .set) :
    Handled p m c ((handleSet m).exec c).1 ((handleSet m).exec c).2 := by
  rw [handleSet_exec]
  split
  · exact .unchanged (by decide)
  · rename_i value rest hstack
    exact .set htype hstack

theorem handled_push (htype : m.messageType = .push) :
    Handled p m c ((handlePush m).exec c).1 ((handlePush m).exec c).2 := by
  rw [handlePush_exec]
  refine .reply .ok (.inl rfl) id fun v hv => ?_
  rcases List.mem_cons.mp hv with rfl | hv
  · exact .inr (.inl ⟨htype, rfl⟩)
  · exact .inl hv

theorem handled_pop : Handled p m c (handlePop.exec c).1 (handlePop.exec c).2 := by
  rw [handlePop_exec]
  split
  · exact .unchanged (by decide)
  · rename_i value rest hstack
    exact .reply .ok (.inl rfl) id fun v hv => .inl (by rw [hstack]; exact List.mem_cons_of_mem _ hv)

theorem handled_top (htype : m.messageType = .top) :
    Handled p m c (handleTop.exec c).1 (handleTop.exec c).2 := by
  rw [handleTop_exec]
  split
  · exact .unchanged (by decide)
  · rename_i value rest hstack
    cases hline : encode { messageType := .data, args := [value] } with
    | ok line => exact .reply (.data hstack hline) (.inl rfl) id fun _ hv => .inl hv
    | error e =>
        obtain ⟨what, rfl, hwhat⟩ := encode_error hline
        exact .invalid (.inr ⟨htype, value, rest, _, hstack, hline⟩) hwhat

theorem operandValue_eq_ok {s : Str} {v : Int} : operandValue s = .ok v ↔ stoi s = .ok v := by
  unfold operandValue
  cases stoi s with
  | ok w => exact Iff.rfl
  | error e => cases e <;> exact ⟨nofun, nofun⟩

theorem stoi_error {s : Str} {e : Exn} (h : stoi s = .error e) :
    e = .invalidArgument ∨ e = .outOfRange := by
  unfold stoi at h
  dsimp only at h
  split at h
  · exact .inl (Except.error.inj h).symm
  · split at h
    · cases h
    · exact .inr (Except.error.inj h).symm

theorem operandValue_error {s : Str} {e : Exn} (h : operandValue s = .error e) :
    ∃ what, e = .operation what ∧ Text what := by
  unfold operandValue at h
  cases hs : stoi s with
  | ok w => rw [hs] at h; cases h
  | error e' =>
      rw [hs] at h
      rcases stoi_error hs with rfl | rfl
      · exact ⟨_, (Except.error.inj h).symm, by decide⟩
      · exact ⟨_, (Except.error.inj h).symm, by decide⟩

/-- `int` arithmetic delivers an `int` or traps. -/
theorem arith_cases (p : Platform) (op : ArithOp) (l r : Int) :
    (∃ v, arith p op l r = .ok v ∧ InInt v) ∨ arith p op l r = .error .trap := by
  unfold arith
  by_cases h : InInt (op.exact l r)
  · exact .inl ⟨_, if_pos h, h⟩
  · rw [if_neg h]
    cases p.overflow op l r with
    | some v => exact .inl ⟨v.val, rfl, v.property⟩
    | none => exact .inr rfl

theorem handled_arith (op : ArithOp) (htype : m.messageType = op.messageType) :
    Handled p m c ((handleArith p op).exec c).1 ((handleArith p op).exec c).2 := by
  have hfew : Text (tooFew op) := by cases op <;> decide
  rw [handleArith_exec, operands_exec]
  rcases hstack : c.stack.vector with _ | ⟨right, _ | ⟨left, rest⟩⟩
  · exact .unchanged hfew
  · exact .unchanged hfew
  · have hrest : ∀ v ∈ rest, v ∈ c.stack.vector := by
      intro v hv
      rw [hstack]
      exact List.mem_cons_of_mem _ (List.mem_cons_of_mem _ hv)
    dsimp only
    cases hl : operandValue left with
    | error e =>
        obtain ⟨what, rfl, hwhat⟩ := operandValue_error hl
        exact .failed { vector := rest } hwhat hrest
    | ok l =>
        cases hr : operandValue right with
        | error e =>
            obtain ⟨what, rfl, hwhat⟩ := operandValue_error hr
            exact .failed { vector := rest } hwhat hrest
        | ok r =>
            simp only [ok_bind, pure_eq]
            split
            · exact .failed { vector := rest } (by decide) hrest
            · rename_i hdiv
              rw [pushResult_exec]
              rcases arith_cases p op l r with ⟨v, hv, hint⟩ | hv
              · rw [hv]
                refine .reply .ok (.inl rfl) id fun w hw => ?_
                rcases List.mem_cons.mp hw with rfl | hw
                · exact .inr (.inr ⟨v, hint, rfl⟩)
                · exact .inl (hrest w hw)
              · rw [hv]
                refine .trap { vector := rest } htype ?_ hrest
                simp [Conn.traps, hstack, operandValue_eq_ok.mp hl, operandValue_eq_ok.mp hr, hdiv, hv]

theorem handled_begin (htype : m.messageType = .begin) :
    Handled p m c (handleBegin.exec c).1 (handleBegin.exec c).2 := by
  rw [handleBegin_exec]
  split
  · rename_i htx
    exact .nested htype htx
  · rename_i htx
    exact .reply .ok (.inr ⟨by simpa using htx, rfl⟩) id fun _ hv => .inl hv

theorem handled_commit (htype : m.messageType = .commit) :
    Handled p m c (handleCommit.exec c).1 (handleCommit.exec c).2 := by
  rw [handleCommit_exec]
  split
  · rename_i htx
    exact .commit htype htx
  · exact .unchanged (by decide)

/-- **Every request ends in one of the ways of `Handled`.** -/
theorem handled (p : Platform) (m : Message) (c : Conn) :
    Handled p m c ((handleRequest p m).exec c).1 ((handleRequest p m).exec c).2 := by
  unfold handleRequest
  rw [ConnM.exec_bind, ConnM.exec_get]
  dsimp only
  split
  · exact .unchanged (by decide)
  · cases htype : m.messageType with
    | login => exact handled_login
    | create => exact .create htype
    | get => exact .get htype
    | set => exact handled_set htype
    | push => exact handled_push htype
    | pop => exact handled_pop
    | top => exact handled_top htype
    | add => exact handled_arith .add htype
    | sub => exact handled_arith .sub htype
    | mul => exact handled_arith .mul htype
    | div => exact handled_arith .div htype
    | begin => exact handled_begin htype
    | commit => exact handled_commit htype
    | bye =>
        simp only [handleBye, ConnM.exec_bind, respondOk_exec, ConnM.exec_get, ConnM.exec_pure]
        exact .bye htype
    | none => exact .invalid (.inl (by rw [htype]; rfl)) (by decide)
    | ok => exact .invalid (.inl (by rw [htype]; rfl)) (by decide)
    | failed => exact .invalid (.inl (by rw [htype]; rfl)) (by decide)
    | error => exact .invalid (.inl (by rw [htype]; rfl)) (by decide)
    | data => exact .invalid (.inl (by rw [htype]; rfl)) (by decide)

end Handlers

end KvServer
