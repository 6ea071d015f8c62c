/-
One client session: `client_connection.cpp`.

A handler runs until it must call into the shared state (a mutex, a table or the
catalogue) or is done, so it is modelled as a computation on the connection that
ends with the program point, a `Pc`, where the connection goes on.  The parts of a
handler after such a call are definitions of their own, and `Conn.go` below says
which part runs at which point.  Throwing keeps what the handler had already done
to the connection, as it does in the source.

A point between two handlers is `reading`, at the top of the loop of
`chat_with_client`; the loops over `locked_tables` are the points `ending`, and the
order in which they visit the set is left to the caller of `Conn.step`.
-/
import Mathlib.Data.Finset.Basic
import KvServer.Model.Serialization
import KvServer.Model.ValueStack
import KvServer.Model.Server
import KvServer.Model.Arith

namespace KvServer

/-- What a GET or SET wants from its table. -/
inductive Access
  | get (table key : Str)
  | set (table key value : Str)
  deriving DecidableEq

def Access.table : Access → Str
  | .get table _ => table
  | .set table _ _ => table

/-- The three loops over `locked_tables`: `handle_commit`, the handler of
`FailedTransaction`, and the destructor. -/
inductive Ending
  | commit
  | abort (what : Str)
  | destroy
  deriving DecidableEq

/-- Where a connection is. -/
inductive Pc
  /-- at `rio_readlineb`, between two requests -/
  | reading
  /-- `create_table`, at the constructor of `guard`, inside, and at its destructor -/
  | createLock (name : Str)
  | createBody (name : Str)
  | createUnlock (result : Except Exn Unit)
  /-- `find_table`, likewise -/
  | findLock (a : Access)
  | findBody (a : Access)
  | findUnlock (a : Access) (found : Option TablePtr)
  /-- a transaction's GET or SET, at `trylock` and at the call on the table -/
  | trylock (a : Access) (t : TablePtr)
  | call (a : Access) (t : TablePtr)
  /-- an autocommit GET or SET, at the constructor of `G`, inside, and at its destructor -/
  | guardLock (a : Access) (t : TablePtr)
  | guardCall (a : Access) (t : TablePtr)
  | guardCommit (t : TablePtr)
  | guardUnlock (t : TablePtr) (result : Except Exn Unit)
  /-- a loop over `locked_tables` with `rest` still to visit, and inside one iteration -/
  | ending (e : Ending) (rest : Finset TablePtr)
  | endingUnlock (e : Ending) (t : TablePtr) (rest : Finset TablePtr)
  /-- the connection is gone -/
  | closed
  /-- an exception left `chat_with_client`, or the arithmetic trapped -/
  | terminated
  deriving DecidableEq

structure Conn where
  stack : ValueStack := {}
  loggedIn : Bool := false
  inTransaction : Bool := false
  lockedTables : Finset TablePtr := ∅
  pc : Pc := .reading
  /-- What each `rio_readlineb` stored, and what each `rio_writen` wrote. -/
  received : List Str := []
  sent : List Str := []
  deriving DecidableEq

/-! ### Computations on a connection -/

abbrev ConnM := ExceptT Exn (StateM Conn)

/-- The outcome of a computation, and the connection it leaves. -/
def ConnM.exec {α : Type} (m : ConnM α) (c : Conn) : Except Exn α × Conn :=
  StateT.run (ExceptT.run m) c

def push (value : Str) : ConnM Unit :=
  modify fun c => { c with stack := c.stack.push value }

def getTop : ConnM Str := do
  ofExcept (← get).stack.getTop

def pop : ConnM Unit := do
  let stack ← ofExcept (← get).stack.pop
  modify fun c => { c with stack := stack }

/-- `encode` a response and `rio_writen` it. -/
def respond (resp : Message) : ConnM Unit := do
  let encoded ← ofExcept (encode resp)
  modify fun c => { c with sent := c.sent ++ [encoded] }

def respondOk : ConnM Unit :=
  respond { messageType := .ok }

/-! ### The handlers

In the order of the source, up to the first call on shared state; a handler that makes none is
whole.
-/

def handleLogin : ConnM Pc := do
  if (← get).loggedIn then
    throw (.operation (bytes "User already logged in"))
  else
    modify fun c => { c with loggedIn := true }
    respondOk
    return .reading

def handleBye : ConnM Unit :=
  respondOk

def handleCreate (msg : Message) : ConnM Pc :=
  return .createLock msg.getTable

def handleGet (msg : Message) : ConnM Pc :=
  return .findLock (.get msg.getTable msg.getKey)

def handleSet (msg : Message) : ConnM Pc := do
  if (← get).stack.isEmpty then
    throw (.operation (bytes "The stack is empty!"))
  else
    let value ← getTop
    pop
    return .findLock (.set msg.getTable msg.getKey value)

def handlePush (msg : Message) : ConnM Pc := do
  push msg.getValue
  respondOk
  return .reading

def handlePop : ConnM Pc := do
  pop
  respondOk
  return .reading

def handleTop : ConnM Pc := do
  let value ← getTop
  respond { messageType := .data, args := [value] }
  return .reading

/-- `std::stoi` inside the `try` of the four arithmetic handlers. -/
def operand (s : Str) : ConnM Int :=
  match stoi s with
  | .error .invalidArgument => throw (.operation (bytes "Invalid operand, not an integer"))
  | .error .outOfRange => throw (.operation (bytes "Invalid operand, number is out of range"))
  | r => ofExcept r

/-- What the four arithmetic handlers begin with: the two operands, left and right. -/
def operands (tooFew : Str) : ConnM (Int × Int) := do
  if (← get).stack.getNumOfStack < 2 then
    throw (.operation tooFew)
  else
    let right ← getTop
    pop
    let left ← getTop
    pop
    let leftNum ← operand left
    let rightNum ← operand right
    return (leftNum, rightNum)

/-- What they end with; `std::to_string` does not throw, so its `catch` is dead code. -/
def pushResult (p : Platform) (op : ArithOp) (leftNum rightNum : Int) : ConnM Pc := do
  let resultNum ← ofExcept (arith p op leftNum rightNum)
  push (toString resultNum)
  respondOk
  return .reading

def handleAdd (p : Platform) : ConnM Pc := do
  let (leftNum, rightNum) ← operands (bytes "the number of the stack is too few to add")
  pushResult p .add leftNum rightNum

def handleSub (p : Platform) : ConnM Pc := do
  let (leftNum, rightNum) ← operands (bytes "the number of the stack is too few to sub")
  pushResult p .sub leftNum rightNum

def handleMul (p : Platform) : ConnM Pc := do
  let (leftNum, rightNum) ← operands (bytes "the number of the stack is too few to mul")
  pushResult p .mul leftNum rightNum

def handleDiv (p : Platform) : ConnM Pc := do
  let (leftNum, rightNum) ← operands (bytes "the number of the stack is too few to div")
  if rightNum = 0 then
    throw (.operation (bytes "the division is 0"))
  else
    pushResult p .div leftNum rightNum

def handleBegin : ConnM Pc := do
  if (← get).inTransaction then
    throw (.failedTransaction (bytes "Nested transaction not allowed"))
  else
    modify fun c => { c with inTransaction := true }
    respondOk
    return .reading

def handleCommit : ConnM Pc := do
  if !(← get).inTransaction then
    throw (.operation (bytes "Not in a transaction"))
  else
    return .ending .commit (← get).lockedTables

/-! ### What follows a call into the shared state

The other parts of the handlers, by the call they come back from: a guard that is gone,
`find_table`, `trylock`, and the call on the table itself.
-/

/-- The end of `handle_create` and of an autocommit GET or SET, once the guard is gone. -/
def afterGuard (result : Except Exn Unit) : ConnM Pc := do
  ofExcept result
  respondOk
  return .reading

/-- `handle_get` and `handle_set` from the return of `find_table` to the next call. -/
def afterFind (a : Access) (found : Option TablePtr) : ConnM Pc := do
  match found with
  | none => throw (.operation (bytes "The table that you want to find is not exist"))
  | some t =>
      if (← get).inTransaction then
        if t ∉ (← get).lockedTables then
          return .trylock a t
        else
          return .call a t
      else
        return .guardLock a t

/-- `trylock` in a transaction; `acquired` is what it returned. -/
def afterTrylock (a : Access) (t : TablePtr) (acquired : Bool) : ConnM Pc := do
  if !acquired then
    throw (.failedTransaction (bytes "Could not acquire lock on table " ++ a.table))
  else
    modify fun c => { c with lockedTables := insert t c.lockedTables }
    return .call a t

/-- A transaction's call on its table, with what follows it. -/
def afterCall (a : Access) (table : Table) : ConnM Pc :=
  match a with
  | .get _ key => do
      let value ← ofExcept (table.get key)
      push value
      respondOk
      return .reading
  | .set _ _ _ => do
      respondOk
      return .reading

/-- The body of the autocommit GET, under the guard. -/
def guardedGet (table : Table) (key : Str) : ConnM Unit := do
  let value ← ofExcept (table.get key)
  push value

/-! ### The loop of `chat_with_client`

One iteration reads a line and starts its handler; the clauses that catch what comes out of it
write the answer. `Conn.step` is the loop cut at every call on shared state, so that other
connections can move in between.
-/

/-- Where a connection goes when the loop ends: the destructor, if there is anything to undo. -/
def Conn.leave (c : Conn) : Pc :=
  if c.inTransaction then .ending .destroy c.lockedTables else .closed

/-- The login check and the `switch`. -/
def handleRequest (p : Platform) (req : Message) : ConnM Pc := do
  if req.messageType ≠ .login ∧ req.messageType ≠ .bye ∧ !(← get).loggedIn then
    throw (.operation (bytes "User has not logged in"))
  else
    match req.messageType with
    | .login => handleLogin
    | .create => handleCreate req
    | .get => handleGet req
    | .set => handleSet req
    | .push => handlePush req
    | .pop => handlePop
    | .top => handleTop
    | .add => handleAdd p
    | .sub => handleSub p
    | .mul => handleMul p
    | .div => handleDiv p
    | .begin => handleBegin
    | .commit => handleCommit
    | .bye =>
        handleBye
        return (← get).leave
    | _ => throw (.invalidMessage (bytes "Unknown or invalid command received"))

namespace Conn

/--
The response a `catch` clause writes before going on at `next`.  An exception of
its own `encode` is caught by nobody.
-/
def respondWith (c : Conn) (resp : Message) (next : Pc) : Conn :=
  match encode resp with
  | .ok encoded => { c with sent := c.sent ++ [encoded], pc := next }
  | .error _ => { c with pc := .terminated }

/-- The `catch` clauses of `chat_with_client`. -/
def catchClause (c : Conn) : Exn → Conn
  | .operation what => c.respondWith { messageType := .failed, args := [what] } .reading
  | .failedTransaction what => { c with pc := .ending (.abort what) c.lockedTables }
  | .invalidMessage what => c.respondWith { messageType := .error, args := [what] } c.leave
  | _ => { c with pc := .terminated }

/-- The `try` block around a part of a handler. -/
def attempt (c : Conn) (m : ConnM Pc) : Conn :=
  match m.exec c with
  | (.ok pc, c) => { c with pc := pc }
  | (.error e, c) => c.catchClause e

/-- One line read into `buf`: decode it and handle the request. -/
def chatWithClient (p : Platform) (c : Conn) (line : Str) : Conn :=
  attempt { c with received := c.received ++ [line] } do
    let req ← ofExcept (decode (cstr line))
    handleRequest p req

end Conn

/-- What one iteration of a loop over `locked_tables` calls before `unlock`. -/
def Ending.effect (e : Ending) (t : TablePtr) : Effect :=
  match e with
  | .commit => .commitChanges t
  | .abort _ => .rollbackChanges t
  | .destroy => .rollbackChanges t

namespace Conn

/-- What follows each of these loops. -/
def finish (c : Conn) : Ending → Conn
  | .commit =>
      { c with inTransaction := false, lockedTables := ∅ }.attempt do
        respondOk
        return .reading
  | .abort what =>
      { c with inTransaction := false, lockedTables := ∅ }.respondWith
        { messageType := .failed, args := [what] } .reading
  | .destroy => { c with pc := .closed }

/--
The next step of a connection whose point determines it: the call it makes, and the
connection after it.  `none` where it has no such step, in particular at the
constructor of a guard whose mutex is taken.
-/
def go (sv : Server) (c : Conn) : Option (Effect × Conn) :=
  match c.pc with
  | .createLock name =>
      if sv.tableLock = none then some (.lockCatalogue, { c with pc := .createBody name }) else none
  | .createBody name =>
      match sv.findTable name with
      | some _ =>
          let e : Exn := .operation (bytes "Table with that name already exists")
          some (.none, { c with pc := .createUnlock (.error e) })
      | none => some (.newTable name, { c with pc := .createUnlock (.ok ()) })
  | .createUnlock result => some (.unlockCatalogue, c.attempt (afterGuard result))
  | .findLock a =>
      if sv.tableLock = none then some (.lockCatalogue, { c with pc := .findBody a }) else none
  | .findBody a => some (.none, { c with pc := .findUnlock a (sv.findTable a.table) })
  | .findUnlock a found => some (.unlockCatalogue, c.attempt (afterFind a found))
  | .trylock a t =>
      if (sv.tables t).tableMutex = none then some (.lock t, c.attempt (afterTrylock a t true))
      else some (.none, c.attempt (afterTrylock a t false))
  | .call a t =>
      let effect : Effect :=
        match a with
        | .get _ key => .get t key
        | .set _ key value => .set t key value
      some (effect, c.attempt (afterCall a (sv.tables t)))
  | .guardLock a t =>
      if (sv.tables t).tableMutex = none then some (.lock t, { c with pc := .guardCall a t })
      else none
  | .guardCall (.get _ key) t =>
      let (result, c) := (guardedGet (sv.tables t) key).exec c
      some (.get t key, { c with pc := .guardUnlock t result })
  | .guardCall (.set _ key value) t => some (.set t key value, { c with pc := .guardCommit t })
  | .guardCommit t => some (.commitChanges t, { c with pc := .guardUnlock t (.ok ()) })
  | .guardUnlock t result => some (.unlock t, c.attempt (afterGuard result))
  | .ending e rest => if rest = ∅ then some (.none, c.finish e) else none
  | .endingUnlock e t rest => some (.unlock t, { c with pc := .ending e rest })
  | .reading | .closed | .terminated => none

end Conn

/-- What a connection does next, where that is not settled by the server. -/
inductive Choice
  /-- `rio_readlineb` stores these bytes -/
  | recv (line : Str)
  /-- `rio_readlineb` returns 0 or an error -/
  | eof
  /-- the only step there is -/
  | go
  /-- the loop over `locked_tables` comes to this table -/
  | visit (t : TablePtr)
  deriving DecidableEq

/-- One step of a connection. -/
def Conn.step (p : Platform) (sv : Server) (c : Conn) : Choice → Option (Effect × Conn)
  | .recv line =>
      if c.pc = .reading ∧ 0 < line.length ∧ line.length ≤ maxEncodedLen - 1 then
        some (.none, c.chatWithClient p line)
      else none
  | .eof => if c.pc = .reading then some (.none, { c with pc := c.leave }) else none
  | .go => c.go sv
  | .visit t =>
      match c.pc with
      | .ending e rest =>
          if t ∈ rest then
            some (e.effect t, { c with pc := .endingUnlock e t (rest.erase t) })
          else none
      | _ => none

end KvServer
