/-
What requests mean to a client that nobody gets in the way of.

A `Solo` is one client's session with the tables as it sees them, by name and without
locks, program points or other clients; `Solo.line` is all that becomes of one line of
input, from its receipt to its answer.  The server proper takes many steps over it, among
those of other connections; `Proofs/Solo` says when they come to the same.
-/
import Mathlib.Logic.Function.Basic
import KvServer.Proofs.Handlers

namespace KvServer

/-! ### The tables as one client sees them

Tables go by their names here, and what the client has written in its transaction is kept
beside what is committed.
-/

@[ext] structure Store where
  found : Str → Bool
  committed : Str → Str → Option Str
  /-- what the client has written in its transaction -/
  pending : Str → Str → Option Str

namespace Store

def visible (st : Store) (name key : Str) : Option Str :=
  (st.pending name key).or (st.committed name key)

def create (st : Store) (name : Str) : Store :=
  { st with found := Function.update st.found name true }

def write (st : Store) (name key value : Str) : Store :=
  { st with
    pending := Function.update st.pending name (Function.update (st.pending name) key (some value)) }

def commit (st : Store) : Store :=
  { st with committed := st.visible, pending := fun _ _ => none }

def drop (st : Store) : Store :=
  { st with pending := fun _ _ => none }

end Store

/-! ### Sessions

What a handler leaves of a session in each of the ways it can end.
-/

inductive Status
  | live
  /-- the connection has been given up -/
  | closed
  /-- an exception got away, or the arithmetic trapped -/
  | crashed
  deriving DecidableEq

structure Solo where
  stack : List Str := []
  loggedIn : Bool := false
  inTransaction : Bool := false
  status : Status := .live
  sent : List Str := []
  store : Store

namespace Solo

def crash (σ : Solo) : Solo :=
  { σ with status := .crashed }

/-- A response, or the exception of its `encode` that nobody catches. -/
def respond (σ : Solo) (resp : Message) : Solo :=
  match encode resp with
  | .ok line => { σ with sent := σ.sent ++ [line] }
  | .error _ => σ.crash

def ok (σ : Solo) : Solo :=
  { σ with sent := σ.sent ++ [okLine] }

def failed (σ : Solo) (what : Str) : Solo :=
  σ.respond { messageType := .failed, args := [what] }

/-- The end of the session: an open transaction comes to nothing. -/
def leave (σ : Solo) : Solo :=
  { σ with status := .closed, store := if σ.inTransaction then σ.store.drop else σ.store }

def abort (σ : Solo) (what : Str) : Solo :=
  { σ with inTransaction := false, store := σ.store.drop }.failed what

/-- ERROR, and the end of the session. -/
def refuse (σ : Solo) (what : Str) : Solo :=
  match encode { messageType := .error, args := [what] } with
  | .ok line => { σ with sent := σ.sent ++ [line] }.leave
  | .error _ => σ.crash

/-- What an exception comes to. -/
def raise (σ : Solo) : Exn → Solo
  | .operation what => σ.failed what
  | .failedTransaction what => σ.abort what
  | .invalidMessage what => σ.refuse what
  | _ => σ.crash

/-- OK, or an exception. -/
def outcome (σ : Solo) : Except Exn Unit → Solo
  | .ok _ => σ.ok
  | .error e => σ.raise e

/-! ### Requests

Each request is one function from session to session; what the server does in many steps under
locks is not seen here.
-/

def create (σ : Solo) (name : Str) : Solo :=
  if σ.store.found name then σ.failed (bytes "Table with that name already exists")
  else { σ with store := σ.store.create name }.ok

def get (σ : Solo) (name key : Str) : Solo :=
  match σ.store.visible name key with
  | some value => { σ with stack := value :: σ.stack }.ok
  | none => σ.failed (bytes "The key is not in the map")

/-- In a transaction the value is kept back until COMMIT. -/
def set (σ : Solo) (name key value : Str) : Solo :=
  let store := σ.store.write name key value
  { σ with store := if σ.inTransaction then store else store.commit }.ok

/-- A GET or SET on a table that exists. -/
def reach (σ : Solo) : Access → Solo
  | .get name key => σ.get name key
  | .set name key value => σ.set name key value

def access (σ : Solo) (a : Access) : Solo :=
  if σ.store.found a.table then σ.reach a
  else σ.failed (bytes "The table that you want to find is not exist")

/-- SET takes its value from the stack, before it looks for the table. -/
def takeSet (σ : Solo) (name key : Str) : Solo :=
  match σ.stack with
  | [] => σ.failed (bytes "The stack is empty!")
  | value :: rest => { σ with stack := rest }.access (.set name key value)

def pop (σ : Solo) : Solo :=
  match σ.stack with
  | [] => σ.failed (bytes "fail to pop: The stack is empty")
  | _ :: rest => { σ with stack := rest }.ok

def top (σ : Solo) : Solo :=
  match σ.stack with
  | [] => σ.failed (bytes "fail to get top: The stack is empty")
  | value :: _ =>
      match encode { messageType := .data, args := [value] } with
      | .ok line => { σ with sent := σ.sent ++ [line] }
      | .error e => σ.raise e

/-- The result of an operation on two operands, as the handlers compute it. -/
def result (p : Platform) (op : ArithOp) (left right : Str) : Except Exn Int := do
  let l ← operandValue left
  let r ← operandValue right
  if op = .div ∧ r = 0 then throw (.operation (bytes "the division is 0")) else arith p op l r

/-- The operands are gone whatever comes of them. -/
def arithmetic (p : Platform) (op : ArithOp) (σ : Solo) : Solo :=
  match σ.stack with
  | right :: left :: rest =>
      match result p op left right with
      | .ok v => { σ with stack := toString v :: rest }.ok
      | .error e => { σ with stack := rest }.raise e
  | _ => σ.failed (tooFew op)

def login (σ : Solo) : Solo :=
  if σ.loggedIn then σ.failed (bytes "User already logged in") else { σ with loggedIn := true }.ok

def begin (σ : Solo) : Solo :=
  if σ.inTransaction then σ.abort (bytes "Nested transaction not allowed")
  else { σ with inTransaction := true }.ok

def commit (σ : Solo) : Solo :=
  if σ.inTransaction then { σ with inTransaction := false, store := σ.store.commit }.ok
  else σ.failed (bytes "Not in a transaction")

/-- A request, by its type. -/
def request (p : Platform) (m : Message) (σ : Solo) : Solo :=
  if m.messageType ≠ .login ∧ m.messageType ≠ .bye ∧ !σ.loggedIn then
    σ.failed (bytes "User has not logged in")
  else
    match m.messageType with
    | .login => σ.login
    | .create => σ.create m.getTable
    | .get => σ.access (.get m.getTable m.getKey)
    | .set => σ.takeSet m.getTable m.getKey
    | .push => { σ with stack := m.getValue :: σ.stack }.ok
    | .pop => σ.pop
    | .top => σ.top
    | .add => σ.arithmetic p .add
    | .sub => σ.arithmetic p .sub
    | .mul => σ.arithmetic p .mul
    | .div => σ.arithmetic p .div
    | .begin => σ.begin
    | .commit => σ.commit
    | .bye => σ.ok.leave
    | _ => σ.refuse (bytes "Unknown or invalid command received")

/-- A line of input. -/
def line (p : Platform) (σ : Solo) (line : Str) : Solo :=
  match decode (cstr line) with
  | .ok m => σ.request p m
  | .error e => σ.raise e

/-- End of input. -/
def hangUp (σ : Solo) (hung : Bool) : Solo :=
  if hung then σ.leave else σ

/-- Lines of input, as long as the session is live. -/
def run (p : Platform) : Solo → List Str → Solo
  | σ, [] => σ
  | σ, line :: rest => if σ.status = .live then run p (σ.line p line) rest else σ

section Run

variable {p : Platform} {σ : Solo}

theorem run_gone (h : σ.status ≠ .live) (lines : List Str) : σ.run p lines = σ := by
  cases lines with
  | nil => rfl
  | cons line rest => exact if_neg h

theorem run_cons (h : σ.status = .live) (line : Str) (rest : List Str) :
    σ.run p (line :: rest) = (σ.line p line).run p rest :=
  if_pos h

theorem run_append (lines more : List Str) :
    σ.run p (lines ++ more) = (σ.run p lines).run p more := by
  induction lines generalizing σ with
  | nil => rfl
  | cons line rest ih =>
      by_cases h : σ.status = .live
      · rw [List.cons_append, run_cons h, run_cons h, ih]
      · rw [run_gone h, run_gone h, run_gone h]

/-- **A session that is live was never over.** -/
theorem run_live (lines more : List Str) (h : (σ.run p (lines ++ more)).status = .live) :
    (σ.run p lines).status = .live := by
  by_contra hgone
  rw [run_append, run_gone hgone] at h
  exact hgone h

end Run

end Solo

end KvServer
