/-
Programs of assignments and the requests that carry them out.

An assignment stores the value of an expression under a key; a program is carried out assignment
by assignment.  Its requests leave nothing on the stack: each SET takes what the postorder of its
expression has put there.
-/
import KvServer.Spec.Expr

namespace KvServer

/-- What is stored in the tables, by name and key. -/
abbrev Data := Str → Str → Option Str

def Data.put (d : Data) (table key value : Str) : Data :=
  Function.update d table (Function.update (d table) key (some value))

structure Assign where
  table : Str
  key : Str
  value : Expr

def Assign.requests (a : Assign) : List Message :=
  a.value.postorder ++ [{ messageType := .set, args := [a.table, a.key] }]

/-- The table an assignment writes to, and those it reads. -/
def Assign.tables (a : Assign) : Set Str :=
  insert a.table (Prod.fst '' a.value.cells)

namespace Program

/-- The tables of some programs. -/
def tables (progs : List (List Assign)) : Set Str :=
  { name | ∃ prog ∈ progs, ∃ a ∈ prog, name ∈ a.tables }

def requests (prog : List Assign) : List Message := prog.flatMap Assign.requests

/-- The requests of a transaction, after its BEGIN. -/
def transaction (prog : List Assign) : List Message :=
  requests prog ++ [{ messageType := .commit }]

/-- What a program makes of the data, where each of its expressions has a value. -/
inductive Executes : Data → List Assign → Data → Prop
  | nil {d : Data} : Executes d [] d
  | cons {d d' : Data} {a : Assign} {rest : List Assign} {v : Int} (he : a.value.Evaluates d v)
      (hrest : Executes (d.put a.table a.key (a.value.spelling d v)) rest d') :
      Executes d (a :: rest) d'

end Program

end KvServer
