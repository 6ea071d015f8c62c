/-
The state all connections share: `server.cpp`.

Tables are never deleted while the server runs, so a `Table *` is modelled by the
number of tables that existed before it: `new Table` hands out the next one.  What
a connection does to the shared state in one step is an `Effect`, named after the
call that does it.
-/
import Mathlib.Logic.Function.Basic
import KvServer.Model.Table

namespace KvServer

/-- A `Table *`. -/
abbrev TablePtr := Nat

structure Server where
  setOfTable : AList fun _ : Str => TablePtr
  tables : TablePtr → Table
  /-- How many tables have been allocated. -/
  allocated : Nat
  /-- Who has `table_lock`, if anyone. -/
  tableLock : Option ConnId := none

/-- One call of a connection on a mutex, a table or the catalogue. -/
inductive Effect
  | none
  | lockCatalogue
  | unlockCatalogue
  | newTable (name : Str)
  | lock (t : TablePtr)
  | unlock (t : TablePtr)
  | get (t : TablePtr) (key : Str)
  | set (t : TablePtr) (key value : Str)
  | commitChanges (t : TablePtr)
  | rollbackChanges (t : TablePtr)
  deriving DecidableEq

namespace Server

/-- A server that has just been constructed. -/
def initial : Server :=
  { setOfTable := ∅, tables := fun _ => { name := [] }, allocated := 0 }

/-- `f` applied to the table behind a pointer. -/
def modifyTable (sv : Server) (t : TablePtr) (f : Table → Table) : Server :=
  { sv with tables := Function.update sv.tables t (f (sv.tables t)) }

/-- `set_of_table.find(name)`. -/
def findTable (sv : Server) (name : Str) : Option TablePtr :=
  sv.setOfTable.lookup name

/-- `set_of_table[name] = new Table(name)`. -/
def newTable (sv : Server) (name : Str) : Server :=
  { sv with
    setOfTable := sv.setOfTable.insert name sv.allocated
    tables := Function.update sv.tables sv.allocated { name := name }
    allocated := sv.allocated + 1 }

/-- The shared state after connection `c` has made a call. -/
def apply (sv : Server) (c : ConnId) : Effect → Server
  | .none => sv
  | .lockCatalogue => { sv with tableLock := some c }
  | .unlockCatalogue => { sv with tableLock := none }
  | .newTable name => sv.newTable name
  | .lock t => sv.modifyTable t fun table => { table with tableMutex := some c }
  | .unlock t => sv.modifyTable t fun table => { table with tableMutex := none }
  | .get _ _ => sv
  | .set t key value => sv.modifyTable t fun table => table.set key value
  | .commitChanges t => sv.modifyTable t Table.commitChanges
  | .rollbackChanges t => sv.modifyTable t Table.rollbackChanges

end Server

end KvServer
