/-
A table and its two maps: `table.h` and `table.cpp`.

`key_value` holds what is committed and `key_value_temp` what the holder of the
table's mutex has written since.  Reads look in the second map first.
-/
import Mathlib.Data.List.AList
import KvServer.Model.Bytes

namespace KvServer

/-- The number a connection is known by, here and as the holder of a mutex. -/
abbrev ConnId := Nat

/-- A `std::map<std::string, std::string>`. -/
abbrev KeyMap := AList fun _ : Str => Str

structure Table where
  name : Str
  keyValue : KeyMap := ∅
  keyValueTemp : KeyMap := ∅
  /-- Who has `table_mutex`, if anyone. -/
  tableMutex : Option ConnId := none

namespace Table

def set (t : Table) (key value : Str) : Table :=
  { t with keyValueTemp := t.keyValueTemp.insert key value }

def get (t : Table) (key : Str) : Except Exn Str :=
  match t.keyValueTemp.lookup key with
  | some value => pure value
  | none =>
      match t.keyValue.lookup key with
      | some value => pure value
      | none => throw (.operation (bytes "The key is not in the map"))

def hasKey (t : Table) (key : Str) : Bool :=
  (t.keyValueTemp.lookup key).isSome || (t.keyValue.lookup key).isSome

/-- The loop copies the pending pairs one by one, then empties the pending map. -/
def commitChanges (t : Table) : Table :=
  { t with
    keyValue := t.keyValueTemp.foldl (fun m key value => m.insert key value) t.keyValue
    keyValueTemp := ∅ }

def rollbackChanges (t : Table) : Table :=
  { t with keyValueTemp := ∅ }

end Table

end KvServer
