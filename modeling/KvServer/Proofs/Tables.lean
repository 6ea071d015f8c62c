/-
What the operations of a table do, key by key.

`visible` is what `get` looks up: the pending map first, the committed map behind it.
Two maps with the same lookups are the same `std::map`, so everything later is stated
with lookups.  Together the operations are those of a transactional map, over any list
of calls: `table_refines`.
-/
import Mathlib.Data.Option.Basic
import KvServer.Lib.Transactional
import KvServer.Model.Table

namespace KvServer

/-- Inserting the pairs of a map one by one overrides what was there. -/
theorem lookup_foldl_insert (l : List (Sigma fun _ : Str => Str)) (hl : l.NodupKeys) (m : KeyMap)
    (key : Str) :
    (l.foldl (fun m s => m.insert s.1 s.2) m).lookup key
      = (l.dlookup key).or (m.lookup key) := by
  induction l generalizing m with
  | nil => rfl
  | cons pair l ih =>
      obtain ⟨k, v⟩ := pair
      obtain ⟨hk, hl⟩ := List.nodupKeys_cons.mp hl
      rw [List.foldl_cons, ih hl]
      by_cases hkey : key = k
      · subst hkey
        rw [List.dlookup_cons_eq, List.dlookup_eq_none.mpr hk, AList.lookup_insert]
        rfl
      · have hcons : (⟨k, v⟩ :: l : List (Sigma fun _ : Str => Str)).dlookup key = l.dlookup key :=
          List.dlookup_cons_ne l ⟨k, v⟩ hkey
        rw [hcons, AList.lookup_insert_ne hkey]

namespace Table

/-- What a reader under the table's mutex sees. -/
def visible (t : Table) (key : Str) : Option Str :=
  (t.keyValueTemp.lookup key).or (t.keyValue.lookup key)

theorem get_eq_ok {t : Table} {key value : Str} :
    t.get key = .ok value ↔ t.visible key = some value := by
  unfold get visible
  cases t.keyValueTemp.lookup key with
  | some v => simp [pure, Except.pure]
  | none =>
      cases t.keyValue.lookup key with
      | some v => simp [pure, Except.pure]
      | none => simp [throw, throwThe, MonadExceptOf.throw]

theorem get_eq_error {t : Table} {key : Str} {e : Exn} (h : t.get key = .error e) :
    t.visible key = none := by
  cases hv : t.visible key with
  | none => rfl
  | some value =>
      rw [get_eq_ok.mpr hv] at h
      cases h

/-- There is one way in which `get` fails. -/
theorem get_error_text {t : Table} {key : Str} {e : Exn} (h : t.get key = .error e) :
    e = .operation (bytes "The key is not in the map") := by
  unfold Table.get at h
  split at h
  · cases h
  · split at h
    · cases h
    · exact (Except.error.inj h).symm

theorem visible_of_clean {t : Table} (h : t.keyValueTemp = ∅) (key : Str) :
    t.visible key = t.keyValue.lookup key := by
  simp [visible, h]

theorem visible_set (t : Table) (key value k : Str) :
    (t.set key value).visible k = if k = key then some value else t.visible k := by
  unfold visible set
  by_cases hk : k = key
  · subst hk
    simp
  · simp [hk, AList.lookup_insert_ne hk]

/-- `commit_changes` makes what was visible the committed map. -/
theorem commitChanges_lookup (t : Table) (key : Str) :
    t.commitChanges.keyValue.lookup key = t.visible key := by
  unfold commitChanges AList.foldl
  exact lookup_foldl_insert _ t.keyValueTemp.nodupKeys _ key

@[simp] theorem commitChanges_pending (t : Table) : t.commitChanges.keyValueTemp = ∅ := rfl

@[simp] theorem rollbackChanges_pending (t : Table) : t.rollbackChanges.keyValueTemp = ∅ := rfl

@[simp] theorem rollbackChanges_keyValue (t : Table) :
    t.rollbackChanges.keyValue = t.keyValue := rfl

theorem commitChanges_visible (t : Table) (key : Str) :
    t.commitChanges.visible key = t.visible key := by
  rw [visible_of_clean (commitChanges_pending t), commitChanges_lookup]

theorem hasKey_eq (t : Table) (key : Str) : t.hasKey key = (t.visible key).isSome := by
  rw [hasKey, visible, Option.isSome_or]

/-- `has_key` says whether `get` will return. -/
theorem hasKey_iff {t : Table} {key : Str} :
    t.hasKey key = true ↔ ∃ value, t.get key = .ok value := by
  simp only [hasKey_eq, Option.isSome_iff_exists, get_eq_ok]

/-! ### A table is a transactional map

What the abstract map commits at once, the table moves over key by key; lookups do not tell
the difference.
-/

/-- What `get` throws for a key that is in neither map. -/
def keyAbsent : Exn := .operation (bytes "The key is not in the map")

theorem get_eq (t : Table) (key : Str) :
    t.get key = (t.visible key).elim (.error keyAbsent) .ok := by
  unfold get visible
  cases t.keyValueTemp.lookup key with
  | some value => rfl
  | none => cases t.keyValue.lookup key <;> rfl

/-- The public operations of a table that are not about its mutex. -/
def call (t : Table) : Transactional.Call Str Str → Table × Transactional.Answer Exn Str
  | .set key value => (t.set key value, .done)
  | .get key => (t, .got (t.get key))
  | .hasKey key => (t, .has (t.hasKey key))
  | .commit => (t.commitChanges, .done)
  | .rollback => (t.rollbackChanges, .done)

/-- The committed map is the first map of the table, and what is visible the second one over it. -/
structure Represents (t : Table) (m : Transactional.Maps Str Str) : Prop where
  committed : ∀ key, t.keyValue.lookup key = m.committed key
  visible : ∀ key, t.visible key = m.visible key

theorem represents_empty (name : Str) : Represents { name := name } .empty :=
  ⟨fun _ => rfl, fun _ => rfl⟩

theorem Represents.call {t : Table} {m : Transactional.Maps Str Str} (h : Represents t m)
    (c : Transactional.Call Str Str) :
    (t.call c).2 = (m.call keyAbsent c).2 ∧ Represents (t.call c).1 (m.call keyAbsent c).1 := by
  cases c with
  | set key value =>
      refine ⟨rfl, h.committed, fun k => ?_⟩
      show (t.set key value).visible k = Function.update m.visible key (some value) k
      rw [visible_set, Function.update_apply, h.visible k]
  | get key =>
      refine ⟨?_, h⟩
      show Transactional.Answer.got (t.get key) = .got ((m.visible key).elim (.error keyAbsent) .ok)
      rw [get_eq, h.visible key]
  | hasKey key =>
      refine ⟨?_, h⟩
      show Transactional.Answer.has (t.hasKey key) = .has (m.visible key).isSome
      rw [hasKey_eq, h.visible key]
  | commit =>
      -- both maps become what was visible
      refine ⟨rfl, fun k => ?_, fun k => ?_⟩
      · exact (t.commitChanges_lookup k).trans (h.visible k)
      · exact (t.commitChanges_visible k).trans (h.visible k)
  | rollback =>
      refine ⟨rfl, h.committed, fun k => ?_⟩
      show t.rollbackChanges.visible k = m.committed k
      rw [visible_of_clean t.rollbackChanges_pending, rollbackChanges_keyValue]
      exact h.committed k

/-- **A table refines the transactional map.**  Whatever is called on a new table, the answers are
those of the map; afterwards `key_value` is the committed map, `key_value` overridden by
`key_value_temp` the visible one, and `has_key` says of every key whether `get` returns. -/
theorem table_refines (name : Str) (calls : List (Transactional.Call Str Str)) :
    let (t, answers) := Object.run Table.call { name := name } calls
    let (m, expected) := Object.run (Transactional.Maps.call keyAbsent) .empty calls
    answers = expected ∧
      (∀ key, t.keyValue.lookup key = m.committed key) ∧
      (∀ key, (t.keyValueTemp.lookup key).or (t.keyValue.lookup key) = m.visible key) ∧
      ∀ key, t.hasKey key = true ↔ ∃ value, t.get key = .ok value := by
  have hcall {t : Table} {m : Transactional.Maps Str Str} (c : Transactional.Call Str Str)
      (h : Represents t m) := h.call c
  obtain ⟨hanswers, hrep⟩ := Object.refines hcall (represents_empty name) calls
  exact ⟨hanswers, hrep.committed, hrep.visible, fun _ => hasKey_iff⟩

end Table

end KvServer
