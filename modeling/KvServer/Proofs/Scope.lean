/-
A connection that nobody gets in the way of.

A client is concerned with some locations, its `scope`, and `Server.store` is what it sees
there.  As long as the other connections leave that as it is and no `trylock` fails, each
step of the connection keeps what its request will come to, so that a whole run comes to
the `Solo.line`s of what has been read.  Elsewhere the others may do what they like.
-/
import KvServer.Proofs.Locking
import KvServer.Proofs.Solo

namespace KvServer

/-! ### The tables within a scope

The store of a connection is read off the server: what is committed, and as pending only what
the connection itself has written.
-/

/-- The locations a client is concerned with. -/
abbrev Scope := Set (Str × Str)

def Scope.Names (scope : Scope) : Set Str := { name | ∃ key, (name, key) ∈ scope }

/-- What connection `i` has written to a table and not committed. -/
def Table.written (table : Table) (i : ConnId) (key : Str) : Option Str :=
  if table.tableMutex = some i then table.keyValueTemp.lookup key else none

open Classical in
/-- The tables as connection `i` sees them, within a scope. -/
noncomputable def Server.store (sv : Server) (scope : Scope) (i : ConnId) : Store where
  found name := decide (name ∈ scope.Names ∧ sv.findTable name ≠ none)
  committed name key :=
    if (name, key) ∈ scope then
      (sv.findTable name).bind fun t => (sv.tables t).keyValue.lookup key
    else none
  pending name key :=
    if (name, key) ∈ scope then (sv.findTable name).bind fun t => (sv.tables t).written i key
    else none

/-- What a GET by connection `i` would find. -/
def Server.sees (sv : Server) (i : ConnId) (name key : Str) : Option Str :=
  (sv.findTable name).bind fun t =>
    ((sv.tables t).written i key).or ((sv.tables t).keyValue.lookup key)

/-- A table is in the catalogue under one name. -/
def Server.Distinct (sv : Server) : Prop :=
  ∀ name other t, sv.findTable name = some t → sv.findTable other = some t → name = other

section Store

variable {sv sv' : Server} {scope : Scope} {i : ConnId} {t : TablePtr} {name key value : Str}

theorem store_found (hname : name ∈ scope.Names) :
    (sv.store scope i).found name = (sv.findTable name).isSome := by
  cases h : sv.findTable name <;> simp [Server.store, hname, h]

theorem store_committed (hloc : (name, key) ∈ scope) (hname : sv.findTable name = some t) :
    (sv.store scope i).committed name key = (sv.tables t).keyValue.lookup key := by
  simp [Server.store, hloc, hname]

theorem store_pending (hloc : (name, key) ∈ scope) (hname : sv.findTable name = some t) :
    (sv.store scope i).pending name key = (sv.tables t).written i key := by
  simp [Server.store, hloc, hname]

theorem store_visible (hloc : (name, key) ∈ scope) (hname : sv.findTable name = some t)
    (hmutex : (sv.tables t).tableMutex = some i) :
    (sv.store scope i).visible name key = (sv.tables t).visible key := by
  rw [Store.visible, store_pending hloc hname, store_committed hloc hname, Table.written, if_pos hmutex]
  rfl

theorem store_sees (hloc : (name, key) ∈ scope) :
    (sv.store scope i).visible name key = sv.sees i name key := by
  cases hname : sv.findTable name with
  | none => simp [Store.visible, Server.store, Server.sees, hname]
  | some t =>
      rw [Store.visible, store_pending hloc hname, store_committed hloc hname, Server.sees, hname]
      rfl

/-- Servers whose tables are the same to connection `i`, key by key. -/
theorem store_congr (hfound : ∀ name ∈ scope.Names, sv'.findTable name = sv.findTable name)
    (htables : ∀ name key t, (name, key) ∈ scope → sv.findTable name = some t →
      (sv'.tables t).keyValue.lookup key = (sv.tables t).keyValue.lookup key ∧
        (sv'.tables t).written i key = (sv.tables t).written i key) :
    sv'.store scope i = sv.store scope i := by
  have hbind : ∀ (f g : TablePtr → Option Str) name key, (name, key) ∈ scope →
      (∀ t, sv.findTable name = some t → f t = g t) →
      (sv'.findTable name).bind f = (sv.findTable name).bind g := by
    intro f g name key hloc hfg
    rw [hfound name ⟨key, hloc⟩]
    cases h : sv.findTable name with
    | none => rfl
    | some t => exact hfg t h
  unfold Server.store
  congr 1
  · funext name
    by_cases hname : name ∈ scope.Names
    · rw [hfound name hname]
    · simp [hname]
  · funext name key
    by_cases hloc : (name, key) ∈ scope
    · rw [if_pos hloc, if_pos hloc]
      exact hbind _ _ name key hloc fun t ht => (htables name key t hloc ht).1
    · rw [if_neg hloc, if_neg hloc]
  · funext name key
    by_cases hloc : (name, key) ∈ scope
    · rw [if_pos hloc, if_pos hloc]
      exact hbind _ _ name key hloc fun t ht => (htables name key t hloc ht).2
    · rw [if_neg hloc, if_neg hloc]

/-- A client with nothing pending. -/
theorem store_idle (h : ∀ name key t, (name, key) ∈ scope → sv.findTable name = some t →
    (sv.tables t).written i key = none) :
    (sv.store scope i).commit = sv.store scope i ∧ (sv.store scope i).drop = sv.store scope i := by
  have hpending : (sv.store scope i).pending = fun _ _ => none := by
    funext name key
    by_cases hloc : (name, key) ∈ scope
    · cases hname : sv.findTable name with
      | none => simp [Server.store, hname]
      | some t => rw [store_pending hloc hname, h name key t hloc hname]
    · simp [Server.store, hloc]
  have hvisible : (sv.store scope i).visible = (sv.store scope i).committed := by
    funext name key
    simp [Store.visible, hpending]
  constructor
  · unfold Store.commit
    rw [hvisible, ← hpending]
  · unfold Store.drop
    rw [← hpending]

/-- Who has a clean table does not matter. -/
theorem store_mutex (hclean : ∀ key, (sv.tables t).keyValueTemp.lookup key = none)
    (owner : Option ConnId) :
    (sv.modifyTable t fun table => { table with tableMutex := owner }).store scope i
      = sv.store scope i := by
  refine store_congr (fun _ _ => rfl) fun name key u _ _ => ?_
  by_cases hu : u = t
  · subst hu
    simp [Server.modifyTable, Table.written, hclean]
  · simp [Server.modifyTable, hu]

theorem store_create (hnew : sv.findTable name = none)
    (hbound : ∀ other t, sv.findTable other = some t → t < sv.allocated)
    (hname : name ∈ scope.Names) :
    (sv.newTable name).store scope i = (sv.store scope i).create name := by
  have hother : ∀ other, other ≠ name → (sv.newTable name).findTable other = sv.findTable other :=
    fun other hne => AList.lookup_insert_ne hne
  have hself : (sv.newTable name).findTable name = some sv.allocated := AList.lookup_insert _
  have hold : ∀ other t, sv.findTable other = some t →
      (sv.newTable name).tables t = sv.tables t := fun other t ht =>
    Function.update_of_ne (Nat.ne_of_lt (hbound other t ht)) ..
  have hbind : ∀ f : Table → Option Str, f { name := name } = none → ∀ other,
      ((sv.newTable name).findTable other).bind (fun t => f ((sv.newTable name).tables t))
        = (sv.findTable other).bind fun t => f (sv.tables t) := by
    intro f hf other
    by_cases hne : other = name
    · subst hne
      rw [hself, hnew]
      simpa [Server.newTable] using hf
    · rw [hother other hne]
      cases h : sv.findTable other with
      | none => rfl
      | some t => simp [hold other t h]
  unfold Server.store Store.create
  congr 1
  · funext other
    by_cases hne : other = name
    · subst hne
      simp [hself, hname]
    · rw [hother other hne, Function.update_of_ne hne]
  · funext other key
    rw [hbind (fun table => table.keyValue.lookup key) rfl other]
  · funext other key
    rw [hbind (fun table => table.written i key) rfl other]

theorem store_write (hdistinct : sv.Distinct) (hname : sv.findTable name = some t)
    (hmutex : (sv.tables t).tableMutex = some i) (hloc : (name, key) ∈ scope) :
    (sv.modifyTable t fun table => table.set key value).store scope i
      = (sv.store scope i).write name key value := by
  have hother : ∀ other u, other ≠ name → sv.findTable other = some u →
      (sv.modifyTable t fun table => table.set key value).tables u = sv.tables u := by
    intro other u hne hu
    refine Function.update_of_ne ?_ ..
    rintro rfl
    exact hne (hdistinct other name u hu hname)
  have hself : (sv.modifyTable t fun table => table.set key value).tables t
      = (sv.tables t).set key value := Function.update_self ..
  have hfind : ∀ other, (sv.modifyTable t fun table => table.set key value).findTable other
      = sv.findTable other := fun _ => rfl
  refine Store.ext rfl (funext₂ fun other k => ?_) (funext₂ fun other k => ?_)
  · show _ = (sv.store scope i).committed other k
    simp only [Server.store, hfind]
    cases h : sv.findTable other with
    | none => rfl
    | some u =>
        by_cases hne : other = name
        · have hu : u = t := Option.some.inj (h.symm.trans (hne ▸ hname))
          rw [hu, Option.bind_some, Option.bind_some, hself]
          rfl
        · rw [Option.bind_some, Option.bind_some, hother other u hne h]
  · show _ = Function.update (sv.store scope i).pending name
      (Function.update ((sv.store scope i).pending name) key (some value)) other k
    by_cases hne : other = name
    · subst hne
      rw [Function.update_self]
      by_cases hk : k = key
      · subst hk
        rw [Function.update_self, store_pending hloc ((hfind other).trans hname), hself]
        simp [Table.written, Table.set, hmutex]
      · rw [Function.update_of_ne hk]
        simp only [Server.store, hfind, hname, Option.bind_some, hself]
        simp [Table.written, Table.set, AList.lookup_insert_ne hk]
    · rw [Function.update_of_ne hne]
      simp only [Server.store, hfind]
      cases h : sv.findTable other with
      | none => rfl
      | some u => rw [Option.bind_some, Option.bind_some, hother other u hne h]

/-- The tables of a transaction are committed one by one. -/
theorem store_commitChanges (hmutex : (sv.tables t).tableMutex = some i) :
    ((sv.modifyTable t Table.commitChanges).store scope i).commit
      = (sv.store scope i).commit := by
  have hfind : ∀ other, (sv.modifyTable t Table.commitChanges).findTable other
      = sv.findTable other := fun _ => rfl
  refine Store.ext rfl (funext₂ fun other k => ?_) rfl
  show Store.visible _ other k = Store.visible _ other k
  by_cases hloc : (other, k) ∈ scope
  · cases h : sv.findTable other with
    | none => simp only [Store.visible, Server.store, hfind, h, Option.bind_none]
    | some u =>
        rw [Store.visible, Store.visible, store_pending hloc ((hfind other).trans h),
          store_committed hloc ((hfind other).trans h), store_pending hloc h,
          store_committed hloc h]
        by_cases hu : u = t
        · subst hu
          have hdone : (sv.tables u).commitChanges.written i k = none := by
            unfold Table.written
            exact ite_eq_right_iff.mpr fun _ => rfl
          have hself : (sv.modifyTable u Table.commitChanges).tables u
              = (sv.tables u).commitChanges := Function.update_self ..
          rw [hself, hdone, Table.commitChanges_lookup, Table.written, if_pos hmutex]
          rfl
        · simp only [Server.modifyTable, Function.update_of_ne hu]
  · simp [Store.visible, Server.store, hloc]

theorem store_rollbackChanges :
    ((sv.modifyTable t Table.rollbackChanges).store scope i).drop
      = (sv.store scope i).drop := by
  refine Store.ext rfl (funext₂ fun other k => ?_) rfl
  show (Server.store _ scope i).committed other k = (Server.store _ scope i).committed other k
  have hfind : ∀ other, (sv.modifyTable t Table.rollbackChanges).findTable other
      = sv.findTable other := fun _ => rfl
  simp only [Server.store, hfind]
  cases h : sv.findTable other with
  | none => rfl
  | some u =>
      by_cases hu : u = t
      · subst hu
        simp [Server.modifyTable, Table.rollbackChanges]
      · simp only [Option.bind_some, Server.modifyTable, Function.update_of_ne hu]

end Store

/-! ### Where a connection is, within its scope

`settle` is what the request will come to if nobody interferes. Each step of the connection's
own keeps it, which is shown point by point.
-/

def Access.loc : Access → Str × Str
  | .get table key => (table, key)
  | .set table key _ => (table, key)

/-- What a point refers to is in the scope, and where it has been found. -/
def Pc.Within (scope : Scope) (sv : Server) : Pc → Prop
  | .createLock name | .createBody name => name ∈ scope.Names
  | .findLock a | .findBody a => a.loc ∈ scope
  | .findUnlock a found => a.loc ∈ scope ∧ sv.findTable a.table = found
  | .trylock a t | .call a t | .guardLock a t | .guardCall a t =>
      a.loc ∈ scope ∧ sv.findTable a.table = some t
  | _ => True

theorem Access.table_mem {scope : Scope} {a : Access} (h : a.loc ∈ scope) :
    a.table ∈ scope.Names := by
  cases a with
  | get table key => exact ⟨key, h⟩
  | set table key value => exact ⟨key, h⟩

structure Placed (scope : Scope) (i : ConnId) (s : State) : Prop where
  inv : Inv s
  distinct : s.server.Distinct
  within : (s.conns i).pc.Within scope s.server

section Own

variable {p : Platform} {s s' : State} {a : Turn} {effect : Effect} {c' : Conn} {scope : Scope}
  {i : ConnId}

theorem Inv.written_clean (h : Inv s) (t : TablePtr) (ht : t ∉ (s.conns i).view.dirty)
    (key : Str) : (s.server.tables t).written i key = none := by
  unfold Table.written
  by_cases hmutex : (s.server.tables t).tableMutex = some i
  · rw [if_pos hmutex]
    exact congrFun (h.protocol.clean_held (h.mutex.mp hmutex) ht) key
  · exact if_neg hmutex

/-- A connection that has nothing to undo has nothing pending. -/
theorem Inv.store_idle (h : Inv s) (hdirty : (s.conns i).view.dirty = ∅) :
    (s.server.store scope i).commit = s.server.store scope i ∧
      (s.server.store scope i).drop = s.server.store scope i :=
  KvServer.store_idle fun name key t _ _ =>
    h.written_clean t (by simp [hdirty]) key

theorem Inv.store_lock (h : Inv s) {t : TablePtr} (hfree : (s.server.tables t).tableMutex = none) :
    (s.server.apply i (.lock t)).store scope i = s.server.store scope i :=
  store_mutex (congrFun (h.protocol.clean_free hfree)) _

theorem Inv.store_unlock (h : Inv s) {t : TablePtr} (hheld : t ∈ (s.conns i).view.held)
    (hdirty : t ∉ (s.conns i).view.dirty) :
    (s.server.apply i (.unlock t)).store scope i = s.server.store scope i :=
  store_mutex (congrFun (h.protocol.clean_held hheld hdirty)) _

/-- An autocommit operation has nothing pending but in its table. -/
theorem Inv.store_published (h : Inv s) {t : TablePtr} (hpc : (s.conns i).pc = .guardCommit t) :
    ((s.server.modifyTable t Table.commitChanges).store scope i).commit
      = (s.server.modifyTable t Table.commitChanges).store scope i := by
  refine (KvServer.store_idle fun name key u _ _ => ?_).1
  by_cases hu : u = t
  · subst hu
    simp only [Server.modifyTable, Function.update_self]
    exact ite_eq_right_iff.mpr fun _ => rfl
  · simp only [Server.modifyTable, Function.update_of_ne hu]
    exact h.written_clean u (by simp [Conn.view, hpc, TwoPhase.View.dirty, hu]) key

/-- An autocommit SET that is published under its guard. -/
theorem Inv.guardCommit_settle (h : Inv s) {t : TablePtr} (hpc : (s.conns i).pc = .guardCommit t) :
    { s.conns i with pc := .guardUnlock t (.ok ()) }.settle
        ((s.server.apply i (.commitChanges t)).store scope i)
      = (s.conns i).settle (s.server.store scope i) := by
  have hmutex : (s.server.tables t).tableMutex = some i :=
    h.mutex.mpr (by simp [Conn.view, hpc, TwoPhase.View.held])
  have hstore : (s.server.apply i (.commitChanges t)).store scope i
      = (s.server.store scope i).commit := by
    rw [← store_commitChanges hmutex]
    exact (h.store_published hpc).symm
  rw [Conn.settle.eq_1 (s.conns i), hpc, hstore]
  rfl

/-- What a GET comes to, from the call on. -/
theorem reach_get {c : Conn} {sv : Server} {name key : Str} {t : TablePtr}
    (hloc : (name, key) ∈ scope) (hname : sv.findTable name = some t)
    (hmutex : (sv.tables t).tableMutex = some i) :
    (c.session (sv.store scope i)).get name key
      = match (sv.tables t).get key with
        | .ok value => { c with stack := c.stack.push value }.session (sv.store scope i) |>.ok
        | .error e => (c.session (sv.store scope i)).raise e := by
  have hvisible : (c.session (sv.store scope i)).store.visible name key
      = (sv.tables t).visible key := store_visible hloc hname hmutex
  rw [Solo.get, hvisible]
  cases hget : (sv.tables t).get key with
  | ok value =>
      rw [Table.get_eq_ok.mp hget]
      rfl
  | error e =>
      rw [Table.get_eq_error hget]
      obtain rfl : e = .operation (bytes "The key is not in the map") := by
        unfold Table.get at hget
        split at hget
        · cases hget
        · split at hget
          · cases hget
          · exact (Except.error.inj hget).symm
      rfl

/-- What a CREATE comes to, under the guard of the catalogue. -/
theorem createBody_settle {c : Conn} {sv : Server} {name : Str} (hpc : c.pc = .createBody name)
    (hname : name ∈ scope.Names)
    (hbound : ∀ other t, sv.findTable other = some t → t < sv.allocated)
    (hgo : c.go sv = some (effect, c')) :
    c'.settle ((sv.apply i effect).store scope i) = c.settle (sv.store scope i) := by
  have hfound : (sv.store scope i).found name = (sv.findTable name).isSome := store_found hname
  simp only [Conn.go, hpc] at hgo
  rw [Conn.settle.eq_1 c, hpc]
  show _ = Solo.create _ name
  split at hgo
  · rename_i t ht
    obtain ⟨rfl, rfl⟩ := Prod.mk.inj (Option.some.inj hgo)
    rw [Solo.create, if_pos (by rw [Conn.session, hfound, ht]; rfl)]
    rfl
  · rename_i hnew
    obtain ⟨rfl, rfl⟩ := Prod.mk.inj (Option.some.inj hgo)
    rw [Solo.create, if_neg (by rw [Conn.session, hfound, hnew]; simp)]
    show Conn.settle _ ((sv.newTable name).store scope i) = _
    rw [store_create hnew hbound hname]
    rfl

/-- The outcome of the look-up, under the guard of the catalogue. -/
theorem findBody_settle {c : Conn} {sv : Server} {x : Access} (hpc : c.pc = .findBody x)
    (hloc : x.loc ∈ scope) :
    { c with pc := .findUnlock x (sv.findTable x.table) }.settle (sv.store scope i)
      = c.settle (sv.store scope i) := by
  rw [Conn.settle.eq_1 c, hpc]
  show _ = Solo.access _ x
  have hfound : (c.session (sv.store scope i)).store.found x.table
      = (sv.findTable x.table).isSome := store_found (Access.table_mem hloc)
  rw [Solo.access, hfound]
  rfl

/-- What follows the look-up. -/
theorem findUnlock_settle {c : Conn} {st : Store} {x : Access} {found : Option TablePtr}
    (hpc : c.pc = .findUnlock x found) :
    (c.attempt (afterFind x found)).settle st = c.settle st := by
  rw [Conn.settle.eq_1 c, hpc, attempt_settle]
  show _ = if found.isSome then _ else _
  cases found with
  | none => simp [afterFind, Solo.raise]
  | some t =>
      by_cases htx : c.inTransaction = true
      · by_cases ht : t ∈ c.lockedTables
        · simp [afterFind, Conn.settle, Conn.session, htx, ht]
        · simp [afterFind, Conn.settle, Conn.session, htx, ht]
      · simp [afterFind, Conn.settle, Conn.session, htx]

/-- What a call on a table comes to, under its mutex. -/
theorem call_settle {c : Conn} {sv : Server} {x : Access} {t : TablePtr} (hpc : c.pc = .call x t)
    (hdistinct : sv.Distinct) (hloc : x.loc ∈ scope) (hname : sv.findTable x.table = some t)
    (hmutex : (sv.tables t).tableMutex = some i) (htx : c.inTransaction = true)
    (hgo : c.go sv = some (effect, c')) :
    c'.settle ((sv.apply i effect).store scope i) = c.settle (sv.store scope i) := by
  simp only [Conn.go, hpc, Option.some.injEq, Prod.mk.injEq] at hgo
  obtain ⟨rfl, rfl⟩ := hgo
  rw [Conn.settle.eq_1 c, hpc, attempt_settle]
  cases x with
  | get name key =>
      show _ = (c.session (sv.store scope i)).get name key
      rw [reach_get hloc hname hmutex]
      simp only [afterCall, ConnM.exec_bind, ConnM.exec_ofExcept]
      cases (sv.tables t).get key with
      | ok value => simp [Conn.settle, Conn.session, Solo.ok, Server.apply]
      | error e => rfl
  | set name key value =>
      have hwrite : (sv.apply i (.set t key value)).store scope i
          = (sv.store scope i).write name key value := store_write hdistinct hname hmutex hloc
      show _ = (c.session (sv.store scope i)).set name key value
      simp [afterCall, Conn.settle, Conn.session, Solo.ok, Solo.set, hwrite, htx]

/-- The same for an autocommit operation, which stays under its guard. -/
theorem guardCall_settle {c : Conn} {sv : Server} {x : Access} {t : TablePtr}
    (hpc : c.pc = .guardCall x t) (hdistinct : sv.Distinct) (hloc : x.loc ∈ scope)
    (hname : sv.findTable x.table = some t) (hmutex : (sv.tables t).tableMutex = some i)
    (htx : c.inTransaction = false) (hgo : c.go sv = some (effect, c')) :
    c'.settle ((sv.apply i effect).store scope i) = c.settle (sv.store scope i) := by
  rw [Conn.settle.eq_1 c, hpc]
  cases x with
  | get name key =>
      show _ = (c.session (sv.store scope i)).get name key
      rw [reach_get hloc hname hmutex]
      simp only [Conn.go, hpc, guardedGet, ConnM.exec_bind, ConnM.exec_ofExcept] at hgo
      cases hget : (sv.tables t).get key with
      | ok value =>
          simp only [hget, push_exec, Option.some.injEq, Prod.mk.injEq] at hgo
          obtain ⟨rfl, rfl⟩ := hgo
          rfl
      | error e =>
          simp only [hget, Option.some.injEq, Prod.mk.injEq] at hgo
          obtain ⟨rfl, rfl⟩ := hgo
          rfl
  | set name key value =>
      simp only [Conn.go, hpc, Option.some.injEq, Prod.mk.injEq] at hgo
      obtain ⟨rfl, rfl⟩ := hgo
      have hwrite : (sv.apply i (.set t key value)).store scope i
          = (sv.store scope i).write name key value := store_write hdistinct hname hmutex hloc
      show _ = (c.session (sv.store scope i)).set name key value
      simp [Conn.settle, Conn.session, Solo.ok, Solo.set, hwrite, htx]

/-- The last step of a loop over the locked tables. -/
theorem finish_settle {c : Conn} {e : Ending} {st : Store} (hpc : c.pc = .ending e ∅)
    (hcommit : st.commit = st) (hdrop : st.drop = st) :
    (c.finish e).settle st = c.settle st := by
  rw [Conn.settle.eq_1 c, hpc]
  cases e with
  | commit =>
      rw [Conn.finish, attempt_settle]
      simp [Conn.settle, Conn.session, Solo.conclude, Solo.ok, hcommit]
  | abort what =>
      rw [Conn.finish, respondWith_failed]
      simp [Solo.conclude, Solo.abort, Conn.session, hdrop]
  | destroy => simp [Conn.finish, Conn.settle, Solo.conclude, Solo.leave, Conn.session, hdrop]

/-- **A step of one's own keeps what the request comes to.** -/
theorem Placed.go_settle (h : Placed scope i s)
    (hfree : ∀ x t, (s.conns i).pc = .trylock x t → (s.server.tables t).tableMutex = none)
    (hgo : (s.conns i).go s.server = some (effect, c')) :
    c'.settle ((s.server.apply i effect).store scope i)
      = (s.conns i).settle (s.server.store scope i) := by
  have hpoint := (h.inv.wf i).point
  have hwithin := h.within
  have hcall := hgo
  unfold Conn.PointOk at hpoint
  unfold Conn.go at hgo
  cases hpc : (s.conns i).pc with
  | reading => simp [hpc] at hgo
  | closed => simp [hpc] at hgo
  | terminated => simp [hpc] at hgo
  | createLock name =>
      simp only [hpc] at hgo
      split at hgo
      · obtain ⟨rfl, rfl⟩ := Prod.mk.inj (Option.some.inj hgo)
        rw [Conn.settle.eq_1 (s.conns i), hpc]
        rfl
      · cases hgo
  | createBody name =>
      rw [hpc] at hwithin
      exact createBody_settle hpc hwithin h.inv.found hcall
  | createUnlock result =>
      simp only [hpc, Option.some.injEq, Prod.mk.injEq] at hgo
      obtain ⟨rfl, rfl⟩ := hgo
      rw [Conn.settle.eq_1 (s.conns i), hpc]
      exact afterGuard_settle _ _ result
  | findLock x =>
      simp only [hpc] at hgo
      split at hgo
      · obtain ⟨rfl, rfl⟩ := Prod.mk.inj (Option.some.inj hgo)
        rw [Conn.settle.eq_1 (s.conns i), hpc]
        rfl
      · cases hgo
  | findBody x =>
      rw [hpc] at hwithin
      simp only [hpc, Option.some.injEq, Prod.mk.injEq] at hgo
      obtain ⟨rfl, rfl⟩ := hgo
      exact findBody_settle hpc hwithin
  | findUnlock x found =>
      simp only [hpc, Option.some.injEq, Prod.mk.injEq] at hgo
      obtain ⟨rfl, rfl⟩ := hgo
      exact findUnlock_settle hpc
  | trylock x t =>
      simp only [hpc, if_pos (hfree x t hpc), Option.some.injEq, Prod.mk.injEq] at hgo
      obtain ⟨rfl, rfl⟩ := hgo
      rw [Conn.settle.eq_1 (s.conns i), hpc, attempt_settle, h.inv.store_lock (hfree x t hpc)]
      simp [afterTrylock, Conn.settle, Conn.session]
  | call x t =>
      rw [hpc] at hpoint hwithin
      refine call_settle hpc h.distinct hwithin.1 hwithin.2 (h.inv.mutex.mpr ?_) hpoint.1 hcall
      simp [Conn.view, hpc, hpoint.1, TwoPhase.View.held, hpoint.2]
  | guardLock x t =>
      simp only [hpc] at hgo
      split at hgo
      · rename_i hmutex
        obtain ⟨rfl, rfl⟩ := Prod.mk.inj (Option.some.inj hgo)
        rw [Conn.settle.eq_1 (s.conns i), hpc, h.inv.store_lock hmutex]
        rfl
      · cases hgo
  | guardCall x t =>
      rw [hpc] at hpoint hwithin
      refine guardCall_settle hpc h.distinct hwithin.1 hwithin.2 (h.inv.mutex.mpr ?_) hpoint hcall
      simp [Conn.view, hpc, TwoPhase.View.held]
  | guardCommit t =>
      simp only [hpc, Option.some.injEq, Prod.mk.injEq] at hgo
      obtain ⟨rfl, rfl⟩ := hgo
      exact h.inv.guardCommit_settle hpc
  | guardUnlock t result =>
      simp only [hpc, Option.some.injEq, Prod.mk.injEq] at hgo
      obtain ⟨rfl, rfl⟩ := hgo
      rw [Conn.settle.eq_1 (s.conns i), hpc, afterGuard_settle,
        h.inv.store_unlock (by simp [Conn.view, hpc, TwoPhase.View.held])
          (by simp [Conn.view, hpc, TwoPhase.View.dirty])]
  | ending e rest =>
      rw [hpc] at hpoint
      simp only [hpc] at hgo
      split at hgo
      · rename_i hrest
        obtain ⟨rfl, rfl⟩ := Prod.mk.inj (Option.some.inj hgo)
        subst hrest
        have hclean : (s.conns i).view.dirty = ∅ := by simp [Conn.view, hpc, TwoPhase.View.dirty]
        obtain ⟨hcommit, hdrop⟩ := h.inv.store_idle hclean
        exact finish_settle hpc hcommit hdrop
      · cases hgo
  | endingUnlock e t rest =>
      rw [hpc] at hpoint
      simp only [hpc, Option.some.injEq, Prod.mk.injEq] at hgo
      obtain ⟨rfl, rfl⟩ := hgo
      rw [Conn.settle.eq_1 (s.conns i), hpc,
        h.inv.store_unlock (by simp [Conn.view, hpc, TwoPhase.View.held])
          (by simpa [Conn.view, hpc, TwoPhase.View.dirty] using hpoint.2.1)]
      rfl

theorem Placed.visit_settle (h : Placed scope i s) {e : Ending} {rest : Finset TablePtr}
    {t : TablePtr} (hpc : (s.conns i).pc = .ending e rest) (ht : t ∈ rest) :
    { s.conns i with pc := .endingUnlock e t (rest.erase t) }.settle
        ((s.server.apply i (e.effect t)).store scope i)
      = (s.conns i).settle (s.server.store scope i) := by
  have hpoint := (h.inv.wf i).point
  unfold Conn.PointOk at hpoint
  rw [hpc] at hpoint
  have hmutex : (s.server.tables t).tableMutex = some i :=
    h.inv.mutex.mpr (by simpa [Conn.view, hpc, TwoPhase.View.held] using ht)
  rw [Conn.settle.eq_1 (s.conns i), hpc]
  show Solo.conclude _ e = Solo.conclude _ e
  cases e with
  | commit =>
      have hstore : ((s.server.apply i (Ending.commit.effect t)).store scope i).commit
          = (s.server.store scope i).commit := store_commitChanges hmutex
      simp [Solo.conclude, Conn.session, hstore]
  | abort what =>
      have hstore : ((s.server.apply i ((Ending.abort what).effect t)).store scope i).drop
          = (s.server.store scope i).drop := store_rollbackChanges
      simp [Solo.conclude, Solo.abort, Conn.session, hstore]
  | destroy =>
      have hstore : ((s.server.apply i (Ending.destroy.effect t)).store scope i).drop
          = (s.server.store scope i).drop := store_rollbackChanges
      simp [Solo.conclude, Solo.leave, Conn.session, hpoint.1, hstore]

end Own

/-! ### Keeping to the scope

A name outside the scope is never looked up, so a table outside it is never locked; and the
steps of others neither rename tables nor move the connection.
-/

/-- A line that is about nothing outside a scope. -/
def Scope.Admits (scope : Scope) (line : Str) : Prop :=
  ∀ m, decode (cstr line) = .ok m →
    (m.messageType = .create → m.getTable ∈ scope.Names) ∧
      (m.messageType = .get ∨ m.messageType = .set → (m.getTable, m.getKey) ∈ scope)

section Within

variable {p : Platform} {s s' : State} {a : Turn} {effect : Effect} {c' : Conn} {scope : Scope}
  {i : ConnId}

theorem leave_within {c : Conn} {sv : Server} : c.leave.Within scope sv := by
  unfold Conn.leave
  split <;> trivial

theorem Served.within {line : Str} {c : Conn} {sv : Server} (h : Served p line c c')
    (hadmits : scope.Admits line) : c'.pc.Within scope sv := by
  cases h with
  | create hm htype => exact (hadmits _ hm).1 htype
  | get hm htype => exact (hadmits _ hm).2 (.inl htype)
  | set hm htype hstack => exact (hadmits _ hm).2 (.inr htype)
  | leave hresp hleft => exact leave_within
  | _ => trivial

theorem Moves.within {sv : Server} {c : Conn} {ch : Choice} (h : Moves p sv c ch effect c')
    (hwithin : c.pc.Within scope sv) (hadmits : ∀ line, ch = .recv line → scope.Admits line) :
    c'.pc.Within scope (sv.apply i effect) := by
  cases h with
  | request hpc hpos hlen h => exact h.within (hadmits _ rfl)
  | eof hpc => exact leave_within
  | createLock hpc hfree =>
      rw [hpc] at hwithin
      exact hwithin
  | findLock hpc hfree =>
      rw [hpc] at hwithin
      exact hwithin
  | findBody hpc =>
      rw [hpc] at hwithin
      exact ⟨hwithin, rfl⟩
  | foundNew hpc htx ht =>
      rw [hpc] at hwithin
      exact hwithin
  | foundLocked hpc htx ht =>
      rw [hpc] at hwithin
      exact hwithin
  | foundAuto hpc htx =>
      rw [hpc] at hwithin
      exact hwithin
  | trylock hpc hfree =>
      rw [hpc] at hwithin
      exact hwithin
  | guardLock hpc hfree =>
      rw [hpc] at hwithin
      exact hwithin
  | _ => trivial

theorem Moves.newTable_at {sv : Server} {c : Conn} {ch : Choice} {name : Str}
    (h : Moves p sv c ch effect c') (he : effect = .newTable name) : c.pc = .createBody name := by
  cases h with
  | createNew hpc hnew =>
      cases he
      exact hpc
  | visit hpc ht => cases ‹Ending› <;> cases he
  | _ => cases he

/-- Nobody else creates a table while one has `table_lock`. -/
theorem Stepped.findTable_held (hst : Stepped p s a effect c' s') (h : Inv s) (hi : i ≠ a.conn)
    (hholds : (s.conns i).holdsCatalogue = true) (name : Str) :
    s'.server.findTable name = s.server.findTable name := by
  have hnew : ∀ new, effect ≠ .newTable new := by
    rintro new rfl
    refine hi (h.catalogue.unique (k := ()) hholds ?_)
    simp [Conn.holdsCatalogue, hst.moves.newTable_at rfl]
  rw [hst.server]
  cases effect with
  | newTable new => exact absurd rfl (hnew new)
  | _ => rfl

theorem Stepped.within_other (hst : Stepped p s a effect c' s') (h : Inv s) (hi : i ≠ a.conn)
    (hwithin : (s.conns i).pc.Within scope s.server) :
    (s'.conns i).pc.Within scope s'.server := by
  rw [hst.other hi]
  cases hpc : (s.conns i).pc with
  | findUnlock x found =>
      rw [hpc] at hwithin
      refine ⟨hwithin.1, ?_⟩
      rw [hst.findTable_held h hi (by simp [Conn.holdsCatalogue, hpc])]
      exact hwithin.2
  | trylock x t =>
      rw [hpc] at hwithin
      exact ⟨hwithin.1, hst.findTable hwithin.2⟩
  | call x t =>
      rw [hpc] at hwithin
      exact ⟨hwithin.1, hst.findTable hwithin.2⟩
  | guardLock x t =>
      rw [hpc] at hwithin
      exact ⟨hwithin.1, hst.findTable hwithin.2⟩
  | guardCall x t =>
      rw [hpc] at hwithin
      exact ⟨hwithin.1, hst.findTable hwithin.2⟩
  | createLock name =>
      rw [hpc] at hwithin
      exact hwithin
  | createBody name =>
      rw [hpc] at hwithin
      exact hwithin
  | findLock x =>
      rw [hpc] at hwithin
      exact hwithin
  | findBody x =>
      rw [hpc] at hwithin
      exact hwithin
  | _ => trivial

/-- No table gets a second name. -/
theorem Stepped.distinct (hst : Stepped p s a effect c' s') (h : Inv s)
    (hdistinct : s.server.Distinct) : s'.server.Distinct := by
  intro name other t hname hother
  rw [hst.server] at hname hother
  rcases apply_findTable hname with hold | ⟨rfl, heff⟩
  · rcases apply_findTable hother with hold' | ⟨rfl, -⟩
    · exact hdistinct name other t hold hold'
    · exact absurd (h.found name _ hold) (Nat.lt_irrefl _)
  · rcases apply_findTable hother with hold' | ⟨-, heff'⟩
    · exact absurd (h.found other _ hold') (Nat.lt_irrefl _)
    · exact Effect.newTable.inj (heff.symm.trans heff')

theorem Boot.distinct_run {s₀ : State} {turns : List Turn} (hboot : Boot s₀)
    (hdistinct : s₀.server.Distinct) (hrun : Transition.run (State.step p) s₀ turns = some s) :
    s.server.Distinct := by
  refine (Transition.run_invariant (I := fun m => Inv m ∧ m.server.Distinct) ?_
    ⟨hboot.inv, hdistinct⟩ hrun).2
  rintro m a m' ⟨hm, hd⟩ hstep
  obtain ⟨effect, c', hst⟩ := hm.stepped hstep
  exact ⟨hst.inv hm, hst.distinct hm hd⟩

theorem distinct_initial : Server.Distinct .initial := nofun

end Within

/-! ### Undisturbed

The run lemma: the steps of others keep the store and those of one's own keep what the request
comes to, so the session at the end is that of the lines read.
-/

/--
Connection `i` is not got in the way of: what it asks for is in its scope, it gets each mutex
that it tries, and the others leave its locations as they are.
-/
def State.Undisturbed (p : Platform) (scope : Scope) (i : ConnId) (s : State) (a : Turn) : Prop :=
  (a.conn = i → (∀ line, a.choice = .recv line → scope.Admits line) ∧
    ∀ x t, (s.conns i).pc = .trylock x t → (s.server.tables t).tableMutex = none) ∧
  (a.conn ≠ i → ∀ s', s.step p a = some s' →
    s'.server.store scope i = s.server.store scope i)

/-- A session that has read some lines, with the end of its input after them or not yet. -/
structure Solo.Took (p : Platform) (σ : Solo) (lines : List Str) (hung : Bool) (σ' : Solo) :
    Prop where
  eq : σ' = (σ.run p lines).hangUp hung
  hung_live : hung = true → (σ.run p lines).status = .live
  read_live : lines ≠ [] → (σ.run p lines.dropLast).status = .live

/-- The session of a connection in a state, once its request is done with. -/
noncomputable def State.settle (s : State) (scope : Scope) (i : ConnId) : Solo :=
  (s.conns i).settle (s.server.store scope i)

section Undisturbed

variable {p : Platform} {s s' : State} {a : Turn} {effect : Effect} {c' : Conn} {scope : Scope}
  {i : ConnId}

theorem Stepped.placed (hst : Stepped p s a effect c' s') (h : Placed scope i s)
    (hadmits : a.conn = i → ∀ line, a.choice = .recv line → scope.Admits line) :
    Placed scope i s' where
  inv := hst.inv h.inv
  distinct := hst.distinct h.inv h.distinct
  within := by
    by_cases hi : i = a.conn
    · subst hi
      rw [hst.self, hst.server]
      exact hst.moves.within h.within (hadmits rfl)
    · exact hst.within_other h.inv hi h.within

/-- What a turn of one's own does to what is read, and to what the request comes to. -/
theorem Stepped.settle_self (hst : Stepped p s a effect c' s') (h : Placed scope a.conn s)
    (hfree : ∀ x t, (s.conns a.conn).pc = .trylock x t → (s.server.tables t).tableMutex = none) :
    match a.choice with
    | .recv line => (s.conns a.conn).pc = .reading ∧
        s'.settle scope a.conn = (s.settle scope a.conn).line p line
    | .eof => (s.conns a.conn).pc = .reading ∧
        s'.settle scope a.conn = (s.settle scope a.conn).leave
    | _ => s'.settle scope a.conn = s.settle scope a.conn := by
  have hrun := hst.runs
  unfold State.settle
  rw [hst.self, hst.server]
  cases hch : a.choice with
  | recv line =>
      simp only [hch, Conn.step] at hrun
      split at hrun
      · rename_i hread
        obtain ⟨rfl, rfl⟩ := Prod.mk.inj (Option.some.inj hrun)
        refine ⟨hread.1, ?_⟩
        rw [line_settle, settle_reading hread.1]
        rfl
      · cases hrun
  | eof =>
      simp only [hch, Conn.step] at hrun
      split at hrun
      · rename_i hread
        obtain ⟨rfl, rfl⟩ := Prod.mk.inj (Option.some.inj hrun)
        refine ⟨hread, ?_⟩
        rw [settle_leave (by rfl), settle_reading hread]
        rfl
      · cases hrun
  | go =>
      rw [hch] at hrun
      exact h.go_settle hfree hrun
  | visit t =>
      simp only [hch, Conn.step] at hrun
      split at hrun
      · rename_i e rest hpc
        split at hrun
        · rename_i ht
          obtain ⟨rfl, rfl⟩ := Prod.mk.inj (Option.some.inj hrun)
          exact h.visit_settle hpc ht
        · cases hrun
      · cases hrun

/-- The others leave it as it is. -/
theorem Stepped.settle_other (hst : Stepped p s a effect c' s') (hi : i ≠ a.conn)
    (hstore : s'.server.store scope i = s.server.store scope i) :
    s'.settle scope i = s.settle scope i := by
  rw [State.settle, State.settle, hst.other hi, hstore]

/-- A connection that has come to the end of its input does not read any more. -/
theorem reading_live {c : Conn} {st : Store} (hpc : c.pc = .reading) :
    (c.settle st).status = .live := by
  rw [settle_reading hpc]
  rfl

namespace Solo.Took

variable {σ σ' : Solo} {lines : List Str} {hung : Bool}

theorem nil (p : Platform) (σ : Solo) : σ.Took p [] false σ := ⟨rfl, nofun, fun h => absurd rfl h⟩

/-- A live session has not met the end of its input. -/
theorem not_hung (h : σ.Took p lines hung σ') (hlive : σ'.status = .live) : hung = false := by
  cases hung with
  | false => rfl
  | true =>
      rw [h.eq] at hlive
      cases hlive

theorem run (h : σ.Took p lines hung σ') (hlive : σ'.status = .live) : σ' = σ.run p lines := by
  obtain rfl := h.not_hung hlive
  exact h.eq

theorem line (h : σ.Took p lines hung σ') (hlive : σ'.status = .live) (line : Str) :
    σ.Took p (lines ++ [line]) false (σ'.line p line) := by
  have hrun := h.run hlive
  subst hrun
  refine ⟨?_, nofun, fun _ => by rwa [List.dropLast_concat]⟩
  show _ = σ.run p (lines ++ [line])
  rw [Solo.run_append, Solo.run_cons hlive]
  rfl

theorem leave (h : σ.Took p lines hung σ') (hlive : σ'.status = .live) :
    σ.Took p lines true σ'.leave := by
  have hrun := h.run hlive
  subst hrun
  exact ⟨rfl, fun _ => hlive, h.read_live⟩

end Solo.Took

/--
**A run of an undisturbed connection comes to the requests that it has read**, and to the end
of its input if it has met that.
-/
theorem Placed.run {turns : List Turn} (endless : Prop) (h : Placed scope i s)
    (hu : Transition.Along (State.step p) (State.Undisturbed p scope i) s turns)
    (hendless : endless → ∀ a ∈ turns, a.conn = i → a.choice ≠ .eof)
    (hrun : Transition.run (State.step p) s turns = some s') :
    Placed scope i s' ∧ ∃ lines hung, (s'.conns i).received = (s.conns i).received ++ lines ∧
      (s.settle scope i).Took p lines hung (s'.settle scope i) ∧ (endless → hung = false) := by
  refine Transition.along_invariant (I := fun m => Placed scope i m ∧ ∃ lines hung,
    (m.conns i).received = (s.conns i).received ++ lines ∧
      (s.settle scope i).Took p lines hung (m.settle scope i) ∧ (endless → hung = false)) ?_
    ⟨h, [], false, (List.append_nil _).symm, .nil p _, fun _ => rfl⟩
    (hu.and (R := fun _ a => endless → a.conn = i → a.choice ≠ .eof)
      (Transition.along_of_forall fun a ha _ he => hendless he a ha)) hrun
  rintro m a m' ⟨hm, lines, hung, hreceived, htook, hend⟩ ⟨hundisturbed, hmore_input⟩ hstep
  obtain ⟨effect, c', hst⟩ := hm.inv.stepped hstep
  refine ⟨hst.placed hm fun hi => (hundisturbed.1 hi).1, ?_⟩
  by_cases hi : a.conn = i
  · subst hi
    have hlive : (m.conns a.conn).pc = .reading → (m.settle scope a.conn).status = .live :=
      reading_live
    have hself := hst.settle_self hm (hundisturbed.1 rfl).2
    have hmore := hst.moves.received
    rw [hreceived, List.append_assoc, ← hst.self] at hmore
    cases hch : a.choice with
    | recv line =>
        rw [hch] at hself hmore
        refine ⟨lines ++ [line], false, hmore, ?_, fun _ => rfl⟩
        rw [hself.2]
        exact htook.line (hlive hself.1) line
    | eof =>
        rw [hch] at hself hmore
        refine ⟨lines, true, by simpa [Choice.received] using hmore, ?_,
          fun he => absurd hch (hmore_input he rfl)⟩
        rw [hself.2]
        exact htook.leave (hlive hself.1)
    | go =>
        rw [hch] at hself hmore
        exact ⟨lines, hung, by simpa [Choice.received] using hmore, hself ▸ htook, hend⟩
    | visit t =>
        rw [hch] at hself hmore
        exact ⟨lines, hung, by simpa [Choice.received] using hmore, hself ▸ htook, hend⟩
  · have hne : i ≠ a.conn := fun heq => hi heq.symm
    refine ⟨lines, hung, ?_, ?_, hend⟩
    · rw [hst.other hne]
      exact hreceived
    · rw [hst.settle_other hne (hundisturbed.2 hi m' hstep)]
      exact htook

end Undisturbed

end KvServer
