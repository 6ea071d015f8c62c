/-
The server follows the two-phase locking protocol.

`Conn.view` is where a connection is in the protocol, and `Moves.view` says that each of
its steps is one the protocol allows.  `State.abs` is the protocol's state as the server
has it; `Stepped.refines` says that a turn of the server is a step of the protocol.  What
the protocol says nothing about, the catalogue and its lock and the table pointers, is in
`Inv` beside the protocol's own invariant.
-/
import KvServer.Lib.Transition
import KvServer.Lib.TwoPhase
import KvServer.Proofs.Steps
import KvServer.Proofs.Tables

namespace KvServer

/-- What the protocol knows of a step. -/
abbrev Call := TwoPhase.Call TablePtr Str Str

def Effect.call : Effect → Call
  | .lock t => .lock t
  | .unlock t => .unlock t
  | .get t key => .get t key
  | .set t key value => .set t key value
  | .commitChanges t => .publish t
  | .rollbackChanges t => .drop t
  | _ => .none

/-- A request that is read outside a transaction is the first of its transaction, or the
only one of an autocommit operation. -/
def Conn.call (c : Conn) (ch : Choice) (effect : Effect) : Call :=
  match ch with
  | .recv _ => if c.inTransaction then .none else .arrive
  | _ => effect.call

def Ending.commits : Ending → Bool
  | .commit => true
  | .abort _ => false
  | .destroy => false

@[simp] theorem Ending.effect_call (e : Ending) (t : TablePtr) :
    (e.effect t).call = .settle t e.commits := by
  cases e <;> rfl

namespace Conn

/-- Where a connection is in the protocol. -/
def view (c : Conn) : TwoPhase.View TablePtr :=
  match c.pc with
  | .guardCall _ t => .guarded t
  | .guardCommit t => .publishing t
  | .guardUnlock t _ => .guardDone t
  | .ending e rest => .ending e.commits rest c.lockedTables
  | .endingUnlock e t rest => .releasing e.commits t rest c.lockedTables
  | .closed => .gone
  | _ => if c.inTransaction then .inside c.lockedTables else .outside

/-- A connection is inside `create_table` or `find_table`. -/
def holdsCatalogue (c : Conn) : Bool :=
  match c.pc with
  | .createBody _ => true
  | .createUnlock _ => true
  | .findBody _ => true
  | .findUnlock _ _ => true
  | _ => false

/-- The table a connection has found and is about to lock. -/
def target (c : Conn) : Option TablePtr :=
  match c.pc with
  | .findUnlock _ found => found
  | .trylock _ t => some t
  | .guardLock _ t => some t
  | _ => none

/-- The points at which the protocol has nothing but the transaction to go by. -/
def Plain (c : Conn) : Prop :=
  c.view = if c.inTransaction then .inside c.lockedTables else .outside

theorem plain_reading {c : Conn} (h : c.pc = .reading) : c.Plain := by
  simp [Plain, view, h]

end Conn

section Step

variable {p : Platform} {sv : Server} {c c' : Conn} {ch : Choice} {effect : Effect}

/-- A step between plain points that leaves the transaction alone. -/
theorem view_quiet (h : c.Plain) (h' : c'.Plain) (htx : c'.inTransaction = c.inTransaction)
    (hlocked : c'.lockedTables = c.lockedTables) : c.view.Step (.none : Call) c'.view := by
  rw [h, h', htx, hlocked]
  exact .quiet

/-- The same, on reading a request. -/
theorem view_request {line : Str} (h : c.Plain) (h' : c'.Plain)
    (htx : c'.inTransaction = c.inTransaction) (hlocked : c'.lockedTables = c.lockedTables) :
    c.view.Step (c.call (.recv line) .none) c'.view := by
  rw [h, h', htx, hlocked]
  unfold Conn.call
  by_cases hin : c.inTransaction = true
  · simp only [hin, if_true]
    exact .quiet
  · simp only [hin]
    exact .arrive

theorem Served.view {line : Str} (h : Served p line c c')
    (hidle : c.inTransaction = false → c.lockedTables = ∅) (hpc : c.pc = .reading) :
    c.view.Step (c.call (.recv line) .none) c'.view := by
  have hplain := Conn.plain_reading hpc
  have hview := hplain
  unfold Conn.Plain at hview
  cases h with
  | reply hresp htx hlogin hstack =>
      rcases htx with rfl | ⟨hout, rfl⟩
      · exact view_request hplain rfl rfl rfl
      · -- BEGIN
        rw [hview, if_neg (by simp [hout])]
        simp only [Conn.call, hout, Conn.view, if_true, hidle hout]
        exact .begin
  | create hm htype => exact view_request hplain rfl rfl rfl
  | get hm htype => exact view_request hplain rfl rfl rfl
  | set hm htype hstack => exact view_request hplain rfl rfl rfl
  | commit hm htype htx =>
      rw [hview, if_pos htx]
      simp only [Conn.call, htx]
      exact .decide
  | nested hm htype htx =>
      rw [hview, if_pos htx]
      simp only [Conn.call, htx]
      exact .decide
  | leave hresp hleft =>
      by_cases htx : c.inTransaction = true
      · rw [hview, if_pos htx]
        simp only [Conn.call, htx, Conn.view, Conn.leave, if_true]
        exact .decide
      · rw [hview, if_neg htx]
        simp only [Conn.call, htx, Conn.view, Conn.leave]
        exact .leave
  | trap hm htype htrap => exact view_request hplain rfl rfl rfl

/-- **Every step of a connection is one the protocol allows.** -/
theorem Moves.view (h : Moves p sv c ch effect c') (hwf : c.WF) :
    c.view.Step (c.call ch effect) c'.view := by
  have hpoint := hwf.point
  unfold Conn.PointOk at hpoint
  cases h with
  | request hpc hpos hlen h =>
      have hreceived : c.view = Conn.view { c with received := c.received ++ [‹Str›] } := rfl
      rw [hreceived]
      exact h.view hwf.idle hpc
  | eof hpc =>
      have hview := Conn.plain_reading hpc
      unfold Conn.Plain at hview
      rw [hview]
      by_cases htx : c.inTransaction = true
      · simp only [Conn.call, htx, Conn.view, Conn.leave, if_true]
        exact .decide
      · simp only [Conn.call, htx, Conn.view, Conn.leave]
        exact .quit
  | createLock hpc hfree => exact view_quiet (by simp [Conn.Plain, Conn.view, hpc]) rfl rfl rfl
  | createExists hpc hfound hwhat =>
      exact view_quiet (by simp [Conn.Plain, Conn.view, hpc]) rfl rfl rfl
  | createNew hpc hnew => exact view_quiet (by simp [Conn.Plain, Conn.view, hpc]) rfl rfl rfl
  | createUnlock hpc hresp => exact view_quiet (by simp [Conn.Plain, Conn.view, hpc]) rfl rfl rfl
  | findLock hpc hfree => exact view_quiet (by simp [Conn.Plain, Conn.view, hpc]) rfl rfl rfl
  | findBody hpc => exact view_quiet (by simp [Conn.Plain, Conn.view, hpc]) rfl rfl rfl
  | notFound hpc hresp => exact view_quiet (by simp [Conn.Plain, Conn.view, hpc]) rfl rfl rfl
  | foundNew hpc htx ht => exact view_quiet (by simp [Conn.Plain, Conn.view, hpc]) rfl rfl rfl
  | foundLocked hpc htx ht => exact view_quiet (by simp [Conn.Plain, Conn.view, hpc]) rfl rfl rfl
  | foundAuto hpc htx => exact view_quiet (by simp [Conn.Plain, Conn.view, hpc]) rfl rfl rfl
  | trylock hpc hfree =>
      rw [hpc] at hpoint
      simp only [Conn.view, hpc, hpoint.1, if_true]
      exact .lock hpoint.2
  | conflict hpc hheld =>
      rw [hpc] at hpoint
      simp only [Conn.view, hpc, hpoint.1, if_true]
      exact .decide
  | callGet hpc hget =>
      rw [hpc] at hpoint
      simp only [Conn.view, hpc, hpoint.1, if_true]
      exact .get hpoint.2
  | callGetFail hpc hget hresp =>
      rw [hpc] at hpoint
      simp only [Conn.view, hpc, hpoint.1, if_true]
      exact .get hpoint.2
  | callSet hpc =>
      rw [hpc] at hpoint
      simp only [Conn.view, hpc, hpoint.1, if_true]
      exact .set hpoint.2
  | guardLock hpc hfree =>
      rw [hpc] at hpoint
      simp only [Conn.view, hpc, hpoint]
      exact .guard
  | guardGet hpc hget =>
      simp only [Conn.view, hpc]
      exact .guardGet
  | guardGetFail hpc hwhat hget =>
      simp only [Conn.view, hpc]
      exact .guardGet
  | guardSet hpc =>
      simp only [Conn.view, hpc]
      exact .guardSet
  | guardCommit hpc =>
      simp only [Conn.view, hpc]
      exact .guardPublish
  | guardUnlock hpc hresp =>
      rw [hpc] at hpoint
      simp only [Conn.view, hpc, hpoint.1]
      exact .unguard
  | visit hpc ht =>
      simp only [Conn.view, hpc, Conn.call, Ending.effect_call]
      exact .visit ht
  | release hpc =>
      simp only [Conn.view, hpc]
      exact .release
  | finishCommit hpc =>
      simp only [Conn.view, hpc]
      exact .finish
  | finishAbort hpc hline =>
      simp only [Conn.view, hpc]
      exact .finish
  | finishCrash hpc hline =>
      simp only [Conn.view, hpc]
      exact .finish
  | finishDestroy hpc =>
      simp only [Conn.view, hpc]
      exact .vanish

/-- What the protocol knows of a step is its effect, or else that a request has arrived. -/
theorem Moves.call_cases (h : Moves p sv c ch effect c') :
    c.call ch effect = effect.call ∨ effect = .none ∧ c.call ch effect = .arrive := by
  cases h with
  | request hpc hpos hlen h =>
      by_cases htx : c.inTransaction = true
      · exact .inl (if_pos htx)
      · exact .inr ⟨rfl, if_neg htx⟩
  | _ => exact .inl rfl

/-- A mutex is only locked when it is free. -/
theorem Moves.lock_free (h : Moves p sv c ch effect c') {t : TablePtr} (he : effect = .lock t) :
    (sv.tables t).tableMutex = none := by
  cases h with
  | trylock hpc hfree => cases he; exact hfree
  | guardLock hpc hfree => cases he; exact hfree
  | visit hpc hmem => cases ‹Ending› <;> cases he
  | _ => cases he

/-! ### The catalogue

`table_lock` is outside the protocol, which knows table mutexes only. Who has it can be told
from the point alone.
-/

/-- What an effect does to `table_lock`. -/
def Effect.catalogueOp : Effect → Locks.Op Unit
  | .lockCatalogue => .acquire ()
  | .unlockCatalogue => .release ()
  | _ => .keep

theorem leave_catalogue (hpc : c'.pc = c.leave) : c'.holdsCatalogue = false := by
  unfold Conn.leave at hpc
  by_cases htx : c.inTransaction = true
  · simp [Conn.holdsCatalogue, hpc, htx]
  · simp [Conn.holdsCatalogue, hpc, htx]

theorem Served.catalogue {line : Str} (h : Served p line c c') : c'.holdsCatalogue = false := by
  cases h with
  | @leave resp hresp hleft =>
      exact leave_catalogue (c := c) rfl
  | _ => rfl

/-- What a step does to `table_lock`. -/
theorem Moves.catalogue (h : Moves p sv c ch effect c') :
    effect.catalogueOp.Legal (fun _ => sv.tableLock) (fun _ => c.holdsCatalogue = true)
      (fun _ => c'.holdsCatalogue = true) := by
  cases h with
  | request hpc hpos hlen h =>
      intro _
      rw [h.catalogue]
      simp [Conn.holdsCatalogue, hpc]
  | eof hpc =>
      intro _
      rw [leave_catalogue (c := c) rfl]
      simp [Conn.holdsCatalogue, hpc]
  | createLock hpc hfree => exact ⟨hfree, fun _ => by simp [Conn.holdsCatalogue]⟩
  | findLock hpc hfree => exact ⟨hfree, fun _ => by simp [Conn.holdsCatalogue]⟩
  | createUnlock hpc hresp =>
      exact ⟨by simp [Conn.holdsCatalogue, hpc], fun _ => by simp [Conn.holdsCatalogue]⟩
  | notFound hpc hresp =>
      exact ⟨by simp [Conn.holdsCatalogue, hpc], fun _ => by simp [Conn.holdsCatalogue]⟩
  | foundNew hpc htx ht =>
      exact ⟨by simp [Conn.holdsCatalogue, hpc], fun _ => by simp [Conn.holdsCatalogue]⟩
  | foundLocked hpc htx ht =>
      exact ⟨by simp [Conn.holdsCatalogue, hpc], fun _ => by simp [Conn.holdsCatalogue]⟩
  | foundAuto hpc htx =>
      exact ⟨by simp [Conn.holdsCatalogue, hpc], fun _ => by simp [Conn.holdsCatalogue]⟩
  | @visit e rest t hpc hmem => cases e <;> exact fun _ => by simp [Conn.holdsCatalogue, hpc]
  | _ => exact fun _ => by simp [Conn.holdsCatalogue, *]

/-! ### Where table pointers come from

A point carries a `Table *` that `find_table` has returned, so the table exists.
-/

theorem Moves.lock_target (h : Moves p sv c ch effect c') {t : TablePtr} (he : effect = .lock t) :
    c.target = some t := by
  cases h with
  | trylock hpc hfree =>
      cases he
      simp [Conn.target, hpc]
  | guardLock hpc hfree =>
      cases he
      simp [Conn.target, hpc]
  | visit hpc hmem => cases ‹Ending› <;> cases he
  | _ => cases he

theorem target_leave (hpc : c'.pc = c.leave) : c'.target = none := by
  unfold Conn.leave at hpc
  by_cases htx : c.inTransaction = true
  · simp [Conn.target, hpc, htx]
  · simp [Conn.target, hpc, htx]

theorem Served.target {line : Str} (h : Served p line c c') : c'.target = none := by
  cases h with
  | leave hresp hleft => exact target_leave (c := c) rfl
  | _ => rfl

theorem Moves.target (h : Moves p sv c ch effect c') {t : TablePtr} (ht : c'.target = some t) :
    c.target = some t ∨ ∃ name, sv.findTable name = some t := by
  cases h with
  | request hpc hpos hlen h =>
      rw [h.target] at ht
      cases ht
  | eof hpc =>
      rw [target_leave (c := c) rfl] at ht
      cases ht
  | findBody hpc => exact .inr ⟨_, ht⟩
  | foundNew hpc htx hnot => exact .inl (by simpa [Conn.target, hpc] using ht)
  | foundAuto hpc htx => exact .inl (by simpa [Conn.target, hpc] using ht)
  | _ => cases ht

/-- A table is only created under a name that is not in the catalogue. -/
theorem Moves.newTable (h : Moves p sv c ch effect c') {name : Str} (he : effect = .newTable name) :
    sv.findTable name = none := by
  cases h with
  | createNew hpc hnew =>
      cases he
      exact hnew
  | visit hpc hmem => cases ‹Ending› <;> cases he
  | _ => cases he

end Step

/-! ### What an effect does to the server

An effect is one call, on one table or on the catalogue, and everything else is the same after
it.
-/

section Apply

variable {sv : Server} {i : ConnId} {effect : Effect} {t : TablePtr}

/-- A table that the call is not about stays as it is. -/
theorem apply_table_ne (ht : effect.call.table ≠ some t)
    (hnew : ∀ name, effect = .newTable name → t ≠ sv.allocated) :
    (sv.apply i effect).tables t = sv.tables t := by
  cases effect with
  | newTable name => exact Function.update_of_ne (hnew name rfl) ..
  | lock u => exact Function.update_of_ne (by rintro rfl; exact ht rfl) ..
  | unlock u => exact Function.update_of_ne (by rintro rfl; exact ht rfl) ..
  | set u key value => exact Function.update_of_ne (by rintro rfl; exact ht rfl) ..
  | commitChanges u => exact Function.update_of_ne (by rintro rfl; exact ht rfl) ..
  | rollbackChanges u => exact Function.update_of_ne (by rintro rfl; exact ht rfl) ..
  | _ => rfl

theorem apply_allocated_le : sv.allocated ≤ (sv.apply i effect).allocated := by
  cases effect with
  | newTable name => exact Nat.le_succ _
  | _ => exact Nat.le_refl _

theorem apply_findTable {name : Str} (h : (sv.apply i effect).findTable name = some t) :
    sv.findTable name = some t ∨ t = sv.allocated ∧ effect = .newTable name := by
  cases effect with
  | newTable new =>
      by_cases hname : name = new
      · subst hname
        have : some sv.allocated = some t := by
          simpa [Server.apply, Server.newTable, Server.findTable] using h
        exact .inr ⟨(Option.some.inj this).symm, rfl⟩
      · exact .inl (by
          simpa [Server.apply, Server.newTable, Server.findTable, AList.lookup_insert_ne hname]
            using h)
  | _ => exact .inl h

theorem apply_tableLock :
    (fun _ : Unit => (sv.apply i effect).tableLock)
      = effect.catalogueOp.apply i fun _ => sv.tableLock := by
  cases effect with
  | lockCatalogue =>
      funext k
      exact (Function.update_self k (some i) fun _ => sv.tableLock).symm
  | unlockCatalogue =>
      funext k
      exact (Function.update_self k none fun _ => sv.tableLock).symm
  | _ => rfl

/-- One component of all tables, after one of them has changed. -/
theorem modifyTable_comp {β : Type} (π : Table → β) (f : Table → Table) :
    (fun u => π ((sv.modifyTable t f).tables u))
      = Function.update (fun u => π (sv.tables u)) t (π (f (sv.tables t))) :=
  Function.comp_update π sv.tables t (f (sv.tables t))

theorem modifyTable_keep {β : Type} (π : Table → β) {f : Table → Table}
    (h : ∀ table, π (f table) = π table) :
    (fun u => π ((sv.modifyTable t f).tables u)) = fun u => π (sv.tables u) := by
  rw [modifyTable_comp, h]
  exact Function.update_eq_self ..

end Apply

/-! ### The protocol's state

The abstraction forgets names and the catalogue, and takes the maps by their lookups.
-/

/-- The tables, their mutexes and the connections as the protocol sees them. -/
def State.abs (s : State) : TwoPhase.State ConnId TablePtr Str Str where
  committed t key := (s.server.tables t).keyValue.lookup key
  pending t key := (s.server.tables t).keyValueTemp.lookup key
  owner t := (s.server.tables t).tableMutex
  view i := (s.conns i).view

/-- A table that does not exist yet. -/
def Table.Fresh (table : Table) : Prop :=
  table.tableMutex = none ∧ ∀ key, table.visible key = none

theorem Table.Fresh.lookup {table : Table} (h : table.Fresh) (key : Str) :
    table.keyValue.lookup key = none ∧ table.keyValueTemp.lookup key = none := by
  have hkey := h.2 key
  unfold Table.visible at hkey
  rw [Option.or_eq_none_iff] at hkey
  exact ⟨hkey.2, hkey.1⟩

section Abs

variable {s : State} {i : ConnId} {effect : Effect}

/-- The three components of the protocol's state after an effect. -/
theorem apply_committed (hfresh : (s.server.tables s.server.allocated).Fresh) :
    (fun t key => ((s.server.apply i effect).tables t).keyValue.lookup key)
      = (s.abs.apply i effect.call).committed := by
  cases effect with
  | newTable name =>
      refine (Function.comp_update (fun table : Table => fun key => table.keyValue.lookup key)
        s.server.tables s.server.allocated { name := name }).trans ?_
      have hkeep : (fun key => (∅ : KeyMap).lookup key)
          = fun key => (s.server.tables s.server.allocated).keyValue.lookup key :=
        funext fun key => (hfresh.lookup key).1.symm
      rw [hkeep]
      exact Function.update_eq_self ..
  | lock u =>
      simp only [Server.apply]
      exact modifyTable_keep (fun table key => table.keyValue.lookup key) (by intro _; rfl)
  | unlock u =>
      simp only [Server.apply]
      exact modifyTable_keep (fun table key => table.keyValue.lookup key) (by intro _; rfl)
  | set u key value =>
      simp only [Server.apply]
      exact modifyTable_keep (fun table key => table.keyValue.lookup key) (by intro _; rfl)
  | rollbackChanges u =>
      simp only [Server.apply]
      exact modifyTable_keep (fun table key => table.keyValue.lookup key) (by intro _; rfl)
  | commitChanges u =>
      refine (modifyTable_comp (fun table key => table.keyValue.lookup key) _).trans ?_
      rw [funext (Table.commitChanges_lookup (s.server.tables u))]
      rfl
  | _ => rfl

theorem apply_pending (hfresh : (s.server.tables s.server.allocated).Fresh) :
    (fun t key => ((s.server.apply i effect).tables t).keyValueTemp.lookup key)
      = (s.abs.apply i effect.call).pending := by
  cases effect with
  | newTable name =>
      refine (Function.comp_update (fun table : Table => fun key => table.keyValueTemp.lookup key)
        s.server.tables s.server.allocated { name := name }).trans ?_
      have hkeep : (fun key => (∅ : KeyMap).lookup key)
          = fun key => (s.server.tables s.server.allocated).keyValueTemp.lookup key :=
        funext fun key => (hfresh.lookup key).2.symm
      rw [hkeep]
      exact Function.update_eq_self ..
  | lock u =>
      simp only [Server.apply]
      exact modifyTable_keep (fun table key => table.keyValueTemp.lookup key) (by intro _; rfl)
  | unlock u =>
      simp only [Server.apply]
      exact modifyTable_keep (fun table key => table.keyValueTemp.lookup key) (by intro _; rfl)
  | set u key value =>
      simp only [Server.apply]
      refine (modifyTable_comp (fun table key => table.keyValueTemp.lookup key) _).trans ?_
      have hinsert : (fun k => ((s.server.tables u).keyValueTemp.insert key value).lookup k)
          = Function.update (fun k => (s.server.tables u).keyValueTemp.lookup k) key (some value) := by
        funext k
        by_cases hk : k = key
        · subst hk
          rw [Function.update_self, AList.lookup_insert]
        · rw [Function.update_of_ne hk, AList.lookup_insert_ne hk]
      exact congrArg _ hinsert
  | rollbackChanges u =>
      exact modifyTable_comp (fun table key => table.keyValueTemp.lookup key) _
  | commitChanges u =>
      exact modifyTable_comp (fun table key => table.keyValueTemp.lookup key) _
  | _ => rfl

theorem apply_mutex (hfresh : (s.server.tables s.server.allocated).Fresh) :
    (fun t => ((s.server.apply i effect).tables t).tableMutex) = (s.abs.apply i effect.call).owner := by
  cases effect with
  | newTable name =>
      refine (Function.comp_update Table.tableMutex s.server.tables s.server.allocated
        { name := name }).trans ?_
      rw [← hfresh.1]
      exact Function.update_eq_self ..
  | lock u =>
      simp only [Server.apply]
      exact modifyTable_comp Table.tableMutex _
  | unlock u =>
      simp only [Server.apply]
      exact modifyTable_comp Table.tableMutex _
  | set u key value =>
      simp only [Server.apply]
      exact modifyTable_keep Table.tableMutex (by intro _; rfl)
  | rollbackChanges u =>
      simp only [Server.apply]
      exact modifyTable_keep Table.tableMutex (by intro _; rfl)
  | commitChanges u =>
      simp only [Server.apply]
      exact modifyTable_keep Table.tableMutex (by intro _; rfl)
  | _ => rfl

end Abs

/-! ### The invariant

Beside the protocol's own invariant there is what it says nothing about; `Stepped` then has
all of one turn in one place, and later files start from it.
-/

structure Inv (s : State) : Prop where
  wf : ∀ i, (s.conns i).WF
  protocol : TwoPhase.Inv s.abs
  /-- `table_lock` has the owner that thinks it has it. -/
  catalogue : Locks.Owned (fun _ : Unit => s.server.tableLock)
    fun i _ => (s.conns i).holdsCatalogue = true
  /-- Table pointers point to tables. -/
  found : ∀ name t, s.server.findTable name = some t → t < s.server.allocated
  target : ∀ i t, (s.conns i).target = some t → t < s.server.allocated
  fresh : ∀ t, s.server.allocated ≤ t → (s.server.tables t).Fresh

/-- A step of the system, taken apart. -/
structure Stepped (p : Platform) (s : State) (a : Turn) (effect : Effect) (c' : Conn)
    (s' : State) : Prop where
  turn : s.turn p a = some (effect, c')
  moves : Moves p s.server (s.conns a.conn) a.choice effect c'
  server : s'.server = s.server.apply a.conn effect
  conns : s'.conns = Function.update s.conns a.conn c'
  terminated : s'.terminated = decide (c'.pc = .terminated)

/-- What the protocol knows of a turn. -/
def State.call (s : State) (a : Turn) (effect : Effect) : Call :=
  (s.conns a.conn).call a.choice effect

section System

variable {p : Platform} {s s' : State} {a : Turn} {effect : Effect} {c' : Conn}

/-- A turn is a step of its connection. -/
theorem step_of_turn (hturn : s.turn p a = some (effect, c')) :
    (s.conns a.conn).step p s.server a.choice = some (effect, c') := by
  unfold State.turn at hturn
  split at hturn
  · cases hturn
  · exact hturn

theorem Inv.moves (h : Inv s) (hturn : s.turn p a = some (effect, c')) :
    Moves p s.server (s.conns a.conn) a.choice effect c' :=
  step_moves (h.wf a.conn) (step_of_turn hturn)

theorem Inv.stepped (h : Inv s) (hstep : s.step p a = some s') :
    ∃ effect c', Stepped p s a effect c' s' := by
  unfold State.step at hstep
  obtain ⟨⟨effect, c'⟩, hturn, rfl⟩ := Option.map_eq_some_iff.mp hstep
  exact ⟨effect, c', hturn, h.moves hturn, rfl, rfl, rfl⟩

namespace Stepped

theorem self (h : Stepped p s a effect c' s') : s'.conns a.conn = c' := by
  rw [h.conns, Function.update_self]

theorem other (h : Stepped p s a effect c' s') {i : ConnId} (hi : i ≠ a.conn) :
    s'.conns i = s.conns i := by
  rw [h.conns, Function.update_of_ne hi]

theorem runs (hst : Stepped p s a effect c' s') :
    (s.conns a.conn).step p s.server a.choice = some (effect, c') :=
  step_of_turn hst.turn

/-- A table stays in the catalogue. -/
theorem findTable (hst : Stepped p s a effect c' s') {name : Str} {t : TablePtr}
    (hfound : s.server.findTable name = some t) : s'.server.findTable name = some t := by
  rw [hst.server]
  cases effect with
  | newTable new =>
      have hne : name ≠ new := by
        rintro rfl
        cases hfound.symm.trans (hst.moves.newTable rfl)
      show (s.server.setOfTable.insert new _).lookup name = some t
      rw [AList.lookup_insert_ne hne]
      exact hfound
  | _ => exact hfound

end Stepped

/-- A connection that is reading can be given any line that fits its buffer. -/
theorem step_recv (p : Platform) {i : ConnId} {line : Str} (hrunning : s.terminated = false)
    (hpc : (s.conns i).pc = .reading) (hpos : 0 < line.length)
    (hlen : line.length ≤ maxEncodedLen - 1) :
    ∃ s', s.step p ⟨i, .recv line⟩ = some s' ∧
      s'.conns i = (s.conns i).chatWithClient p line := by
  have hturn : s.turn p ⟨i, .recv line⟩ = some (.none, (s.conns i).chatWithClient p line) := by
    have hread : (s.conns i).pc = .reading ∧ 0 < line.length ∧ line.length ≤ maxEncodedLen - 1 :=
      ⟨hpc, hpos, hlen⟩
    simp only [State.turn, hrunning, Conn.step, if_pos hread]
    rfl
  exact ⟨_, Option.map_eq_some_iff.mpr ⟨_, hturn, rfl⟩, Function.update_self ..⟩

theorem call_apply (hst : Stepped p s a effect c' s') (i : ConnId) :
    s.abs.apply i (s.call a effect) = s.abs.apply i effect.call := by
  unfold State.call
  rcases hst.moves.call_cases with heq | ⟨rfl, heq⟩
  · rw [heq]
  · rw [heq]
    rfl

theorem call_lock (hst : Stepped p s a effect c' s') {t : TablePtr}
    (h : s.call a effect = .lock t) : effect = .lock t := by
  unfold State.call at h
  rcases hst.moves.call_cases with heq | ⟨-, heq⟩
  · rw [heq] at h
    cases effect <;> cases h
    rfl
  · rw [heq] at h
    cases h

/-- **A turn of the server is a step of the protocol.** -/
theorem Stepped.refines (hst : Stepped p s a effect c' s') (h : Inv s) :
    TwoPhase.Step s.abs a.conn (s.call a effect) s'.abs := by
  have hfresh := h.fresh _ (Nat.le_refl _)
  have hview := hst.moves.view (h.wf a.conn)
  have hstep : TwoPhase.Step s.abs a.conn (s.call a effect)
      { s.abs.apply a.conn (s.call a effect) with
        view := Function.update s.abs.view a.conn c'.view } :=
    .mk hview fun t ht => hst.moves.lock_free (call_lock hst ht)
  have habs : s'.abs = { s.abs.apply a.conn (s.call a effect) with
      view := Function.update s.abs.view a.conn c'.view } := by
    rw [call_apply hst]
    simp only [← apply_committed hfresh, ← apply_pending hfresh, ← apply_mutex hfresh]
    unfold State.abs
    rw [hst.server, hst.conns]
    congr 1
    exact Function.comp_update Conn.view s.conns a.conn c'
  rw [habs]
  exact hstep

theorem Stepped.catalogue (hst : Stepped p s a effect c' s') (h : Inv s) :
    Locks.Owned (fun _ : Unit => s'.server.tableLock)
      fun i _ => (s'.conns i).holdsCatalogue = true := by
  have hholds : (fun i (_ : Unit) => (s'.conns i).holdsCatalogue = true)
      = Function.update (fun i _ => (s.conns i).holdsCatalogue = true) a.conn
        fun _ => c'.holdsCatalogue = true := by
    rw [hst.conns]
    exact Function.comp_update (fun (c : Conn) (_ : Unit) => c.holdsCatalogue = true) s.conns a.conn c'
  rw [hholds, hst.server, apply_tableLock]
  exact h.catalogue.step hst.moves.catalogue

theorem Stepped.target (hst : Stepped p s a effect c' s') (h : Inv s) (i : ConnId) (t : TablePtr)
    (ht : (s'.conns i).target = some t) : t < s'.server.allocated := by
  have hle : s.server.allocated ≤ s'.server.allocated := hst.server ▸ apply_allocated_le
  refine Nat.lt_of_lt_of_le ?_ hle
  by_cases hi : i = a.conn
  · subst hi
    rw [hst.self] at ht
    rcases hst.moves.target ht with htarget | ⟨name, hname⟩
    · exact h.target _ t htarget
    · exact h.found name t hname
  · rw [hst.other hi] at ht
    exact h.target i t ht

/-- The tables that are held exist. -/
theorem Inv.held_lt (h : Inv s) {i : ConnId} {t : TablePtr} (ht : t ∈ (s.conns i).view.held) :
    t < s.server.allocated := by
  by_contra hle
  have hmutex : s.abs.owner t = some i := (h.protocol.owned t i).mpr ht
  have hnone : s.abs.owner t = none := (h.fresh t (Nat.le_of_not_lt hle)).1
  cases hnone.symm.trans hmutex

/-- What is called exists. -/
theorem Stepped.table_lt (hst : Stepped p s a effect c' s') (h : Inv s) {t : TablePtr}
    (ht : (s.call a effect).table = some t) : t < s.server.allocated := by
  rcases (hst.refines h).view.table_held ht with hheld | hlock
  · exact h.held_lt hheld
  · exact h.target _ _ (hst.moves.lock_target (call_lock hst hlock))

theorem Stepped.fresh (hst : Stepped p s a effect c' s') (h : Inv s) (t : TablePtr)
    (ht : s'.server.allocated ≤ t) : (s'.server.tables t).Fresh := by
  have hle : s.server.allocated ≤ s'.server.allocated := hst.server ▸ apply_allocated_le
  obtain ⟨hmutex, hempty⟩ := h.fresh t (Nat.le_trans hle ht)
  have hne : (s.call a effect).table ≠ some t := fun hcall =>
    Nat.not_lt.mpr (Nat.le_trans hle ht) (hst.table_lt h hcall)
  obtain ⟨howner, hc, hp⟩ := (hst.refines h).table_ne hne
  refine ⟨howner.trans hmutex, fun key => ?_⟩
  have hvisible : s'.abs.visible t = s.abs.visible t := TwoPhase.visible_congr hc hp
  exact (congrFun hvisible key).trans (hempty key)

/-- **One turn keeps the invariant.** -/
theorem Stepped.inv (hst : Stepped p s a effect c' s') (h : Inv s) : Inv s' where
  wf i := by
    by_cases hi : i = a.conn
    · subst hi
      rw [hst.self]
      exact hst.moves.wf (h.wf _)
    · rw [hst.other hi]
      exact h.wf i
  protocol := (hst.refines h).inv h.protocol
  catalogue := hst.catalogue h
  found name t ht := by
    rw [hst.server] at ht ⊢
    rcases apply_findTable ht with hfound | ⟨rfl, rfl⟩
    · exact Nat.lt_of_lt_of_le (h.found name t hfound) apply_allocated_le
    · exact Nat.lt_succ_self _
  target := hst.target h
  fresh := hst.fresh h

theorem Inv.step (h : Inv s) (hstep : s.step p a = some s') : Inv s' := by
  obtain ⟨effect, c', hst⟩ := h.stepped hstep
  exact hst.inv h

/-- **Nobody else touches a table one holds.** -/
theorem Stepped.frame (hst : Stepped p s a effect c' s') (h : Inv s) {i : ConnId} {t : TablePtr}
    (hi : i ≠ a.conn) (ht : t ∈ (s.conns i).view.held) :
    s'.server.tables t = s.server.tables t := by
  rw [hst.server]
  refine apply_table_ne (fun hcall => ?_) fun name _ heq => ?_
  · have hcall' : (s.call a effect).table = some t := by
      unfold State.call
      rcases hst.moves.call_cases with heq | ⟨rfl, -⟩
      · rw [heq]
        exact hcall
      · cases hcall
    exact hi ((hst.refines h).caller h.protocol ht hcall')
  · exact absurd (h.held_lt ht) (heq ▸ Nat.lt_irrefl _)

end System

/-- A connection that takes no turn stays as it is. -/
theorem run_untouched {p : Platform} {s s' : State} {turns : List Turn}
    (hrun : Transition.run (State.step p) s turns = some s') {i : ConnId}
    (hi : ∀ a ∈ turns, i ≠ a.conn) : s'.conns i = s.conns i := by
  induction turns generalizing s with
  | nil =>
      cases hrun
      rfl
  | cons a rest ih =>
      obtain ⟨m, hm, hrest⟩ := Transition.run_cons_eq_some.mp hrun
      obtain ⟨⟨effect, c'⟩, -, rfl⟩ := Option.map_eq_some_iff.mp hm
      rw [ih hrest fun b hb => hi b (List.mem_cons_of_mem _ hb)]
      exact Function.update_of_ne (hi a List.mem_cons_self) ..

/-! ### Where runs start

Not only an empty server: whatever tables and committed values it has, as long as nobody is
connected and nothing is locked or pending.
-/

/--
A server that is up, with any tables in its catalogue and anything committed in them, and
nobody connected yet.
-/
structure Boot (s : State) : Prop where
  conns : ∀ i, s.conns i = {}
  unlocked : s.server.tableLock = none ∧ ∀ t, (s.server.tables t).tableMutex = none
  pending : ∀ t, (s.server.tables t).keyValueTemp = ∅
  found : ∀ name t, s.server.findTable name = some t → t < s.server.allocated
  fresh : ∀ t, s.server.allocated ≤ t → (s.server.tables t).keyValue = ∅
  running : s.terminated = false

theorem boot_initial : Boot State.initial where
  conns _ := rfl
  unlocked := ⟨rfl, fun _ => rfl⟩
  pending _ := rfl
  found _ _ := nofun
  fresh _ _ := rfl
  running := rfl

theorem Boot.view {s : State} (h : Boot s) (i : ConnId) : s.abs.view i = .outside := by
  show (s.conns i).view = .outside
  rw [h.conns]
  rfl

theorem Boot.inv {s : State} (h : Boot s) : Inv s where
  wf i := by
    rw [h.conns]
    exact ⟨fun _ => rfl, trivial⟩
  protocol :=
    { wf := fun i => by rw [h.view]; trivial
      owned := fun t i => by
        show _ ↔ t ∈ (s.abs.view i).held
        rw [h.view]
        refine ⟨fun howner => ?_, nofun⟩
        cases (h.unlocked.2 t).symm.trans howner
      clean := fun t _ => funext fun key => by
        show (s.server.tables t).keyValueTemp.lookup key = none
        rw [h.pending]
        rfl }
  catalogue _ i := by
    show s.server.tableLock = some i ↔ (s.conns i).holdsCatalogue = true
    rw [h.unlocked.1, h.conns]
    exact ⟨nofun, nofun⟩
  found := h.found
  target i t ht := by
    rw [h.conns] at ht
    cases ht
  fresh t ht := by
    refine ⟨h.unlocked.2 t, fun key => ?_⟩
    rw [Table.visible_of_clean (h.pending t), h.fresh t ht]
    rfl

/-- **The invariant holds in every reachable state.** -/
theorem Boot.inv_run {p : Platform} {s₀ s : State} {turns : List Turn} (h : Boot s₀)
    (hrun : Transition.run (State.step p) s₀ turns = some s) : Inv s :=
  Transition.run_invariant Inv.step h.inv hrun

end KvServer
