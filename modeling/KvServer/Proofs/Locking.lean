/-
What the invariant says about locking: ownership, pending writes, and no deadlock.

Two statements, each about every state of every run.  `lock_discipline` ties the mutexes
to `locked_tables` and to what is pending; `no_deadlock` is about who can be waiting for
whom, where the catalogue ranks above the tables: a connection that waits for a table's
mutex has none, and one that waits for `table_lock` has only tables.
-/
import KvServer.Proofs.Protocol

namespace KvServer

namespace Conn

/-- The connection still exists. -/
def Live (c : Conn) : Prop := c.pc ≠ .closed

/-- An autocommit GET or SET is executing on the table. -/
def Guards (c : Conn) (t : TablePtr) : Prop :=
  (∃ a, c.pc = .guardCall a t) ∨ c.pc = .guardCommit t ∨ ∃ result, c.pc = .guardUnlock t result

/-- The connection is in a loop over `locked_tables` and has already unlocked the table. -/
def Unlocked (c : Conn) (t : TablePtr) : Prop :=
  (∃ e rest, c.pc = .ending e rest ∧ t ∉ rest) ∨
    ∃ e u rest, c.pc = .endingUnlock e u rest ∧ t ≠ u ∧ t ∉ rest

theorem held_of_locked {c : Conn} (hwf : c.WF) (hlive : c.Live) {t : TablePtr}
    (ht : t ∈ c.lockedTables) : t ∈ c.view.held ∨ c.Unlocked t := by
  have hpoint := hwf.point
  unfold PointOk at hpoint
  have hguard : c.inTransaction ≠ false := fun htx => by
    rw [hwf.idle htx] at ht
    cases ht
  cases hpc : c.pc with
  | closed => exact absurd hpc hlive
  | ending e rest =>
      by_cases hrest : t ∈ rest
      · exact .inl (by simpa [view, hpc, TwoPhase.View.held] using hrest)
      · exact .inr (.inl ⟨e, rest, hpc, hrest⟩)
  | endingUnlock e u rest =>
      by_cases hrest : t = u ∨ t ∈ rest
      · exact .inl (by simpa [view, hpc, TwoPhase.View.held] using hrest)
      · exact .inr (.inr ⟨e, u, rest, hpc, not_or.mp hrest⟩)
  | guardCall a u =>
      rw [hpc] at hpoint
      exact absurd hpoint hguard
  | guardCommit u =>
      rw [hpc] at hpoint
      exact absurd hpoint hguard
  | guardUnlock u result =>
      rw [hpc] at hpoint
      exact absurd hpoint.1 hguard
  | _ =>
      have htx : c.inTransaction = true := by simpa using hguard
      exact .inl (by simpa [view, hpc, htx, TwoPhase.View.held] using ht)

theorem locked_of_dirty {c : Conn} (hwf : c.WF) {t : TablePtr} (ht : t ∈ c.view.dirty) :
    c.Live ∧ t ∈ c.lockedTables ∨ c.Guards t := by
  have hpoint := hwf.point
  unfold PointOk at hpoint
  unfold Live
  cases hpc : c.pc with
  | closed => simp [view, hpc, TwoPhase.View.dirty] at ht
  | guardCall a u => simp [view, hpc, TwoPhase.View.dirty] at ht
  | guardUnlock u result => simp [view, hpc, TwoPhase.View.dirty] at ht
  | guardCommit u =>
      simp only [view, hpc, TwoPhase.View.dirty, Finset.mem_singleton] at ht
      exact .inr (.inr (.inl (ht ▸ hpc)))
  | ending e rest =>
      rw [hpc] at hpoint
      exact .inl ⟨by simp, hpoint.2 (by simpa [view, hpc, TwoPhase.View.dirty] using ht)⟩
  | endingUnlock e u rest =>
      rw [hpc] at hpoint
      have hmem : t ∈ rest := by simpa [view, hpc, TwoPhase.View.dirty] using ht
      exact .inl ⟨by simp, hpoint.2.2 (Finset.mem_insert_of_mem hmem)⟩
  | _ =>
      refine .inl ⟨by simp, ?_⟩
      by_cases htx : c.inTransaction = true
      · simpa [view, hpc, htx, TwoPhase.View.dirty] using ht
      · simp [view, hpc, htx, TwoPhase.View.dirty] at ht

/-- At a plain point a connection has the tables of its set. -/
theorem held_plain {c : Conn} (hwf : c.WF) (h : c.Plain) : c.view.held = c.lockedTables := by
  rw [h]
  split
  · rfl
  · rename_i htx
    rw [hwf.idle (by simpa using htx)]
    rfl

end Conn

/-- The table a call is made on that needs the table's mutex. -/
def Effect.calls : Effect → Option TablePtr
  | .get t _ => some t
  | .set t _ _ => some t
  | .commitChanges t => some t
  | .rollbackChanges t => some t
  | _ => Option.none

/-! ### Ownership and pending writes

`Disciplined` is stated of the server's own state, the mutexes, the sets and the maps; the
views of the protocol do not appear in it.
-/

/-- What is required of locking and of pending writes in one state. -/
structure Disciplined (p : Platform) (s : State) : Prop where
  /-- Between requests a connection has the mutexes of its `locked_tables`. -/
  between : ∀ i t, (s.conns i).pc = .reading →
    ((s.server.tables t).tableMutex = some i ↔ t ∈ (s.conns i).lockedTables)
  /-- No table is in two sets, except that a loop over `locked_tables` leaves a table in
  the set when it has unlocked it. -/
  apart : ∀ i j t, i ≠ j → (s.conns i).Live → (s.conns j).Live →
    t ∈ (s.conns i).lockedTables → t ∈ (s.conns j).lockedTables →
    (s.conns i).Unlocked t ∨ (s.conns j).Unlocked t
  /-- Outside a transaction the set is empty. -/
  idle : ∀ i, (s.conns i).inTransaction = false → (s.conns i).lockedTables = ∅
  /-- Nothing is pending in a table that is in no set and under no guard. -/
  nothingPending : ∀ t, (∀ i, (s.conns i).Live → t ∉ (s.conns i).lockedTables) →
    (∀ i, ¬ (s.conns i).Guards t) → (s.server.tables t).keyValueTemp = ∅
  /-- An autocommit GET reads committed data. -/
  readsCommitted : ∀ i name key t, (s.conns i).pc = .guardCall (.get name key) t →
    (s.server.tables t).keyValueTemp = ∅
  /-- Whoever calls a table has its mutex. -/
  calls : ∀ a effect c' t, s.turn p a = some (effect, c') → effect.calls = some t →
    (s.server.tables t).tableMutex = some a.conn
  /-- Nobody tries to lock a mutex it has. -/
  locks : ∀ i a t, (s.conns i).pc = .trylock a t ∨ (s.conns i).pc = .guardLock a t →
    (s.server.tables t).tableMutex ≠ some i
  /-- Nobody unlocks a mutex it does not have. -/
  unlocks : ∀ a c' t, s.turn p a = some (.unlock t, c') →
    (s.server.tables t).tableMutex = some a.conn

section

variable {p : Platform} {s : State}

theorem Inv.mutex (h : Inv s) {i : ConnId} {t : TablePtr} :
    (s.server.tables t).tableMutex = some i ↔ t ∈ (s.conns i).view.held :=
  h.protocol.owned t i

theorem keyValueTemp_eq_empty {m : KeyMap} (h : ∀ key, m.lookup key = none) : m = ∅ := by
  refine AList.ext ?_
  cases hentries : m.entries with
  | nil => rfl
  | cons pair rest =>
      have hmem : pair.1 ∈ m := by
        rw [AList.mem_keys, AList.keys, hentries]
        exact List.mem_cons_self
      exact absurd hmem (AList.lookup_eq_none.mp (h pair.1))

/-- Whoever makes a call on a table, other than to lock it, has it. -/
theorem Inv.called_held (h : Inv s) {a : Turn} {effect : Effect} {c' : Conn} {t : TablePtr}
    (hturn : s.turn p a = some (effect, c')) (ht : effect.call.table = some t)
    (hlock : effect ≠ .lock t) : t ∈ (s.conns a.conn).view.held := by
  have hmoves := h.moves hturn
  have hview := hmoves.view (h.wf a.conn)
  rcases hmoves.call_cases with heq | ⟨rfl, -⟩
  · rw [heq] at hview
    rcases hview.table_held ht with hheld | he
    · exact hheld
    · refine absurd ?_ hlock
      cases effect <;> cases he
      rfl
  · cases ht

theorem Inv.not_held (h : Inv s) {i : ConnId} {a : Access} {t : TablePtr}
    (hpc : (s.conns i).pc = .trylock a t ∨ (s.conns i).pc = .guardLock a t) :
    t ∉ (s.conns i).view.held := by
  have hpoint := (h.wf i).point
  unfold Conn.PointOk at hpoint
  rcases hpc with hpc | hpc
  · rw [hpc] at hpoint
    simpa [Conn.view, hpc, hpoint.1, TwoPhase.View.held] using hpoint.2
  · rw [hpc] at hpoint
    simp [Conn.view, hpc, hpoint, TwoPhase.View.held]

theorem Inv.disciplined (h : Inv s) : Disciplined p s where
  between i t hpc := by rw [h.mutex, Conn.held_plain (h.wf i) (Conn.plain_reading hpc)]
  apart i j t hne hi hj hti htj := by
    rcases Conn.held_of_locked (h.wf i) hi hti with hheld | hunlocked
    · rcases Conn.held_of_locked (h.wf j) hj htj with hheld' | hunlocked
      · exact absurd (h.protocol.owned.unique hheld hheld') hne
      · exact .inr hunlocked
    · exact .inl hunlocked
  idle i := (h.wf i).idle
  nothingPending t hlocked hguard := by
    refine keyValueTemp_eq_empty (congrFun (h.protocol.clean t fun i hi => ?_))
    rcases Conn.locked_of_dirty (h.wf i) hi with ⟨hlive, ht⟩ | hguards
    · exact hlocked i hlive ht
    · exact hguard i hguards
  readsCommitted i name key t hpc := by
    have hview : s.abs.view i = .guarded t := by
      show (s.conns i).view = _
      simp [Conn.view, hpc]
    refine keyValueTemp_eq_empty (congrFun (h.protocol.clean_held (i := i) (t := t) ?_ ?_))
    · rw [hview]
      exact Finset.mem_singleton_self _
    · rw [hview]
      exact Finset.notMem_empty _
  calls a effect c' t hturn ht := by
    refine h.mutex.mpr (h.called_held hturn ?_ ?_)
    · cases effect <;> first | exact ht | cases ht
    · rintro rfl
      cases ht
  locks i a t hpc hmutex := h.not_held hpc (h.mutex.mp hmutex)
  unlocks a c' t hturn := h.mutex.mpr (h.called_held hturn rfl nofun)

end

/-- **Locks are owned and pending writes accounted for, in every reachable state.** -/
theorem lock_discipline {p : Platform} {s₀ s : State} {turns : List Turn} (hboot : Boot s₀)
    (hrun : Transition.run (State.step p) s₀ turns = some s) : Disciplined p s :=
  (hboot.inv_run hrun).disciplined

/-- A machine on which every overflow traps. -/
def trapping : Platform := ⟨fun _ _ _ => none⟩

/--
Connection 0 commits a transaction that has locked table 0, and connection 1 locks the
table after it has been unlocked and before the loop of `handle_commit` is over.
-/
def handover : List Turn :=
  [⟨0, .recv (bytes "LOGIN a\n")⟩, ⟨0, .recv (bytes "CREATE t\n")⟩, ⟨0, .go⟩, ⟨0, .go⟩, ⟨0, .go⟩,
    ⟨0, .recv (bytes "BEGIN\n")⟩, ⟨0, .recv (bytes "GET t k\n")⟩, ⟨0, .go⟩, ⟨0, .go⟩, ⟨0, .go⟩,
    ⟨0, .go⟩, ⟨0, .go⟩, ⟨0, .recv (bytes "COMMIT\n")⟩, ⟨0, .visit 0⟩, ⟨0, .go⟩,
    ⟨1, .recv (bytes "LOGIN b\n")⟩, ⟨1, .recv (bytes "BEGIN\n")⟩, ⟨1, .recv (bytes "GET t k\n")⟩,
    ⟨1, .go⟩, ⟨1, .go⟩, ⟨1, .go⟩, ⟨1, .go⟩]

theorem lock_discipline_handover :
    ∃ s, Transition.run (State.step trapping) State.initial handover = some s ∧
      Disciplined trapping s := by
  obtain ⟨s, hrun⟩ := Option.isSome_iff_exists.mp
    (show (Transition.run (State.step trapping) State.initial handover).isSome by decide +kernel)
  exact ⟨s, hrun, lock_discipline boot_initial hrun⟩

/-- A table can be in the sets of two connections at once. -/
theorem handover_shared :
    ¬ ∀ (p : Platform) (turns : List Turn) (s : State),
      Transition.run (State.step p) State.initial turns = some s →
      ∀ i j t, i ≠ j → t ∈ (s.conns i).lockedTables → t ∉ (s.conns j).lockedTables := by
  intro h
  have hshared : (Transition.run (State.step trapping) State.initial handover).map
      (fun s => decide (0 ∈ (s.conns 0).lockedTables ∧ 0 ∈ (s.conns 1).lockedTables))
        = some true := by decide +kernel
  obtain ⟨s, hrun, hs⟩ := Option.map_eq_some_iff.mp hshared
  obtain ⟨hzero, hone⟩ := of_decide_eq_true hs
  exact h trapping handover s hrun 0 1 0 (by decide) hzero hone

/-! ### Waiting

There are two kinds of mutex and they are taken in one order only, so the argument of
`Lib/Locks` applies with two ranks.
-/

/-- The mutexes of the server. -/
inductive Mutex
  | catalogue
  | table (t : TablePtr)
  deriving DecidableEq

def Server.owner (sv : Server) : Mutex → Option ConnId
  | .catalogue => sv.tableLock
  | .table t => (sv.tables t).tableMutex

def Conn.Holds (c : Conn) : Mutex → Prop
  | .catalogue => c.holdsCatalogue = true
  | .table t => t ∈ c.view.held

theorem Inv.owned {s : State} (h : Inv s) :
    Locks.Owned s.server.owner fun i => (s.conns i).Holds := by
  intro m i
  cases m with
  | catalogue => exact h.catalogue () i
  | table t => exact h.mutex

/-- The mutex a connection is about to lock, and will wait for if it is taken. -/
def Conn.wants (c : Conn) : Option Mutex :=
  match c.pc with
  | .createLock _ => some .catalogue
  | .findLock _ => some .catalogue
  | .guardLock _ t => some (.table t)
  | _ => none

/-- A connection waits for a mutex. -/
def State.Blocked (s : State) : ConnId → Prop :=
  Locks.Blocked s.server.owner fun i => (s.conns i).wants

/-- One connection waits for another. -/
def State.WaitsFor (s : State) : ConnId → ConnId → Prop :=
  Locks.WaitsFor s.server.owner fun i => (s.conns i).wants

/-- The order in which mutexes are taken. -/
def Mutex.rank : Mutex → Nat
  | .table _ => 0
  | .catalogue => 1

section

variable {s : State}

theorem Inv.wants_table (h : Inv s) {i : ConnId} {t : TablePtr}
    (hwants : (s.conns i).wants = some (.table t)) (m : Mutex) : ¬ (s.conns i).Holds m := by
  have hpoint := (h.wf i).point
  unfold Conn.PointOk at hpoint
  unfold Conn.wants at hwants
  cases hpc : (s.conns i).pc with
  | guardLock a u =>
      rw [hpc] at hpoint
      cases m with
      | catalogue => simp [Conn.Holds, Conn.holdsCatalogue, hpc]
      | table u => simp [Conn.Holds, Conn.view, hpc, hpoint, TwoPhase.View.held]
  | _ => simp [hpc] at hwants

/-- Who has `table_lock` wants nothing. -/
theorem wants_of_holdsCatalogue {c : Conn} (hholds : c.Holds .catalogue) : c.wants = none := by
  unfold Conn.Holds Conn.holdsCatalogue at hholds
  unfold Conn.wants
  cases hpc : c.pc with
  | createLock name => simp [hpc] at hholds
  | findLock a => simp [hpc] at hholds
  | guardLock a t => simp [hpc] at hholds
  | _ => rfl

/-- Whatever a waiting connection has ranks below what it waits for. -/
theorem Inv.rank (h : Inv s) (i : ConnId) (k m : Mutex) (hwants : (s.conns i).wants = some k)
    (hholds : (s.conns i).Holds m) : m.rank < k.rank := by
  cases k with
  | table t => exact absurd hholds (h.wants_table hwants m)
  | catalogue =>
      cases m with
      | table t => exact Nat.zero_lt_one
      | catalogue =>
          rw [wants_of_holdsCatalogue hholds] at hwants
          cases hwants

end

/-- **No deadlock.** -/
theorem no_deadlock {p : Platform} {s₀ s : State} {turns : List Turn} (hboot : Boot s₀)
    (hrun : Transition.run (State.step p) s₀ turns = some s) :
    -- a connection that waits for a table has no mutex at all
    (∀ i t, (s.conns i).wants = some (.table t) → ∀ m, s.server.owner m ≠ some i) ∧
    -- one that has a table waits at most for `table_lock`
    (∀ i t m, s.server.owner (.table t) = some i → (s.conns i).wants = some m → m = .catalogue) ∧
    -- the one that has `table_lock` does not wait
    (∀ i, s.server.owner .catalogue = some i → ¬ s.Blocked i) ∧
    (∀ i, ¬ Relation.TransGen s.WaitsFor i i) ∧
    ∀ i, s.Blocked i → ∃ j, Relation.TransGen s.WaitsFor i j ∧ ¬ s.Blocked j := by
  have h := hboot.inv_run hrun
  refine ⟨fun i t hwants m howner => ?_, fun i t m howner hwants => ?_, fun i howner => ?_,
    Locks.acyclic h.owned h.rank, fun i hblocked => ?_⟩
  · exact h.wants_table hwants m ((h.owned m i).mp howner)
  · cases m with
    | catalogue => rfl
    | table u => exact absurd ((h.owned _ i).mp howner) (h.wants_table hwants _)
  · rintro ⟨k, hwants, -⟩
    have hnone := wants_of_holdsCatalogue ((h.owned _ i).mp howner)
    cases hnone.symm.trans hwants
  · refine Locks.leads_to_unblocked h.owned h.rank (fun k => show k.rank ≤ 1 from ?_) hblocked
    cases k with
    | table t => exact Nat.zero_le 1
    | catalogue => exact Nat.le_refl 1

/-- Connection 1 waits at the guard for the table that connection 0 has in a transaction. -/
def waiting : List Turn :=
  [⟨0, .recv (bytes "LOGIN a\n")⟩, ⟨0, .recv (bytes "CREATE t\n")⟩, ⟨0, .go⟩, ⟨0, .go⟩, ⟨0, .go⟩,
    ⟨0, .recv (bytes "BEGIN\n")⟩, ⟨0, .recv (bytes "GET t k\n")⟩, ⟨0, .go⟩, ⟨0, .go⟩, ⟨0, .go⟩,
    ⟨0, .go⟩, ⟨0, .go⟩, ⟨1, .recv (bytes "LOGIN b\n")⟩, ⟨1, .recv (bytes "GET t k\n")⟩,
    ⟨1, .go⟩, ⟨1, .go⟩, ⟨1, .go⟩]

theorem no_deadlock_waiting :
    ∃ s, Transition.run (State.step trapping) State.initial waiting = some s ∧
      s.WaitsFor 1 0 ∧ ∀ i, ¬ Relation.TransGen s.WaitsFor i i := by
  have hwaits : (Transition.run (State.step trapping) State.initial waiting).map
      (fun s => decide ((s.conns 1).wants = some (.table 0) ∧ s.server.owner (.table 0) = some 0))
        = some true := by decide +kernel
  obtain ⟨s, hrun, hs⟩ := Option.map_eq_some_iff.mp hwaits
  exact ⟨s, hrun, ⟨.table 0, of_decide_eq_true hs⟩, (no_deadlock boot_initial hrun).2.2.2.1⟩

end KvServer
