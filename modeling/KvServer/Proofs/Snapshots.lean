/-
Transactions see snapshots, whether they commit or not.

Strict serializability is about what has been answered once everybody is done.  Here the serial
order is that of any moment of a run: a transaction that is still open, and may yet be given up,
has so far read what it would have read at the end of that order, and no two of its reads
contradict each other.
-/
import KvServer.Lib.Snapshot
import KvServer.Proofs.Endings
import KvServer.Proofs.Serializability

namespace KvServer

/-- In a transaction, and not in one of the loops that end it. -/
def Conn.Running (c : Conn) : Prop :=
  c.inTransaction = true ∧ c.pc.loop = none ∧ c.pc ≠ .closed

instance (c : Conn) : Decidable c.Running := by unfold Conn.Running; infer_instance

theorem Conn.WF.running_iff {c : Conn} (hwf : c.WF) :
    c.Running ↔ c.view = .inside c.lockedTables := by
  have hpoint := hwf.point
  unfold Conn.PointOk at hpoint
  unfold Conn.Running Conn.view
  cases hpc : c.pc <;> rw [hpc] at hpoint <;> by_cases htx : c.inTransaction = true <;>
    simp_all [Pc.loop]

/-- What has been decided at a moment of a run, in an order that explains it: the transactions
that have begun to commit and the single operations that have been carried out. -/
structure SerialSoFar (σ₀ : TablePtr × Str → Option Str) (s : State) (h : History)
    (order : List (TwoPhase.Entry ConnId TablePtr Str Str)) : Prop where
  agrees : Replay.Agrees σ₀ (TwoPhase.replay order)
  counts : Replay.final σ₀ (TwoPhase.replay order) = s.abs.data
  answered : (order.filterMap TwoPhase.Entry.item).Perm h.answered
  deciding : ∀ e ∈ order, e.reply = none → (s.conns e.party).pc.decided = true
  realTime : order.Pairwise fun e f => ∀ r, f.reply = some r → ¬ r < e.session.began

section

variable {p : Platform} {s₀ s s' : State} {h h' : History} {a : Turn} {turns : List Turn}
  {σ : TablePtr × Str → Option Str}

/-- What holds of a state and its history, pending writes included. -/
structure Watched (σ : TablePtr × Str → Option Str) (s : State) (h : History) : Prop where
  recorded : Recorded σ s h
  own : TwoPhase.OwnWrites s.abs h

theorem Watched.step (hw : Watched σ s h)
    (hstep : Transition.recorded (State.step p) (noteHistory p) (s, h) a = some (s', h')) :
    Watched σ s' h' := by
  refine ⟨hw.recorded.step hstep, ?_⟩
  obtain ⟨hturn, rfl⟩ := Transition.recorded_eq_some.mp hstep
  obtain ⟨effect, c', hst⟩ := hw.recorded.inv.stepped hturn
  rw [hst.history]
  exact hw.own.step (hst.refines hw.recorded.inv) hw.recorded.inv.protocol hw.recorded.sessions

theorem Boot.watched (hboot : Boot s) : Watched s.committed s {} where
  recorded := hboot.recorded
  own i locked hview := by
    rw [hboot.view] at hview
    cases hview

theorem Boot.watched_run (hboot : Boot s₀)
    (hrun : Transition.run (Transition.recorded (State.step p) (noteHistory p)) (s₀, {}) turns
      = some (s, h)) : Watched s₀.committed s h :=
  Transition.run_invariant (I := fun x : State × History => Watched s₀.committed x.1 x.2)
    (fun {_ _ _} => Watched.step) hboot.watched hrun

theorem Recorded.view_inside (hr : Recorded σ s h) {i : ConnId} (hi : (s.conns i).Running) :
    s.abs.view i = .inside (s.conns i).lockedTables :=
  (hr.inv.wf i).running_iff.mp hi

/--
**Every transaction sees a snapshot.**  At every moment of every run there is a serial order of
what has been decided, and each transaction that is still open has had the answers it would have
had after all of that; what it sees in the tables it has locked is what its own writes then make
of them.
-/
theorem transactions_see_snapshots (hboot : Boot s₀)
    (hrun : Transition.run (Transition.recorded (State.step p) (noteHistory p)) (s₀, {}) turns
      = some (s, h)) :
    ∃ order, SerialSoFar s₀.committed s h order ∧ ∀ i, (s.conns i).Running →
      Replay.Agrees s₀.committed (TwoPhase.replay order ++ (h.session i).ops) ∧
        ∀ t ∈ (s.conns i).lockedTables, ∀ key,
          Replay.final s₀.committed (TwoPhase.replay order ++ (h.session i).ops) (t, key)
            = (s.server.tables t).visible key := by
  have hr := (hboot.watched_run hrun).recorded
  obtain ⟨log, hlog⟩ := hr.logged
  refine ⟨log, ?_, fun i hi => hlog.inside hr.sessions (hr.view_inside hi)⟩
  exact
    { agrees := hlog.agrees
      counts := hlog.final
      answered := hlog.answered
      deciding := fun e he hreply =>
        (view_decided (s.conns e.party)).symm.trans (hlog.waiting e he hreply).1
      realTime := hlog.realTime }

/-- What an answered transaction or operation did agrees with some store. -/
theorem Recorded.item_coherent (hr : Recorded σ s h) {item : Item} (hitem : item ∈ h.answered) :
    Replay.Coherent item.ops := by
  obtain ⟨log, hlog⟩ := hr.logged
  obtain ⟨e, he, heq⟩ := List.mem_filterMap.mp (hlog.answered.mem_iff.mpr hitem)
  obtain ⟨r, -, rfl⟩ := Option.map_eq_some_iff.mp heq
  obtain ⟨before, after, rfl⟩ := List.append_of_mem he
  have hagrees := hlog.agrees
  rw [TwoPhase.replay, List.flatMap_append, List.flatMap_cons] at hagrees
  exact (Replay.agrees_append.mp (Replay.agrees_append.mp hagrees).2).1.coherent

/--
**Reads are repeatable, and find the transaction's own writes.**  In a transaction, committed or
still open, a GET that is not the first operation on its key brings its client what the operation
before it on that key has read or written.
-/
theorem reads_coherent (hboot : Boot s₀)
    (hrun : Transition.run (Transition.recorded (State.step p) (noteHistory p)) (s₀, {}) turns
      = some (s, h)) :
    (∀ item ∈ h.answered, Replay.Coherent item.ops) ∧
      ∀ i, (s.conns i).Running → Replay.Coherent (h.session i).ops := by
  have hr := (hboot.watched_run hrun).recorded
  exact ⟨fun item => hr.item_coherent,
    fun i hi => (hr.sessions.inside i _ (hr.view_inside hi)).agrees.coherent⟩

end

/-- Connection 0 has written a key of its new table and reads it back, in a transaction that is
still open. -/
def rereads : List Turn :=
  [⟨0, .recv (bytes "LOGIN a\n")⟩, ⟨0, .recv (bytes "CREATE t\n")⟩, ⟨0, .go⟩, ⟨0, .go⟩, ⟨0, .go⟩,
    ⟨0, .recv (bytes "BEGIN\n")⟩, ⟨0, .recv (bytes "PUSH 7\n")⟩, ⟨0, .recv (bytes "SET t k\n")⟩,
    ⟨0, .go⟩, ⟨0, .go⟩, ⟨0, .go⟩, ⟨0, .go⟩, ⟨0, .go⟩, ⟨0, .recv (bytes "GET t k\n")⟩, ⟨0, .go⟩,
    ⟨0, .go⟩, ⟨0, .go⟩, ⟨0, .go⟩]

theorem rereads_run :
    ∃ s h, Transition.run (Transition.recorded (State.step ⟨fun _ _ _ => none⟩)
        (noteHistory ⟨fun _ _ _ => none⟩)) (State.initial, {}) rereads = some (s, h) ∧
      (s.conns 0).Running ∧ (s.conns 0).lockedTables = {0} ∧
      (s.server.tables 0).visible (bytes "k") = some (bytes "7") ∧
      (h.session 0).ops
        = [.write (0, bytes "k") (bytes "7"), .read (0, bytes "k") (some (bytes "7"))] := by
  have hdone : (Transition.run (Transition.recorded (State.step ⟨fun _ _ _ => none⟩)
      (noteHistory ⟨fun _ _ _ => none⟩)) (State.initial, {}) rereads).map
        (fun x => decide ((x.1.conns 0).Running ∧ (x.1.conns 0).lockedTables = {0} ∧
          (x.1.server.tables 0).visible (bytes "k") = some (bytes "7") ∧ (x.2.session 0).ops
            = [.write (0, bytes "k") (bytes "7"), .read (0, bytes "k") (some (bytes "7"))]))
        = some true := by
    decide +kernel
  obtain ⟨⟨s, h⟩, hrun, hx⟩ := Option.map_eq_some_iff.mp hdone
  exact ⟨s, h, hrun, of_decide_eq_true hx⟩

theorem transactions_see_snapshots_reread :
    ∃ s h order, SerialSoFar State.initial.committed s h order ∧
      Replay.final State.initial.committed (TwoPhase.replay order ++ (h.session 0).ops) (0, bytes "k")
        = some (bytes "7") := by
  obtain ⟨s, h, hrun, hopen, hlocked, hvisible, -⟩ := rereads_run
  obtain ⟨order, horder, hsees⟩ := transactions_see_snapshots boot_initial hrun
  obtain ⟨-, hfinal⟩ := hsees 0 hopen
  exact ⟨s, h, order, horder, (hfinal 0 (by simp [hlocked]) (bytes "k")).trans hvisible⟩

theorem reads_coherent_reread :
    ∃ s h, Transition.run (Transition.recorded (State.step ⟨fun _ _ _ => none⟩)
        (noteHistory ⟨fun _ _ _ => none⟩)) (State.initial, {}) rereads = some (s, h) ∧
      (h.session 0).ops
        = [.write (0, bytes "k") (bytes "7"), .read (0, bytes "k") (some (bytes "7"))] ∧
      Replay.Coherent (h.session 0).ops := by
  obtain ⟨s, h, hrun, hopen, -, -, hops⟩ := rereads_run
  exact ⟨s, h, hrun, hops, (reads_coherent boot_initial hrun).2 0 hopen⟩

end KvServer
