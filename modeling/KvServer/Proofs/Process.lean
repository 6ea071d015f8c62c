/-
The clients of a server process are served apart from each other.

A number that a worker has been given stays with its connection until the worker closes it, and
until then the kernel gives it to nobody else: numbers and connections go together like mutexes and
their owners (`Sound.owned`).  So what a worker reads are the bytes of its own client, what it
writes goes to that client, and no other descriptor is closed by it.  What `Proofs/Wire` says of
every run on descriptors therefore holds of what the clients send and receive.
-/
import KvServer.Model.Process
import KvServer.Proofs.Wire

namespace KvServer

/-! ### At rest -/

/-- A state in which nobody has a mutex is as good as that of a new server with the same tables. -/
theorem Inv.boot {s : State} (h : Inv s) (hlock : s.server.tableLock = none)
    (hmutex : ∀ t, (s.server.tables t).tableMutex = none) :
    Boot { server := s.server, conns := fun _ => {} } where
  conns _ := rfl
  unlocked := ⟨hlock, hmutex⟩
  pending t := keyValueTemp_eq_empty fun key => congrFun (h.protocol.clean_free (hmutex t)) key
  found := h.found
  fresh t ht := keyValueTemp_eq_empty fun key => ((h.fresh t ht).lookup key).1
  running := rfl

/-! ### What an event moves

An event of the process is at most one of one worker, so only one descriptor and one
connection can have changed after it.
-/

namespace Wire

variable {p : Platform} {w w' : Wire} {e : Event} {a : Turn} {l : Link} {i : ConnId}

/-- The descriptors and connections after an event: all but one are as before, and that one has
moved these bytes. -/
structure Touches (w : Wire) (i : ConnId) (took gave : Str) (w' : Wire) : Prop where
  delivered : (w'.links i).delivered = (w.links i).delivered ++ took
  written : (w'.links i).written = (w.links i).written ++ gave
  links : ∀ j, j ≠ i → w'.links j = w.links j
  conns : ∀ j, j ≠ i → w'.state.conns j = w.state.conns j

theorem setLink_links (w : Wire) (i : ConnId) (l : Link) : (w.setLink i l).links i = l :=
  Function.update_self ..

theorem setLink_other {j : ConnId} (hj : j ≠ i) : (w.setLink i l).links j = w.links j :=
  Function.update_of_ne hj ..

theorem step_other {s s' : State} (hstep : s.step p a = some s') {j : ConnId} (hj : j ≠ a.conn) :
    s'.conns j = s.conns j := by
  obtain ⟨x, -, rfl⟩ := Option.map_eq_some_iff.mp hstep
  exact Function.update_of_ne hj ..

theorem turn_touches {took : Str} (hturn : w.turn p a l = some w')
    (hdelivered : l.delivered = (w.links a.conn).delivered ++ took)
    (hwritten : l.written = (w.links a.conn).written) : w.Touches a.conn took [] w' := by
  obtain ⟨-, -, s, hs, rfl⟩ := turn_eq_some.mp hturn
  refine ⟨?_, ?_, fun j hj => setLink_other hj, fun j hj => step_other hs hj⟩
  · rw [setLink_links]
    exact hdelivered
  · rw [setLink_links, List.append_nil]
    exact hwritten

/-- **What an event moves.** -/
theorem step_touches (h : w.step p e = some w') :
    w.Touches e.conn (e.moved w).1 (e.moved w).2 w' := by
  cases e with
  | readline i buf calls =>
      simp only [step] at h
      split at h
      · exact turn_touches h rfl rfl
      · cases h
  | write i result =>
      simp only [step] at h
      split at h
      · cases h
        refine ⟨?_, ?_, fun j hj => setLink_other hj, fun _ _ => rfl⟩
        · show ((w.setLink i _).links i).delivered = _
          rw [setLink_links]
          exact (List.append_nil _).symm
        · show ((w.setLink i _).links i).written = _
          rw [setLink_links]
          rfl
      · cases h
  | broken i =>
      simp only [step] at h
      split at h
      · cases h
        exact ⟨(List.append_nil _).symm, (List.append_nil _).symm, fun _ _ => rfl, fun _ _ => rfl⟩
      · cases h
  | go i => exact turn_touches (a := ⟨i, .go⟩) h (List.append_nil _).symm rfl
  | visit i t => exact turn_touches (a := ⟨i, .visit t⟩) h (List.append_nil _).symm rfl

end Wire

/-! ### Numbers

A number has an owner from `accept` to `close`. What could go wrong is a worker that uses a
number after it has been closed, and has been given to another client in the meantime; a
worker closes its number last.
-/

/-- The main thread or a worker has the number of the connection's descriptor. -/
def Life.keeps : Life → Bool
  | .made | .served => true
  | .unmade | .deleted => false

section Lives

variable {life : ConnId → Life} {i : ConnId} {l : Life} {m m' : Option ConnId} {n : Nat}

theorem made_update (h : ∀ j, life j = .made ↔ m = some j) (hself : l = .made ↔ m' = some i)
    (hother : ∀ j, j ≠ i → (m' = some j ↔ m = some j)) (j : ConnId) :
    Function.update life i l j = .made ↔ m' = some j := by
  by_cases hj : j = i
  · subst hj
    rw [Function.update_self]
    exact hself
  · rw [Function.update_of_ne hj, hother j hj]
    exact h j

theorem unmade_update (h : ∀ j, life j = .unmade ↔ n ≤ j) (hi : i < n) (hl : l ≠ .unmade)
    (j : ConnId) : Function.update life i l j = .unmade ↔ n ≤ j := by
  by_cases hj : j = i
  · subst hj
    rw [Function.update_self]
    exact ⟨fun hl' => absurd hl' hl, fun hn => absurd hn (Nat.not_le_of_lt hi)⟩
  · rw [Function.update_of_ne hj]
    exact h j

end Lives

namespace Process

/-- What has been opened, and not been closed yet, by its number. -/
def Has (q : Process) : Endpoint → Int → Prop
  | .listening, fd => 0 ≤ fd ∧ q.listenFd = fd
  | .client i, fd => (q.life i).keeps = true ∧ q.clientFd i = fd

/-- What holds of every run of the process. -/
structure Sound (q : Process) : Prop where
  owned : Locks.Owned q.descriptors q.Has
  sockets : ∀ i, q.sockets i = ⟨(q.wire.links i).delivered, (q.wire.links i).written⟩
  starting : q.main = .starting → q.listenFd = -1
  made : ∀ i, q.life i = .made ↔ q.main.making = some i
  unmade : ∀ i, q.life i = .unmade ↔ q.accepted ≤ i
  /-- A connection without a worker has done nothing, or is over. -/
  idle : ∀ i, q.life i ≠ .served → q.wire.state.conns i = {} ∨ (q.wire.state.conns i).pc = .closed

variable {p : Platform} {q q' : Process} {e : Process.Event} {i k : ConnId} {fd : Int}

theorem sound_initial : Sound {} where
  owned fd e := by
    refine ⟨fun h => (by cases h), fun h => ?_⟩
    cases e with
    | listening =>
        obtain ⟨hpos, hfd⟩ := h
        have hfd : (-1 : Int) = fd := hfd
        omega
    | client i => cases h.1
  sockets _ := rfl
  starting _ := rfl
  made i := ⟨fun h => (by cases h), fun h => (by cases h)⟩
  unmade i := ⟨fun _ => Nat.zero_le i, fun _ => rfl⟩
  idle _ _ := .inl rfl

/-- The descriptor of a connection that a thread has is open for its client. -/
theorem Sound.own (h : q.Sound) (hkeeps : (q.life i).keeps = true) :
    q.descriptors (q.clientFd i) = some (.client i) :=
  (h.owned _ _).mpr ⟨hkeeps, rfl⟩

theorem Sound.below (h : q.Sound) (hlife : q.life i ≠ .unmade) : i < q.accepted :=
  Nat.lt_of_not_le fun hle => hlife ((h.unmade i).mpr hle)

theorem Sound.listen {fd : Nat} (h : q.Sound) (hstep : q.listen fd = some q') :
    q'.Sound ∧ q'.wire = q.wire := by
  unfold Process.listen at hstep
  split at hstep
  · obtain ⟨hmain, hfree⟩ := ‹_ ∧ _›
    cases hstep
    have hold := h.starting hmain
    have hmade := h.made
    rw [hmain] at hmade
    refine ⟨⟨?_, h.sockets, fun hno => (by cases hno), hmade, h.unmade, h.idle⟩, rfl⟩
    refine h.owned.step_all (i := .listening) (show (Locks.Op.acquire (fd : Int)).Legal _ _ _ from
      ⟨hfree, fun m => ?_⟩) fun e he k => ?_
    · show 0 ≤ m ∧ (fd : Int) = m ↔ (0 ≤ m ∧ q.listenFd = m) ∨ m = fd
      omega
    · cases e with
      | listening => exact absurd rfl he
      | client i => exact Iff.rfl
  · cases hstep

theorem Sound.listenFails {found : Bool} (h : q.Sound) (hstep : q.listenFails found = some q') :
    q'.Sound ∧ q'.wire = q.wire := by
  unfold Process.listenFails at hstep
  split at hstep
  · rename_i hmain
    have hmade := h.made
    rw [hmain] at hmade
    split at hstep
    · cases hstep
      exact ⟨⟨h.owned, h.sockets, fun hno => (by cases hno), hmade, h.unmade, h.idle⟩, rfl⟩
    · cases hstep
      refine ⟨⟨fun fd e => (h.owned fd e).trans ?_, h.sockets, fun hno => (by cases hno), hmade,
        h.unmade, h.idle⟩, rfl⟩
      cases e with
      | listening =>
          have hold := h.starting hmain
          show 0 ≤ fd ∧ q.listenFd = fd ↔ 0 ≤ fd ∧ -2 = fd
          omega
      | client i => exact Iff.rfl
  · cases hstep

theorem Sound.accept {fd : Nat} (h : q.Sound) (hstep : q.accept fd = some q') :
    q'.Sound ∧ q'.wire = q.wire := by
  unfold Process.accept at hstep
  split at hstep
  · obtain ⟨hmain, -, hfree⟩ := ‹_ ∧ _›
    cases hstep
    have hnew : q.life q.accepted = .unmade := (h.unmade _).mpr (Nat.le_refl _)
    have hmade := h.made
    rw [hmain] at hmade
    refine ⟨⟨?_, h.sockets, fun hno => (by cases hno),
      made_update hmade (by simp [MainPc.making]) fun j hj => ?_, fun j => ?_, fun j hj => ?_⟩, rfl⟩
    · refine h.owned.step_all (i := .client q.accepted)
        (show (Locks.Op.acquire (fd : Int)).Legal _ _ _ from ⟨hfree, fun m => ?_⟩) fun e he k => ?_
      · simp [Has, hnew, Life.keeps, eq_comm]
      · cases e with
        | listening => exact Iff.rfl
        | client i =>
            have hi : i ≠ q.accepted := fun hi => he (by rw [hi])
            simp [Has, Function.update_of_ne hi]
    · simp [MainPc.making, Ne.symm hj]
    · show Function.update q.life q.accepted Life.made j = Life.unmade ↔ q.accepted + 1 ≤ j
      by_cases hj : j = q.accepted
      · simp [hj]
      · rw [Function.update_of_ne hj, h.unmade j]
        exact ⟨fun hle => Nat.lt_of_le_of_ne hle (Ne.symm hj), fun hlt => Nat.le_of_lt hlt⟩
    · refine h.idle j fun hserved => hj ?_
      have hne : j ≠ q.accepted := fun heq => by
        rw [heq, hnew] at hserved
        cases hserved
      exact (Function.update_of_ne hne ..).trans hserved
  · cases hstep

theorem Sound.acceptFails (h : q.Sound) (hstep : q.acceptFails = some q') :
    q'.Sound ∧ q'.wire = q.wire := by
  unfold Process.acceptFails at hstep
  split at hstep
  · rename_i hmain
    have hmade := h.made
    rw [hmain] at hmade
    cases hstep
    exact ⟨⟨h.owned, h.sockets, fun hno => (by cases hno), hmade, h.unmade, h.idle⟩, rfl⟩
  · cases hstep

theorem Sound.create {ok : Bool} (h : q.Sound) (hstep : q.create ok = some q') :
    q'.Sound ∧ q'.wire = q.wire := by
  unfold Process.create at hstep
  split at hstep
  · rename_i i hmain
    have hmade := h.made
    rw [hmain] at hmade
    have hlife : q.life i = .made := (hmade i).mpr rfl
    split at hstep
    · cases hstep
      refine ⟨⟨fun fd e => (h.owned fd e).trans ?_, h.sockets, fun hno => (by cases hno),
        made_update hmade (by simp [MainPc.making]) fun j hj => (by simp [MainPc.making, Ne.symm hj]),
        unmade_update h.unmade (h.below (by simp [hlife])) (by simp), fun j hj => ?_⟩, rfl⟩
      · cases e with
        | listening => exact Iff.rfl
        | client j =>
            by_cases hj : j = i
            · simp [Has, hj, hlife, Life.keeps]
            · simp [Has, Function.update_of_ne hj]
      · refine h.idle j fun hserved => hj ?_
        have hne : j ≠ i := fun heq => by
          rw [heq, hlife] at hserved
          cases hserved
        exact (Function.update_of_ne hne ..).trans hserved
    · cases hstep
      exact ⟨⟨h.owned, h.sockets, fun hno => (by cases hno), hmade, h.unmade, h.idle⟩, rfl⟩
  · cases hstep

/-- A thread that has a connection deletes it. -/
theorem Sound.delete {main : MainPc} (h : q.Sound) (hkeeps : (q.life i).keeps = true)
    (hidle : q.wire.state.conns i = {} ∨ (q.wire.state.conns i).pc = .closed)
    (hstarting : main = .starting → q.listenFd = -1)
    (hmaking : ∀ j, main.making = some j ↔ q.main.making = some j ∧ j ≠ i) :
    { q.delete i with main := main }.Sound := by
  refine ⟨?_, h.sockets, hstarting,
    made_update h.made (by simp [hmaking]) fun j hj => (by simp [hmaking, hj]),
    unmade_update h.unmade (h.below ?_) (by simp), fun j hj => ?_⟩
  · refine h.owned.step_all (i := .client i)
      (show (Locks.Op.release (q.clientFd i)).Legal _ _ _ from ⟨⟨hkeeps, rfl⟩, fun m => ?_⟩)
      fun e he k => ?_
    · show (Function.update q.life i Life.deleted i).keeps = true ∧ q.clientFd i = m ↔ _
      rw [Function.update_self]
      exact ⟨fun hno => (by cases hno.1), fun ⟨⟨_, hfd⟩, hne⟩ => absurd hfd.symm hne⟩
    · cases e with
      | listening => exact Iff.rfl
      | client j =>
          have hj : j ≠ i := fun hj => he (by rw [hj])
          simp [Has, Process.delete, Function.update_of_ne hj]
  · rintro hno
    rw [hno] at hkeeps
    cases hkeeps
  · by_cases hji : j = i
    · subst hji
      exact hidle
    · exact h.idle j fun hserved => hj ((Function.update_of_ne hji ..).trans hserved)

/-- **A worker's event** moves bytes of its own client. -/
theorem Sound.worker {e : KvServer.Event} (h : q.Sound) (hstep : q.worker p e = some q') :
    q'.Sound ∧ q.wire.step p e = some q'.wire := by
  unfold Process.worker at hstep
  split at hstep
  · rename_i hlife
    obtain ⟨w, hw, htransfer⟩ := Option.bind_eq_some_iff.mp hstep
    have hown := h.own (i := e.conn) (by rw [hlife]; rfl)
    unfold Process.transfer at htransfer
    rw [hown] at htransfer
    cases htransfer
    have htouches := Wire.step_touches hw
    refine ⟨⟨h.owned, fun j => ?_, h.starting, h.made, h.unmade, fun j hj => ?_⟩, hw⟩
    · by_cases hj : j = e.conn
      · subst hj
        show Function.update q.sockets e.conn _ e.conn = _
        rw [Function.update_self, h.sockets, htouches.delivered, htouches.written]
      · show Function.update q.sockets e.conn _ j = _
        rw [Function.update_of_ne hj, h.sockets, htouches.links j hj]
    · have hne : j ≠ e.conn := fun heq => hj (by rw [heq]; exact hlife)
      show w.state.conns j = {} ∨ (w.state.conns j).pc = .closed
      rw [htouches.conns j hne]
      exact h.idle j hj
  · cases hstep

/-- **An event** keeps all that, and is an event on descriptors or none. -/
theorem Sound.step (h : q.Sound) (hstep : q.step p e = some q') :
    q'.Sound ∧ ∃ events, Transition.run (Wire.step p) q.wire events = some q'.wire := by
  have hnone : q'.Sound ∧ q'.wire = q.wire →
      q'.Sound ∧ ∃ events, Transition.run (Wire.step p) q.wire events = some q'.wire :=
    fun ⟨hsound, hwire⟩ => ⟨hsound, [], congrArg some hwire.symm⟩
  unfold Process.step at hstep
  split at hstep
  · cases e with
    | listen fd => exact hnone (h.listen hstep)
    | listenFails found => exact hnone (h.listenFails hstep)
    | accept fd => exact hnone (h.accept hstep)
    | acceptFails => exact hnone (h.acceptFails hstep)
    | create ok => exact hnone (h.create hstep)
    | delete =>
        simp only at hstep
        split at hstep
        · rename_i i hmain
          cases hstep
          have hlife : q.life i = .made := (h.made i).mpr (by rw [hmain]; rfl)
          refine hnone ⟨h.delete (by rw [hlife]; rfl) (h.idle i (by simp [hlife])) (by simp) ?_, rfl⟩
          simp [hmain, MainPc.making]
        · cases hstep
    | worker event =>
        obtain ⟨hsound, hwire⟩ := h.worker hstep
        exact ⟨hsound, [event], Transition.run_cons_eq_some.mpr ⟨_, hwire, rfl⟩⟩
    | close i =>
        simp only at hstep
        split at hstep
        · obtain ⟨hlife, hpc, -⟩ := ‹_ ∧ _›
          cases hstep
          have hdeleted : ({ q.delete i with main := q.main } : Process).Sound := by
            refine h.delete (by rw [hlife]; rfl) (.inr hpc) h.starting fun j =>
              ⟨fun hj => ⟨hj, ?_⟩, And.left⟩
            rintro rfl
            cases ((h.made j).mpr hj).symm.trans hlife
          exact hnone ⟨hdeleted, rfl⟩
        · cases hstep
  · cases hstep

/-- **A run of the process** is sound, and a run on descriptors. -/
theorem sound_run {events : List Process.Event}
    (hrun : Transition.run (step p) {} events = some q) :
    q.Sound ∧ ∃ events, Transition.run (Wire.step p) .initial events = some q.wire := by
  refine ⟨Transition.run_invariant (fun h hstep => (Sound.step h hstep).1) sound_initial hrun, ?_⟩
  have hsim : ∀ {v : Process} {w : Wire} {e : Process.Event} {v' : Process},
      v.Sound ∧ v.wire = w → v.step p e = some v' →
      ∃ events w', Transition.run (Wire.step p) w events = some w' ∧ v'.Sound ∧ v'.wire = w' := by
    rintro v w e v' ⟨hv, rfl⟩ hstep
    obtain ⟨hsound, events, hevents⟩ := hv.step hstep
    exact ⟨events, _, hevents, hsound, rfl⟩
  obtain ⟨events, w, hevents, -, rfl⟩ :=
    Transition.run_simulates (R := fun v w => v.Sound ∧ v.wire = w) hsim ⟨sound_initial, rfl⟩ hrun
  exact ⟨events, hevents⟩

/--
**Clients are served apart from each other**, although descriptors have numbers that are used again
and again: a number is for client `k` from `accept` to `close`, and for nobody else then; what
connection `k` executes are requests that client `k` has sent, and what that client receives are
the responses to them.
-/
theorem clients_served_apart {events : List Process.Event}
    (hrun : Transition.run (step p) {} events = some q) (k : ConnId) :
    let c := q.wire.state.conns k
    let l := q.wire.links k
    let s := q.sockets k
    (∀ fd, q.descriptors fd = some (.client k) ↔ (q.life k).keeps = true ∧ q.clientFd k = fd) ∧
    c.executed <+: KvServer.accepted false (streamLines s.taken) ∧
    (c.pc = .closed → l.readFailed = false →
      c.executed = KvServer.accepted false (streamLines s.taken)) ∧
    (s.given ++ l.outgoing).Sublist c.sent.flatten ∧
    (l.writeFailed = false →
      s.given ++ l.outgoing = c.sent.flatten ∧ streamLines s.given <+: c.sent) := by
  obtain ⟨hsound, events, hevents⟩ := sound_run hrun
  obtain ⟨hwire, turns, hturns⟩ := Wire.sound_run hevents
  have hcarries := hwire.carries k
  have hsends := hwire.sends k
  rw [hsound.sockets k]
  refine ⟨fun fd => hsound.owned fd _, hcarries.begun, fun hpc hread => ?_, hsends.sublist,
    fun hwrite => ⟨hsends.whole hwrite, ?_⟩⟩
  · exact (hcarries.gone (by rw [hpc]; rfl) hread).gone (by rw [hpc]; rfl)
  · have hpart := streamLines_prefix (q.wire.links k).written (q.wire.links k).outgoing
    rwa [hsends.whole hwrite, streamLines_flatten (speaks_run hturns k).sent] at hpart

/-- A connection without a thread has no mutex. -/
theorem Sound.holds_nothing (h : q.Sound) (hinv : Inv q.wire.state) (hgone : (q.life i).keeps = false) :
    q.wire.state.server.tableLock ≠ some i ∧
      ∀ t, (q.wire.state.server.tables t).tableMutex ≠ some i := by
  have hidle := h.idle i fun hserved => by
    rw [hserved] at hgone
    cases hgone
  have hview : (q.wire.state.conns i).view.held = ∅ := by
    rcases hidle with hnew | hpc
    · rw [hnew]
      rfl
    · rw [Conn.view, hpc]
      rfl
  have hcatalogue : (q.wire.state.conns i).holdsCatalogue = false := by
    rcases hidle with hnew | hpc
    · rw [hnew]
      rfl
    · rw [Conn.holdsCatalogue, hpc]
  refine ⟨fun hlock => ?_, fun t hmutex => ?_⟩
  · cases hcatalogue.symm.trans ((hinv.catalogue () i).mp hlock)
  · have hheld := hinv.mutex.mp hmutex
    rw [hview] at hheld
    cases hheld

/--
**Sessions leave nothing behind.**  A connection that has been deleted has no descriptor and no
mutex; when no connection is left, no descriptor is open but the listening one, and the server is as
good as one that has just been started on the tables.
-/
theorem sessions_leave_nothing {events : List Process.Event}
    (hrun : Transition.run (step p) {} events = some q) :
    (∀ i, (q.life i).keeps = false → (∀ fd, q.descriptors fd ≠ some (.client i)) ∧
      q.wire.state.server.tableLock ≠ some i ∧
      ∀ t, (q.wire.state.server.tables t).tableMutex ≠ some i) ∧
    ((∀ i, (q.life i).keeps = false) →
      (∀ fd e, q.descriptors fd = some e → e = .listening ∧ q.listenFd = fd) ∧
      Boot { server := q.wire.state.server, conns := fun _ => {} }) := by
  obtain ⟨hsound, events, hevents⟩ := sound_run hrun
  have hinv := (Wire.sound_run hevents).1.stored.inv
  have hnothing := fun i hgone => hsound.holds_nothing (i := i) hinv hgone
  refine ⟨fun i hgone => ⟨fun fd hfd => ?_, hnothing i hgone⟩, fun hover => ⟨fun fd e hfd => ?_, ?_⟩⟩
  · cases hgone.symm.trans ((hsound.owned fd _).mp hfd).1
  · have hhas := (hsound.owned fd e).mp hfd
    cases e with
    | listening => exact ⟨rfl, hhas.2⟩
    | client i => cases (hover i).symm.trans hhas.1
  · refine hinv.boot ?_ fun t => ?_
    · exact Option.eq_none_iff_forall_ne_some.mpr fun i => (hnothing i (hover i)).1
    · exact Option.eq_none_iff_forall_ne_some.mpr fun i => (hnothing i (hover i)).2 t

/-- Client 0 logs in and hangs up; no thread can be started for client 1, and client 2 is there when
both have gone.  All of them have had number 4. -/
def reused : List Process.Event :=
  [.listen 3, .accept 4, .create true,
    .worker (.readline 0 [] [.data ⟨bytes "LOGIN a\n", by decide, by decide⟩]),
    .worker (.write 0 (.wrote 3 (by decide))), .worker (.readline 0 [] [.eof]), .close 0,
    .accept 4, .create false, .delete, .accept 4, .create true,
    .worker (.readline 2 [] [.data ⟨bytes "LOGIN b\nPO", by decide, by decide⟩]),
    .worker (.write 2 (.wrote 3 (by decide)))]

theorem clients_served_apart_reused :
    ∃ q, Transition.run (step trapping) {} reused = some q ∧
      q.descriptors 4 = some (.client 2) ∧ q.sockets 2 = ⟨bytes "LOGIN b\nPO", bytes "OK\n"⟩ ∧
      (q.wire.state.conns 2).executed
        <+: KvServer.accepted false (streamLines (q.sockets 2).taken) := by
  have hstate : (Transition.run (step trapping) {} reused).map (fun q =>
      (q.life 2, q.clientFd 2, q.sockets 2))
      = some (.served, 4, ⟨bytes "LOGIN b\nPO", bytes "OK\n"⟩) := by decide +kernel
  obtain ⟨q, hrun, hq⟩ := Option.map_eq_some_iff.mp hstate
  simp only [Prod.mk.injEq] at hq
  obtain ⟨hlife, hfd, hsocket⟩ := hq
  obtain ⟨hnumber, hexecuted, -⟩ := clients_served_apart hrun 2
  exact ⟨q, hrun, (hnumber 4).mpr ⟨by rw [hlife]; rfl, hfd⟩, hsocket, hexecuted⟩

/-- Clients 0 and 1 have gone. -/
theorem sessions_leave_nothing_gone :
    ∃ q, Transition.run (step trapping) {} (reused.take 10) = some q ∧ q.accepted = 2 ∧
      Boot { server := q.wire.state.server, conns := fun _ => {} } := by
  have hstate : (Transition.run (step trapping) {} (reused.take 10)).map (fun q =>
      (q.accepted, q.life 0, q.life 1)) = some (2, .deleted, .deleted) := by decide +kernel
  obtain ⟨q, hrun, hq⟩ := Option.map_eq_some_iff.mp hstate
  simp only [Prod.mk.injEq] at hq
  obtain ⟨haccepted, hfirst, hsecond⟩ := hq
  refine ⟨q, hrun, haccepted, ((sessions_leave_nothing hrun).2 fun i => ?_).2⟩
  match i with
  | 0 => rw [hfirst]; rfl
  | 1 => rw [hsecond]; rfl
  | i + 2 =>
      rw [((sound_run hrun).1.unmade (i + 2)).mpr (by rw [haccepted]; exact Nat.le_add_left 2 i)]
      rfl

end Process

end KvServer
