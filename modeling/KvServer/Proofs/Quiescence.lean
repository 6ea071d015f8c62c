/-
What requests cost, and where the server comes to rest.

A line is worth eight turns of its connection, those of a SET outside a transaction: what a
request in a transaction does not use of them is put aside (`Proofs/Work`).  Without further
input the turns therefore come to an end, and they end with every line answered, unless its
connection waits for a table that somebody keeps in an open transaction.
-/
import KvServer.Lib.Potential
import KvServer.Proofs.Yields

namespace KvServer

/-! ### The cost of a line

The work of `Proofs/Work` is the potential and the lines read are the credit of `run_cost`. A
turn of another connection changes neither.
-/

section Cost

variable {p : Platform} {s₀ s s' : State} {turns : List Turn} {i : ConnId}

theorem Stepped.work {a : Turn} {effect : Effect} {c' : Conn} (hst : Stepped p s a effect c' s')
    (i : ConnId) :
    (if a.conn = i then 1 else 0) + ((s'.conns i).work + (s'.conns i).farewell)
        + 8 * (s.conns i).received.length
      ≤ 8 * (s'.conns i).received.length + ((s.conns i).work + (s.conns i).farewell) := by
  by_cases hi : a.conn = i
  · subst hi
    have hpaid := hst.moves.work
    rw [hst.self, hst.moves.received, List.length_append, if_pos rfl]
    omega
  · rw [hst.other fun heq => hi heq.symm, if_neg hi]
    omega

/--
**A line costs at most eight turns**, and the end of the input two: for every connection, in any
run, whatever the others do.
-/
theorem line_costs_eight (hboot : Boot s₀) (hrun : Transition.run (State.step p) s₀ turns = some s)
    (i : ConnId) :
    turns.countP (fun a => a.conn = i) + (s.conns i).work
      ≤ 8 * (s.conns i).received.length + 2 := by
  have hcost := Transition.run_cost (I := Inv) (Q := fun _ => True) (P := fun a => a.conn = i)
    (Φ := fun m => (m.conns i).work + (m.conns i).farewell)
    (Γ := fun m => 8 * (m.conns i).received.length)
    (fun hm _ hstep => hm.step hstep)
    (fun {m a m'} hm _ hstep => by
      obtain ⟨effect, c', hst⟩ := hm.stepped hstep
      simpa using hst.work i)
    hboot.inv (fun _ _ => trivial) hrun
  have hstart : s₀.conns i = {} := hboot.conns i
  simp only [hstart] at hcost
  exact Nat.le_trans (by omega) (Nat.le_trans hcost (Nat.le_refl _))

end Cost

/-! ### Rest

When nobody can take a turn of its own, whoever has a mutex keeps it, so it is that of a table in
an open transaction. Its owner could only wait for the catalogue, which nobody keeps; so it is
between requests.
-/

/-- The connection has answered all it has read, or it waits for a table that another one, which
has nothing to do, keeps in an open transaction. -/
def State.Resting (s : State) (i : ConnId) : Prop :=
  ((s.conns i).pc = .reading ∨ (s.conns i).pc = .closed) ∧
      (s.conns i).sent.length = (s.conns i).received.length ∨
    ∃ a t j, (s.conns i).pc = .guardLock a t ∧ (s.conns j).pc = .reading ∧ (s.conns j).Keeps t

section Rest

variable {p : Platform} {s₀ s s' : State} {before turns : List Turn} {i : ConnId}

theorem turn_own {ch : Choice} (h : (s.turn p ⟨i, ch⟩).isSome) :
    ch.own = true ∨ (s.conns i).pc = .reading := by
  unfold State.turn at h
  split at h
  · cases h
  · cases ch with
    | recv line =>
        simp only [Conn.step] at h
        split at h
        · exact .inr (And.left ‹_›)
        · cases h
    | eof =>
        simp only [Conn.step] at h
        split at h
        · exact .inr ‹_›
        · cases h
    | _ => exact .inl rfl

/-- Who has a mutex and does not keep it has something to do. -/
theorem Conn.Yields.goes_own {m : Mutex} (h : (s.conns i).Yields m) (hinv : Inv s)
    (hrunning : s.terminated = false) (p : Platform) :
    ∃ a s', a.choice.own = true ∧ s.step p a = some s' := by
  obtain ⟨ch, s', hstep⟩ := h.goes hrunning p
  obtain ⟨effect, c', hst⟩ := hinv.stepped hstep
  have hturn : (s.turn p ⟨i, ch⟩).isSome := by
    rw [hst.turn]
    rfl
  refine ⟨⟨i, ch⟩, s', (turn_own hturn).resolve_right fun hpc => ?_, hstep⟩
  exact h.not_plain (by simp [Conn.holdsCatalogue, hpc]) (Conn.plain_reading hpc)
    (by rw [hpc]; rfl)

/-- **Where nobody has anything to do, everybody rests.** -/
theorem Inv.resting (h : Inv s) (hrunning : s.terminated = false)
    (hlive : ∀ i, (s.conns i).pc ≠ .terminated)
    (hanswered : ∀ i, (s.conns i).sent.length + (s.conns i).pc.owes = (s.conns i).received.length)
    (hstuck : ¬ ∃ a s', a.choice.own = true ∧ s.step p a = some s') (i : ConnId) :
    s.Resting i := by
  have hidle : ∀ j, (s.conns j).pc = .reading ∨ (s.conns j).pc = .closed ∨ s.Blocked j := by
    intro j
    rcases goes_on hrunning (hlive j) p with hpc | hpc | hblocked | ⟨ch, hturn⟩
    · exact .inl hpc
    · exact .inr (.inl hpc)
    · exact .inr (.inr hblocked)
    · rcases turn_own hturn with hown | hpc
      · obtain ⟨x, hx⟩ := Option.isSome_iff_exists.mp hturn
        exact absurd ⟨⟨j, ch⟩, _, hown, Option.map_eq_some_iff.mpr ⟨x, hx, rfl⟩⟩ hstuck
      · exact .inl hpc
  -- whoever has a mutex that somebody waits for keeps it
  have hkept : ∀ {m j}, s.server.owner m = some j → ∃ t, m = .table t ∧ (s.conns j).Keeps t := by
    intro m j howner
    by_contra hno
    have hyields : (s.conns j).Yields m :=
      ⟨(h.owned m j).mp howner, fun t ht hkeeps => hno ⟨t, ht, hkeeps⟩⟩
    exact hstuck (hyields.goes_own h hrunning p)
  have hdone : ∀ {pc}, (s.conns i).pc = pc → pc.owes = 0 →
      (s.conns i).sent.length = (s.conns i).received.length := by
    rintro pc rfl howes
    have hcount := hanswered i
    omega
  rcases hidle i with hpc | hpc | ⟨m, hwants, howner⟩
  · exact .inl ⟨.inl hpc, hdone hpc rfl⟩
  · exact .inl ⟨.inr hpc, hdone hpc rfl⟩
  · obtain ⟨j, hj⟩ := Option.ne_none_iff_exists'.mp howner
    obtain ⟨t, rfl, hkeeps⟩ := hkept hj
    refine .inr ?_
    obtain ⟨a, hpc⟩ : ∃ a, (s.conns i).pc = .guardLock a t := by
      unfold Conn.wants at hwants
      cases hpc : (s.conns i).pc with
      | guardLock a u =>
          simp only [hpc, Option.some.injEq, Mutex.table.injEq] at hwants
          exact ⟨a, by rw [hwants]⟩
      | _ => simp [hpc] at hwants
    refine ⟨a, t, j, hpc, ?_, hkeeps⟩
    rcases hidle j with hread | hclosed | ⟨k, hwants', howner'⟩
    · exact hread
    · have hheld := hkeeps.1
      simp [Conn.view, hclosed, TwoPhase.View.held] at hheld
    · -- who has a table waits at most for the catalogue, which nobody keeps
      obtain ⟨l, hl⟩ := Option.ne_none_iff_exists'.mp howner'
      obtain ⟨u, rfl, -⟩ := hkept hl
      exact absurd hkeeps.1 (h.wants_table hwants' (.table t))

theorem Boot.alive_run (hboot : Boot s₀) (hrun : Transition.run (State.step p) s₀ turns = some s)
    (hrunning : s.terminated = false) (i : ConnId) : (s.conns i).pc ≠ .terminated := by
  refine (Transition.run_invariant (I := fun m => Inv m ∧
    (m.terminated = false → ∀ i, (m.conns i).pc ≠ .terminated)) ?_ ⟨hboot.inv, fun _ i => ?_⟩
    hrun).2 hrunning i
  · rintro m a m' ⟨hm, hlive⟩ hstep
    obtain ⟨effect, c', hst⟩ := hm.stepped hstep
    refine ⟨hst.inv hm, fun hterminated i => ?_⟩
    rw [hst.terminated] at hterminated
    by_cases hi : i = a.conn
    · subst hi
      rw [hst.self]
      exact of_decide_eq_false hterminated
    · rw [hst.other hi]
      have hturn := hst.turn
      unfold State.turn at hturn
      split at hturn
      · cases hturn
      · exact hlive (eq_false_of_ne_true ‹¬ _›) i
  · rw [hboot.conns]
    exact fun h => by cases h

/-- Without input there are only so many turns. -/
theorem Inv.own_bounded (h : Inv s) (parties : Finset ConnId)
    (hidle : ∀ i ∉ parties, (s.conns i).pc = .reading)
    (hown : ∀ a ∈ turns, a.choice.own = true)
    (hrun : Transition.run (State.step p) s turns = some s') :
    turns.length ≤ ∑ i ∈ parties, (s.conns i).work := by
  have hmover : ∀ {m a m' effect c'}, (∀ i ∉ parties, (m.conns i).pc = .reading) →
      a.choice.own = true → Stepped p m a effect c' m' → a.conn ∈ parties := by
    intro m a m' effect c' hreading hown hst
    by_contra hout
    exact hst.moves.own_busy hown (hreading _ hout)
  have hcost := Transition.run_cost (I := fun m => Inv m ∧ ∀ i ∉ parties, (m.conns i).pc = .reading)
    (Q := fun a => a.choice.own = true) (P := fun _ => true)
    (Φ := fun m => ∑ i ∈ parties, (m.conns i).work) (Γ := fun _ => 0) ?_ ?_ ⟨h, hidle⟩ hown hrun
  · rw [List.countP_true] at hcost
    omega
  · rintro m a m' ⟨hm, hreading⟩ hown hstep
    obtain ⟨effect, c', hst⟩ := hm.stepped hstep
    refine ⟨hst.inv hm, fun i hi => ?_⟩
    have hne : i ≠ a.conn := by
      rintro rfl
      exact hi (hmover hreading hown hst)
    rw [hst.other hne]
    exact hreading i hi
  · rintro m a m' ⟨hm, hreading⟩ hown hstep
    obtain ⟨effect, c', hst⟩ := hm.stepped hstep
    have hlt := Transition.sum_lt (fun i => (m.conns i).work) (fun i => (m'.conns i).work)
      (hmover hreading hown hst)
      (by rw [hst.self]; exact hst.moves.work_busy (hst.moves.own_busy hown)) fun j hj => by rw [hst.other hj]
    simp only [if_true]
    omega

/--
**The server comes to rest.**  Without further input the turns come to an end, wherever they
start; and as long as nobody can take one any more, every connection has answered all that it
has read, or waits for a table that a connection with nothing to do keeps in its transaction.
-/
theorem comes_to_rest (hboot : Boot s₀)
    (hbefore : Transition.run (State.step p) s₀ before = some s)
    (hown : ∀ a ∈ turns, a.choice.own = true)
    (hrun : Transition.run (State.step p) s turns = some s') :
    turns.length ≤ ∑ i ∈ (before.map Turn.conn).toFinset, (s.conns i).work ∧
      (s'.terminated = true ∨ (∀ i, s'.Resting i) ∨
        ∃ a s'', a.choice.own = true ∧ s'.step p a = some s'') := by
  have hinv := hboot.inv_run hbefore
  have hwhole : Transition.run (State.step p) s₀ (before ++ turns) = some s' :=
    Transition.run_append_eq_some.mpr ⟨s, hbefore, hrun⟩
  refine ⟨hinv.own_bounded _ (fun i hi => ?_) hown hrun, ?_⟩
  · have huntouched : s.conns i = s₀.conns i := run_untouched hbefore fun a ha heq => hi
      (List.mem_toFinset.mpr (List.mem_map.mpr ⟨a, ha, heq.symm⟩))
    rw [huntouched, hboot.conns]
  · by_cases hstuck : ∃ a s'', a.choice.own = true ∧ s'.step p a = some s''
    · exact .inr (.inr hstuck)
    · cases hterminated : s'.terminated with
      | true => exact .inl rfl
      | false =>
          exact .inr (.inl ((hboot.inv_run hwhole).resting hterminated
            (hboot.alive_run hwhole hterminated) (hboot.answered_run hwhole) hstuck))

end Rest

/-- Connection 0 logs in, creates a table and stores a value. -/
def unfinished : List Turn :=
  [⟨0, .recv (bytes "LOGIN a\n")⟩, ⟨0, .recv (bytes "CREATE t\n")⟩, ⟨0, .go⟩, ⟨0, .go⟩, ⟨0, .go⟩,
    ⟨0, .recv (bytes "PUSH 5\n")⟩, ⟨0, .recv (bytes "SET t k\n")⟩]

theorem line_costs_eight_unfinished :
    ∃ s, Transition.run (State.step trapping) State.initial unfinished = some s ∧
      unfinished.countP (fun a => a.conn = 0) + (s.conns 0).work
        ≤ 8 * (s.conns 0).received.length + 2 ∧ (s.conns 0).work = 7 := by
  have hwork : (Transition.run (State.step trapping) State.initial unfinished).map
      (fun s => (s.conns 0).work) = some 7 := by decide +kernel
  obtain ⟨s, hrun, hs⟩ := Option.map_eq_some_iff.mp hwork
  exact ⟨s, hrun, line_costs_eight boot_initial hrun 0, hs⟩

/-- The SET comes to rest after the seven turns that are left of its eight. -/
theorem comes_to_rest_unfinished :
    ∃ s s', Transition.run (State.step trapping) State.initial unfinished = some s ∧
      Transition.run (State.step trapping) s (List.replicate 7 ⟨0, .go⟩) = some s' ∧
      7 ≤ ∑ i ∈ (unfinished.map Turn.conn).toFinset, (s.conns i).work ∧
      (s'.conns 0).pc = .reading := by
  have hstate : ((Transition.run (State.step trapping) State.initial unfinished).bind fun s =>
      (Transition.run (State.step trapping) s (List.replicate 7 ⟨0, .go⟩)).map fun s' =>
        (s'.conns 0).pc) = some .reading := by decide +kernel
  obtain ⟨s, hbefore, hrest⟩ := Option.bind_eq_some_iff.mp hstate
  obtain ⟨s', hrun, hpc⟩ := Option.map_eq_some_iff.mp hrest
  have hown : ∀ a ∈ List.replicate 7 (⟨0, .go⟩ : Turn), a.choice.own = true := by decide
  obtain ⟨hbound, -⟩ := comes_to_rest boot_initial hbefore hown hrun
  exact ⟨s, s', hbefore, hrun, hbound, hpc⟩

end KvServer
