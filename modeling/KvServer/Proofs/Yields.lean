/-
Tools and the server around one tool.

`Talks` says that a tool is in dialogue with its connection, and every event keeps that as
long as the turns of the others are lawful.  For a tool to get on, the mutexes it waits for
must come free: `Yields` says that a connection has a mutex and will give it back by itself,
which is so unless the mutex is a table's and the connection `Keeps` the table in an open
transaction.
-/
import KvServer.Proofs.Replies
import KvServer.Proofs.Storing

namespace KvServer

/-! ### A tool among others

The other tools and connections only matter through the turns of the server at their
connections, and of these the plan says what they must leave alone.
-/

/-- Of the events, the turns of other connections meet `Q`. -/
def Tools.Others (Q : State → Turn → Prop) (i : ConnId) (w : Tools) : Tools.Event → Prop
  | .turn a => a.conn = i ∨ Q w.state a
  | _ => True

instance (Q : State → Turn → Prop) [∀ s a, Decidable (Q s a)] (i : ConnId) (w : Tools) :
    ∀ e, Decidable (w.Others Q i e)
  | .turn a => inferInstanceAs (Decidable (a.conn = i ∨ Q w.state a))
  | .write _ => .isTrue trivial
  | .read _ => .isTrue trivial

/-- The tool of connection `i` is in dialogue with it. -/
structure Tools.Talks (P : Plan) (i : ConnId) (w : Tools) : Prop where
  inv : Inv w.state
  dialogue : ∃ k, w.task i = some k ∧ Dialogue P i k w.state

section Talks

variable {P : Plan} {p : Platform} {i : ConnId} {Q : State → Turn → Prop} {w w' : Tools}

/-- What another tool does. -/
theorem Tools.Talks.setTask_other (h : w.Talks P i) {j : ConnId} (hij : i ≠ j) (k : Task) :
    (w.setTask j k).Talks P i := by
  obtain ⟨k', hk', hdialogue⟩ := h.dialogue
  exact ⟨h.inv, k', (w.setTask_other hij k).trans hk', hdialogue⟩

/-- **Every event keeps the dialogue.** -/
theorem Tools.Talks.step (h : w.Talks P i) (hP : P.Lawful p i Q) {e : Tools.Event}
    (hothers : w.Others Q i e) (hstep : w.step p e = some w') : w'.Talks P i := by
  obtain ⟨k, hk, hdialogue⟩ := h.dialogue
  cases Tools.happens hstep with
  | @turn a s' hadmits hturn =>
      obtain ⟨effect, c', hst⟩ := h.inv.stepped hturn
      refine ⟨hst.inv h.inv, k, hk, ?_⟩
      by_cases hi : i = a.conn
      · obtain ⟨j, ch⟩ := a
        obtain rfl : i = j := hi
        simp only [Tools.Admits, hk] at hadmits
        exact hdialogue.turn hP h.inv hst hadmits
      · exact hdialogue.other hP h.inv hst hi (hothers.resolve_left (Ne.symm hi))
  | @write j k₁ k₂ hk₁ hwrite =>
      by_cases hi : i = j
      · subst hi
        obtain rfl := Option.some.inj (hk.symm.trans hk₁)
        exact ⟨h.inv, k₂, w.setTask_self i k₂, hdialogue.write hP hwrite⟩
      · exact h.setTask_other hi k₂
  | @read j k₁ k₂ hk₁ harrived hread =>
      by_cases hi : i = j
      · subst hi
        obtain rfl := Option.some.inj (hk.symm.trans hk₁)
        exact ⟨h.inv, k₂, w.setTask_self i k₂, hdialogue.read hP harrived hread⟩
      · exact h.setTask_other hi k₂

/-- Whose connection an event is at. -/
def Tools.Event.conn : Tools.Event → ConnId
  | .turn a => a.conn
  | .write i => i
  | .read i => i

/-- A connection without events stays as it is. -/
theorem Tools.untouched {events : List Tools.Event} (h : ∀ e ∈ events, e.conn ≠ i)
    (hrun : Transition.run (Tools.step p) w events = some w') :
    w'.state.conns i = w.state.conns i := by
  refine Transition.along_invariant (I := fun v : Tools => v.state.conns i = w.state.conns i)
    (Q := fun _ e => e.conn ≠ i) ?_ rfl (Transition.along_of_forall fun e he _ => h e he) hrun
  intro v e v' hv he hstep
  cases Tools.happens hstep with
  | turn hadmits hturn =>
      obtain ⟨x, -, rfl⟩ := Option.map_eq_some_iff.mp hturn
      exact (Function.update_of_ne (Ne.symm he) ..).trans hv
  | write hk hwrite => exact hv
  | read hk harrived hread => exact hv

/-- A table that exists stays. -/
theorem Tools.found_run {events : List Tools.Event} {table : Str} {t : TablePtr} (hs : Inv w.state)
    (hfound : w.state.server.findTable table = some t)
    (hrun : Transition.run (Tools.step p) w events = some w') :
    w'.state.server.findTable table = some t := by
  refine (Transition.run_invariant (I := fun v : Tools => Inv v.state ∧
    v.state.server.findTable table = some t) ?_ ⟨hs, hfound⟩ hrun).2
  rintro v e v' ⟨hv, hfound⟩ hstep
  rcases Tools.step_state hstep with hsame | ⟨a, hturn⟩
  · rw [hsame]
    exact ⟨hv, hfound⟩
  · obtain ⟨effect, c', hst⟩ := hv.stepped hturn
    exact ⟨hst.inv hv, hst.findTable hfound⟩

end Talks

/-! ### Mutexes come free

A connection inside `find_table` or under a guard gives its mutex back whatever happens to it;
one with a table in an open transaction need not, unless it is already in a loop.
-/

/-- The connection has the table in an open transaction. -/
def Conn.Keeps (c : Conn) (t : TablePtr) : Prop :=
  t ∈ c.view.held ∧ c.inTransaction = true ∧ c.pc.loop = none

instance (c : Conn) (t : TablePtr) : Decidable (c.Keeps t) := by
  unfold Conn.Keeps
  infer_instance

/-- The connection is about to write the key, under the guard. -/
def Conn.Writes (c : Conn) (t : TablePtr) (key : Str) : Prop :=
  match c.pc with
  | .guardCall (.set _ other _) u => u = t ∧ other = key
  | _ => False

instance (c : Conn) (t : TablePtr) (key : Str) : Decidable (c.Writes t key) := by
  unfold Conn.Writes
  split <;> infer_instance

/-- The connection has the mutex and does not wait for anything to give it back. -/
structure Conn.Yields (c : Conn) (m : Mutex) : Prop where
  holds : c.Holds m
  keepsNot : ∀ t, m = .table t → ¬ c.Keeps t

section Yields

variable {p : Platform} {sv : Server} {c c' : Conn} {ch : Choice} {effect : Effect} {m : Mutex}
  {t : TablePtr} {key : Str}

theorem not_writes (h : ∀ x u, c.pc ≠ .guardCall x u) : ¬ c.Writes t key := by
  unfold Conn.Writes
  split
  · exact absurd ‹c.pc = _› (h _ _)
  · exact id

/-- Who writes a key has the table in an open transaction, or writes under the guard. -/
theorem Moves.writes_at (h : Moves p sv c ch effect c') (hwf : c.WF)
    (hwrites : effect.writes = some (t, key)) : c.Keeps t ∨ c.Writes t key := by
  have hpoint := hwf.point
  unfold Conn.PointOk at hpoint
  cases h with
  | callSet hpc =>
      rw [hpc] at hpoint
      obtain ⟨rfl, rfl⟩ := Prod.mk.inj (Option.some.inj hwrites)
      refine .inl ⟨?_, hpoint.1, by rw [hpc]; rfl⟩
      have hview : c.view = .inside c.lockedTables := by simp [Conn.view, hpc, hpoint.1]
      rw [hview]
      exact hpoint.2
  | guardSet hpc =>
      obtain ⟨rfl, rfl⟩ := Prod.mk.inj (Option.some.inj hwrites)
      refine .inr ?_
      unfold Conn.Writes
      rw [hpc]
      exact ⟨rfl, rfl⟩
  | visit hpc ht => cases ‹Ending› <;> cases hwrites
  | _ => cases hwrites

theorem held_idle (h : c.Plain) (hidle : c.inTransaction = false) : c.view.held = ∅ := by
  rw [h, hidle]
  rfl

/-- What a step from inside `create_table` or `find_table` leads to. -/
theorem Moves.catalogue_keeps (h : Moves p sv c ch effect c') (hc : c.holdsCatalogue = true)
    (hkeeps : ¬ c.Keeps t) :
    ch = .go ∧ c'.pc ≠ .terminated ∧ (∀ x u, c'.pc ≠ .guardCall x u) ∧ ¬ c'.Keeps t := by
  have hsame : c.pc.loop = none → c'.view.held = c.view.held →
      c'.inTransaction = c.inTransaction → ¬ c'.Keeps t := fun hloop hheld htx hk =>
    hkeeps ⟨hheld ▸ hk.1, htx ▸ hk.2.1, hloop⟩
  cases h with
  | createExists hpc _ _ =>
      exact ⟨rfl, by simp, by simp, hsame (by rw [hpc]; rfl) (by simp [Conn.view, hpc]) rfl⟩
  | createNew hpc _ =>
      exact ⟨rfl, by simp, by simp, hsame (by rw [hpc]; rfl) (by simp [Conn.view, hpc]) rfl⟩
  | createUnlock hpc _ =>
      exact ⟨rfl, by simp, by simp, hsame (by rw [hpc]; rfl) (by simp [Conn.view, hpc]) rfl⟩
  | findBody hpc =>
      exact ⟨rfl, by simp, by simp, hsame (by rw [hpc]; rfl) (by simp [Conn.view, hpc]) rfl⟩
  | notFound hpc _ =>
      exact ⟨rfl, by simp, by simp, hsame (by rw [hpc]; rfl) (by simp [Conn.view, hpc]) rfl⟩
  | foundNew hpc _ _ =>
      exact ⟨rfl, by simp, by simp, hsame (by rw [hpc]; rfl) (by simp [Conn.view, hpc]) rfl⟩
  | foundLocked hpc _ _ =>
      exact ⟨rfl, by simp, by simp, hsame (by rw [hpc]; rfl) (by simp [Conn.view, hpc]) rfl⟩
  | foundAuto hpc _ =>
      exact ⟨rfl, by simp, by simp, hsame (by rw [hpc]; rfl) (by simp [Conn.view, hpc]) rfl⟩
  | _ => simp [Conn.holdsCatalogue, ‹c.pc = _›] at hc

/-- What a step with a table that is not kept leads to. -/
theorem Moves.table_keeps (h : Moves p sv c ch effect c') (hwf : c.WF) (ht : t ∈ c.view.held)
    (hkeeps : ¬ c.Keeps t) :
    (ch = .go ∨ ∃ u, ch = .visit u) ∧ c'.pc ≠ .terminated ∧ (∀ x u, c'.pc ≠ .guardCall x u) ∧
      ¬ c'.Keeps t := by
  have hpoint := hwf.point
  unfold Conn.PointOk at hpoint
  -- outside the guard and the loops there is only the transaction that could have the table
  have hplain : c.Plain → c.pc.loop = none → False := fun hplain hloop => by
    cases htx : c.inTransaction with
    | true => exact hkeeps ⟨ht, htx, hloop⟩
    | false =>
        rw [held_idle hplain htx] at ht
        cases ht
  have hidle : ∀ {c' : Conn}, c'.inTransaction = c.inTransaction → c.inTransaction = false →
      ¬ c'.Keeps t := fun hsame htx hk => by
    cases htx.symm.trans (hsame.symm.trans hk.2.1)
  cases h with
  | guardGet hpc _ =>
      rw [hpc] at hpoint
      exact ⟨.inl rfl, by simp, by simp, hidle rfl hpoint⟩
  | guardGetFail hpc _ _ =>
      rw [hpc] at hpoint
      exact ⟨.inl rfl, by simp, by simp, hidle rfl hpoint⟩
  | guardSet hpc =>
      rw [hpc] at hpoint
      exact ⟨.inl rfl, by simp, by simp, hidle rfl hpoint⟩
  | guardCommit hpc =>
      rw [hpc] at hpoint
      exact ⟨.inl rfl, by simp, by simp, hidle rfl hpoint⟩
  | guardUnlock hpc _ =>
      rw [hpc] at hpoint
      exact ⟨.inl rfl, by simp, by simp, hidle rfl hpoint.1⟩
  | visit hpc _ => exact ⟨.inr ⟨_, rfl⟩, by simp, by simp, fun hk => by cases hk.2.2⟩
  | release hpc => exact ⟨.inl rfl, by simp, by simp, fun hk => by cases hk.2.2⟩
  | finishCommit hpc => simp [Conn.view, hpc, TwoPhase.View.held] at ht
  | finishAbort hpc _ => simp [Conn.view, hpc, TwoPhase.View.held] at ht
  | finishCrash hpc _ => simp [Conn.view, hpc, TwoPhase.View.held] at ht
  | finishDestroy hpc => simp [Conn.view, hpc, TwoPhase.View.held] at ht
  | _ =>
      refine (hplain ?_ ?_).elim
      · simp [Conn.Plain, Conn.view, ‹c.pc = _›]
      · rw [‹c.pc = _›]
        rfl

/-- **A connection that yields a mutex** can go on, and has given it back or yields it still. -/
theorem Conn.Yields.moves (h : c.Yields m) (hm : m = .catalogue ∨ m = .table t)
    (hkeeps : ¬ c.Keeps t) (hwf : c.WF) (hmoves : Moves p sv c ch effect c') :
    (ch = .go ∨ ∃ u, ch = .visit u) ∧ c'.pc ≠ .terminated ∧ (∀ x u, c'.pc ≠ .guardCall x u) ∧
      ¬ c'.Keeps t ∧ (c'.Holds m → c'.Yields m) := by
  rcases hm with rfl | rfl
  · obtain ⟨hch, hlive, hcall, hkeeps'⟩ := hmoves.catalogue_keeps h.holds hkeeps
    exact ⟨.inl hch, hlive, hcall, hkeeps', fun hholds => ⟨hholds, by simp⟩⟩
  · obtain ⟨hch, hlive, hcall, hkeeps'⟩ := hmoves.table_keeps hwf h.holds hkeeps
    refine ⟨hch, hlive, hcall, hkeeps', fun hholds => ⟨hholds, fun u hu => ?_⟩⟩
    obtain rfl := Mutex.table.inj hu
    exact hkeeps'

/-- Where a connection waits, or is not to be waited for, it yields nothing. -/
theorem Conn.Yields.not_plain (h : c.Yields m) (hcatalogue : c.holdsCatalogue = false)
    (hplain : c.Plain) (hloop : c.pc.loop = none) : False := by
  cases m with
  | catalogue => cases hcatalogue.symm.trans h.holds
  | table t =>
      cases htx : c.inTransaction with
      | true => exact h.keepsNot t rfl ⟨h.holds, htx, hloop⟩
      | false =>
          have hheld : t ∈ c.view.held := h.holds
          rw [held_idle hplain htx] at hheld
          cases hheld

theorem Conn.Yields.goes {s : State} {k : ConnId} (h : (s.conns k).Yields m)
    (hrunning : s.terminated = false) (p : Platform) : ∃ ch s', s.step p ⟨k, ch⟩ = some s' := by
  have hnot : ∀ pc, (s.conns k).pc = pc → (s.conns k).holdsCatalogue = false →
      (s.conns k).Plain → pc.loop = none → False := fun pc hpc hcatalogue hplain hloop =>
    h.not_plain hcatalogue hplain (hpc ▸ hloop)
  have hlive : (s.conns k).pc ≠ .terminated := fun hpc =>
    hnot _ hpc (by simp [Conn.holdsCatalogue, hpc]) (by simp [Conn.Plain, Conn.view, hpc]) rfl
  rcases goes_on hrunning hlive p with hpc | hpc | ⟨m', hwants, -⟩ | ⟨ch, hturn⟩
  · exact (hnot _ hpc (by simp [Conn.holdsCatalogue, hpc]) (Conn.plain_reading hpc) rfl).elim
  · have hholds := h.holds
    cases m with
    | catalogue => simp [Conn.Holds, Conn.holdsCatalogue, hpc] at hholds
    | table t => simp [Conn.Holds, Conn.view, hpc, TwoPhase.View.held] at hholds
  · have hwants : (s.conns k).wants = some m' := hwants
    have hwaits : (s.conns k).holdsCatalogue = false ∧ (s.conns k).Plain ∧
        (s.conns k).pc.loop = none := by
      cases hpc : (s.conns k).pc with
      | createLock name => simp [Conn.holdsCatalogue, Conn.Plain, Conn.view, Pc.loop, hpc]
      | findLock x => simp [Conn.holdsCatalogue, Conn.Plain, Conn.view, Pc.loop, hpc]
      | guardLock x t => simp [Conn.holdsCatalogue, Conn.Plain, Conn.view, Pc.loop, hpc]
      | _ => simp [Conn.wants, hpc] at hwants
    exact (h.not_plain hwaits.1 hwaits.2.1 hwaits.2.2).elim
  · obtain ⟨x, hx⟩ := Option.isSome_iff_exists.mp hturn
    exact ⟨ch, _, Option.map_eq_some_iff.mpr ⟨x, hx, rfl⟩⟩

end Yields

end KvServer
