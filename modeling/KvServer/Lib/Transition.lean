/-
Runs of a transition system.

A system is a partial step function: `step s a` is the state after action `a`, if `a`
can be taken in `s`.  A property of a whole run is either an invariant of its states or
something that has to be collected along the way; for the second there is `recorded`,
the same system with a record beside its state that the steps do not depend on.
-/
import Mathlib.Data.Option.Basic

namespace Transition

variable {σ α η : Type}

/-- The state after a list of actions, if all of them can be taken. -/
def run (step : σ → α → Option σ) : σ → List α → Option σ
  | s, [] => some s
  | s, a :: rest => (step s a).bind fun s' => run step s' rest

/-- Each action of the list meets `Q` in the state in which it is taken. -/
def Along (step : σ → α → Option σ) (Q : σ → α → Prop) : σ → List α → Prop
  | _, [] => True
  | s, a :: rest => Q s a ∧ ∀ s', step s a = some s' → Along step Q s' rest

instance Along.decidable {step : σ → α → Option σ} {Q : σ → α → Prop}
    [hQ : ∀ s a, Decidable (Q s a)] : ∀ (s : σ) (as : List α), Decidable (Along step Q s as)
  | _, [] => .isTrue trivial
  | s, a :: rest =>
      have (s' : σ) : Decidable (Along step Q s' rest) := Along.decidable s' rest
      inferInstanceAs (Decidable (Q s a ∧ ∀ s' ∈ step s a, Along step Q s' rest))

/-! ### Runs -/

section Run

variable {step : σ → α → Option σ}

@[simp] theorem run_nil (s : σ) : run step s [] = some s := rfl

theorem run_cons_eq_some {s s' : σ} {a : α} {rest : List α} :
    run step s (a :: rest) = some s' ↔ ∃ m, step s a = some m ∧ run step m rest = some s' :=
  Option.bind_eq_some_iff

theorem run_append (s : σ) (as bs : List α) :
    run step s (as ++ bs) = (run step s as).bind fun s' => run step s' bs := by
  induction as generalizing s with
  | nil => rfl
  | cons a as ih =>
      cases h : step s a with
      | none => simp [run, h]
      | some m => simp [run, h, ih]

theorem run_append_eq_some {s s' : σ} {as bs : List α} :
    run step s (as ++ bs) = some s' ↔ ∃ m, run step s as = some m ∧ run step m bs = some s' := by
  rw [run_append]
  exact Option.bind_eq_some_iff

/-- **Invariance**, where the actions are known to meet `Q`. -/
theorem along_invariant {I : σ → Prop} {Q : σ → α → Prop}
    (hstep : ∀ {s a s'}, I s → Q s a → step s a = some s' → I s')
    {s s' : σ} {as : List α} (hs : I s) (hQ : Along step Q s as)
    (hrun : run step s as = some s') : I s' := by
  induction as generalizing s with
  | nil =>
      cases hrun
      exact hs
  | cons a rest ih =>
      obtain ⟨m, hm, hrest⟩ := run_cons_eq_some.mp hrun
      exact ih (hstep hs hQ.1 hm) (hQ.2 m hm) hrest

theorem Along.left {Q : σ → α → Prop} {s : σ} {as bs : List α} (h : Along step Q s (as ++ bs)) :
    Along step Q s as := by
  induction as generalizing s with
  | nil => trivial
  | cons a rest ih => exact ⟨h.1, fun s' hs' => ih (h.2 s' hs')⟩

theorem Along.concat {Q : σ → α → Prop} {s s' : σ} {as : List α} {b : α} (h : Along step Q s as)
    (hrun : run step s as = some s') (hb : Q s' b) : Along step Q s (as ++ [b]) := by
  induction as generalizing s with
  | nil =>
      cases hrun
      exact ⟨hb, fun _ _ => trivial⟩
  | cons a rest ih =>
      obtain ⟨m, hm, hrest⟩ := run_cons_eq_some.mp hrun
      refine ⟨h.1, fun m' hm' => ?_⟩
      obtain rfl := Option.some.inj (hm.symm.trans hm')
      exact ih (h.2 m hm) hrest

theorem Along.and {Q R : σ → α → Prop} {s : σ} {as : List α} (hQ : Along step Q s as)
    (hR : Along step R s as) : Along step (fun s a => Q s a ∧ R s a) s as := by
  induction as generalizing s with
  | nil => trivial
  | cons a rest ih => exact ⟨⟨hQ.1, hR.1⟩, fun s' hs' => ih (hQ.2 s' hs') (hR.2 s' hs')⟩

theorem Along.mono {Q R : σ → α → Prop} {s : σ} {as : List α} (hQ : Along step Q s as)
    (hR : ∀ s a, Q s a → R s a) : Along step R s as := by
  induction as generalizing s with
  | nil => trivial
  | cons a rest ih => exact ⟨hR s a hQ.1, fun s' hs' => ih (hQ.2 s' hs')⟩

theorem along_forall {ι : Type} {Q : ι → σ → α → Prop} {s : σ} {as : List α}
    (h : ∀ i, Along step (Q i) s as) : Along step (fun s a => ∀ i, Q i s a) s as := by
  induction as generalizing s with
  | nil => trivial
  | cons a rest ih => exact ⟨fun i => (h i).1, fun s' hs' => ih fun i => (h i).2 s' hs'⟩

/-- What an invariant makes of each action. -/
theorem Along.of_invariant {I : σ → Prop} {Q R : σ → α → Prop} {s : σ} {as : List α}
    (hQ : Along step Q s as) (hs : I s)
    (hstep : ∀ {s a s'}, I s → Q s a → step s a = some s' → I s') (hR : ∀ s a, I s → Q s a → R s a) :
    Along step R s as := by
  induction as generalizing s with
  | nil => trivial
  | cons a rest ih => exact ⟨hR s a hs hQ.1, fun s' hs' => ih (hQ.2 s' hs') (hstep hs hQ.1 hs')⟩

theorem along_of_forall {Q : σ → α → Prop} {s : σ} {as : List α} (h : ∀ a ∈ as, ∀ s, Q s a) :
    Along step Q s as := by
  induction as generalizing s with
  | nil => trivial
  | cons a rest ih =>
      exact ⟨h a List.mem_cons_self s, fun s' _ => ih fun b hb => h b (List.mem_cons_of_mem _ hb)⟩

/-- What holds before every action and at the end of a run holds after every action. -/
theorem Along.next {P : σ → Prop} {s s' : σ} {as : List α} (h : Along step (fun m _ => P m) s as)
    (hrun : run step s as = some s') (hs' : P s') :
    Along step (fun m a => ∀ m', step m a = some m' → P m') s as := by
  induction as generalizing s with
  | nil => trivial
  | cons a rest ih =>
      obtain ⟨m, hm, hrest⟩ := run_cons_eq_some.mp hrun
      refine ⟨fun m' hm' => ?_, fun m' hm' => ?_⟩
      · obtain rfl := Option.some.inj (hm.symm.trans hm')
        cases rest with
        | nil =>
            cases hrest
            exact hs'
        | cons b rest => exact (h.2 m hm).1
      · obtain rfl := Option.some.inj (hm.symm.trans hm')
        exact ih (h.2 m hm) hrest

/-- The end of a run can be reached from each of its states. -/
theorem along_reaches {s s' : σ} {as : List α} (hrun : run step s as = some s') :
    Along step (fun m _ => ∃ bs, run step m bs = some s') s as := by
  induction as generalizing s with
  | nil => trivial
  | cons a rest ih =>
      refine ⟨⟨_, hrun⟩, fun m' hm' => ih ?_⟩
      obtain ⟨m, hm, hrest⟩ := run_cons_eq_some.mp hrun
      obtain rfl := Option.some.inj (hm.symm.trans hm')
      exact hrest

theorem along_true (s : σ) (as : List α) : Along step (fun _ _ => True) s as :=
  along_of_forall fun _ _ _ => trivial

/-- **Invariance** along any run. -/
theorem run_invariant {I : σ → Prop} (hstep : ∀ {s a s'}, I s → step s a = some s' → I s')
    {s s' : σ} {as : List α} (hs : I s) (hrun : run step s as = some s') : I s' :=
  along_invariant (fun hI _ h => hstep hI h) hs (along_true s as) hrun

/-- **Some actions can be left out of a run**, if a state one of them leads to is as good as
the one it was taken in; `R` says when a state stands for another. -/
theorem run_filter {R : σ → σ → Prop} {Q : σ → α → Prop} {keep : α → Bool}
    (hkeep : ∀ {s t a s'}, R s t → keep a = true → step s a = some s' →
      ∃ t', step t a = some t' ∧ R s' t')
    (hdrop : ∀ {s t a s'}, R s t → Q s a → keep a = false → step s a = some s' → R s' t)
    {s s' t : σ} {as : List α} (hs : R s t) (hQ : Along step Q s as)
    (hrun : run step s as = some s') : ∃ t', run step t (as.filter keep) = some t' ∧ R s' t' := by
  induction as generalizing s t with
  | nil =>
      cases hrun
      exact ⟨t, rfl, hs⟩
  | cons a rest ih =>
      obtain ⟨m, hm, hrest⟩ := run_cons_eq_some.mp hrun
      cases ha : keep a with
      | true =>
          obtain ⟨u, hu, hmu⟩ := hkeep hs ha hm
          obtain ⟨t', ht', hst'⟩ := ih hmu (hQ.2 m hm) hrest
          rw [List.filter_cons_of_pos ha]
          exact ⟨t', run_cons_eq_some.mpr ⟨u, hu, ht'⟩, hst'⟩
      | false =>
          rw [List.filter_cons_of_neg (by simp [ha])]
          exact ih (hdrop hs hQ.1 ha hm) (hQ.2 m hm) hrest

/-- **Simulation**: where an action of one system is worth some actions of another, so is a run. -/
theorem run_simulates {τ β : Type} {step' : τ → β → Option τ} {R : σ → τ → Prop}
    (hstep : ∀ {s t a s'}, R s t → step s a = some s' →
      ∃ bs t', run step' t bs = some t' ∧ R s' t')
    {s s' : σ} {t : τ} {as : List α} (hs : R s t) (hrun : run step s as = some s') :
    ∃ bs t', run step' t bs = some t' ∧ R s' t' := by
  induction as generalizing s t with
  | nil =>
      cases hrun
      exact ⟨[], t, rfl, hs⟩
  | cons a rest ih =>
      obtain ⟨m, hm, hrest⟩ := run_cons_eq_some.mp hrun
      obtain ⟨bs, u, hbs, hmu⟩ := hstep hs hm
      obtain ⟨cs, t', hcs, hst'⟩ := ih hmu hrest
      exact ⟨bs ++ cs, t', run_append_eq_some.mpr ⟨u, hbs, hcs⟩, hst'⟩

end Run

/-! ### Records

A record is a state component that the steps do not look at. It is kept apart from the system,
so that a theorem about a run can ask for whatever record its statement needs.
-/

/-- The system with a record: `note s a s' h` is the record after a step from `s` to `s'`. -/
def recorded (step : σ → α → Option σ) (note : σ → α → σ → η → η) :
    σ × η → α → Option (σ × η)
  | (s, h), a => (step s a).map fun s' => (s', note s a s' h)

section Recorded

variable {step : σ → α → Option σ} {note : σ → α → σ → η → η}

theorem recorded_eq_some {s s' : σ} {h h' : η} {a : α} :
    recorded step note (s, h) a = some (s', h') ↔ step s a = some s' ∧ h' = note s a s' h := by
  unfold recorded
  rw [Option.map_eq_some_iff]
  constructor
  · rintro ⟨m, hm, heq⟩
    obtain ⟨rfl, rfl⟩ := Prod.mk.inj heq
    exact ⟨hm, rfl⟩
  · rintro ⟨hm, rfl⟩
    exact ⟨s', hm, rfl⟩

/-- A record does not keep a run from being one. -/
theorem run_recorded {s s' : σ} {h h' : η} {as : List α}
    (hrun : run (recorded step note) (s, h) as = some (s', h')) : run step s as = some s' := by
  induction as generalizing s h with
  | nil =>
      cases hrun
      rfl
  | cons a rest ih =>
      obtain ⟨⟨m, h₁⟩, hm, hrest⟩ := run_cons_eq_some.mp hrun
      exact run_cons_eq_some.mpr ⟨m, (recorded_eq_some.mp hm).1, ih hrest⟩

/-- Every run has its record. -/
theorem exists_recorded {s s' : σ} {as : List α} (h : η) (hrun : run step s as = some s') :
    ∃ h', run (recorded step note) (s, h) as = some (s', h') := by
  induction as generalizing s h with
  | nil =>
      cases hrun
      exact ⟨h, rfl⟩
  | cons a rest ih =>
      obtain ⟨m, hm, hrest⟩ := run_cons_eq_some.mp hrun
      obtain ⟨h', hh'⟩ := ih (note s a m h) hrest
      exact ⟨h', run_cons_eq_some.mpr ⟨(m, note s a m h), recorded_eq_some.mpr ⟨hm, rfl⟩, hh'⟩⟩

theorem along_recorded {Q : σ → α → Prop} {s : σ} {h : η} {as : List α} (hQ : Along step Q s as) :
    Along (recorded step note) (fun x a => Q x.1 a) (s, h) as := by
  induction as generalizing s h with
  | nil => trivial
  | cons a rest ih =>
      refine ⟨hQ.1, fun x hx => ?_⟩
      obtain ⟨s', h'⟩ := x
      exact ih (hQ.2 s' (recorded_eq_some.mp hx).1)

end Recorded

end Transition
