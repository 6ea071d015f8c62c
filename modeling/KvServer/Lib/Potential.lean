/-
What a run costs.

Some of the actions of a run are counted.  A potential says how many of them are still to come,
and what is credited on the way how many more may come than that; what one step keeps to adds up
over a run.
-/
import Mathlib.Algebra.Order.BigOperators.Group.Finset
import KvServer.Lib.Transition

namespace Transition

variable {σ α ι : Type} {step : σ → α → Option σ}

/--
**The potential method.**  A step that counts lowers the potential `Φ` by one, but for what it
adds to the credit `Γ`; so all of a run that counts is within the credit and the potential.
-/
theorem run_cost {I : σ → Prop} {Q : α → Prop} {P : α → Bool} {Φ Γ : σ → Nat}
    (hinv : ∀ {s a s'}, I s → Q a → step s a = some s' → I s')
    (hpaid : ∀ {s a s'}, I s → Q a → step s a = some s' →
      (if P a then 1 else 0) + Φ s' + Γ s ≤ Γ s' + Φ s)
    {s s' : σ} {as : List α} (hs : I s) (hQ : ∀ a ∈ as, Q a) (hrun : run step s as = some s') :
    as.countP P + Φ s' + Γ s ≤ Γ s' + Φ s := by
  induction as generalizing s with
  | nil =>
      cases hrun
      simp [Nat.add_comm]
  | cons a rest ih =>
      obtain ⟨m, hm, hrest⟩ := run_cons_eq_some.mp hrun
      have hfirst := hpaid hs (hQ a List.mem_cons_self) hm
      have hlater := ih (hinv hs (hQ a List.mem_cons_self) hm)
        (fun b hb => hQ b (List.mem_cons_of_mem _ hb)) hrest
      rw [List.countP_cons]
      omega

/-- A potential made up of those of some parties, one of which moves. -/
theorem sum_lt [DecidableEq ι] {parties : Finset ι} (φ φ' : ι → Nat) {i : ι} (hi : i ∈ parties)
    (hself : φ' i < φ i) (hother : ∀ j, j ≠ i → φ' j = φ j) :
    ∑ j ∈ parties, φ' j < ∑ j ∈ parties, φ j := by
  refine Finset.sum_lt_sum (fun j _ => ?_) ⟨i, hi, hself⟩
  by_cases hj : j = i
  · subst hj
    exact Nat.le_of_lt hself
  · exact Nat.le_of_eq (hother j hj)

end Transition
