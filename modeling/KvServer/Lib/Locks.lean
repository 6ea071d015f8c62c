/-
Mutexes, their owners, and who waits for whom.

There are two accounts of who has a mutex: the mutex's own, `owner`, and that of each
party, `holds`.  `Owned` says that they agree, and `Owned.step` that they go on agreeing
when a party acquires a free mutex or releases one it holds.

A party waits for at most one mutex.  If whatever it holds meanwhile ranks below the
mutex it waits for, and ranks are bounded, nobody waits for itself along any chain
(`acyclic`) and every chain ends at a party that is not blocked (`leads_to_unblocked`).
-/
import Mathlib.Logic.Function.Basic
import Mathlib.Logic.Relation

namespace Locks

variable {κ ι : Type}

/-- What a party's step does to the mutexes. -/
inductive Op (κ : Type)
  | keep
  | acquire (k : κ)
  | release (k : κ)

/-- The owners after a step of party `i`. -/
def Op.apply [DecidableEq κ] (i : ι) (owner : κ → Option ι) : Op κ → κ → Option ι
  | .keep => owner
  | .acquire k => Function.update owner k (some i)
  | .release k => Function.update owner k none

/-- The step takes what is free and gives back what is held; `held` and `held'` are the
party's own account before and after it. -/
def Op.Legal (owner : κ → Option ι) (held held' : κ → Prop) : Op κ → Prop
  | .keep => ∀ m, held' m ↔ held m
  | .acquire k => owner k = none ∧ ∀ m, held' m ↔ held m ∨ m = k
  | .release k => held k ∧ ∀ m, held' m ↔ held m ∧ m ≠ k

/-- The mutexes and the parties agree. -/
def Owned (owner : κ → Option ι) (holds : ι → κ → Prop) : Prop :=
  ∀ k i, owner k = some i ↔ holds i k

section Owned

variable {owner : κ → Option ι} {holds : ι → κ → Prop}

theorem Owned.unique (h : Owned owner holds) {i j : ι} {k : κ} (hi : holds i k)
    (hj : holds j k) : i = j := by
  have hi := (h k i).mpr hi
  rw [(h k j).mpr hj] at hi
  exact (Option.some.inj hi).symm

theorem Owned.free (h : Owned owner holds) {k : κ} (hfree : owner k = none) (i : ι) :
    ¬ holds i k := by
  intro hi
  rw [(h k i).mpr hi] at hfree
  cases hfree

/-- **A legal step keeps the two accounts in agreement.** -/
theorem Owned.step [DecidableEq κ] [DecidableEq ι] (h : Owned owner holds) {i : ι} {op : Op κ}
    {held' : κ → Prop} (hop : op.Legal owner (holds i) held') :
    Owned (op.apply i owner) (Function.update holds i held') := by
  intro k j
  -- the mover's account is the new one, everybody else's the old one
  have hother : ∀ {j}, j ≠ i → Function.update holds i held' j = holds j :=
    fun hj => Function.update_of_ne hj _ _
  cases op with
  | keep =>
      by_cases hj : j = i
      · subst hj
        rw [Function.update_self, hop k]
        exact h k j
      · rw [hother hj]
        exact h k j
  | acquire m =>
      obtain ⟨hfree, hheld⟩ := hop
      show Function.update owner m (some i) k = some j ↔ _
      by_cases hk : k = m
      · subst hk
        rw [Function.update_self]
        by_cases hj : j = i
        · subst hj
          rw [Function.update_self, hheld k]
          exact ⟨fun _ => .inr rfl, fun _ => rfl⟩
        · rw [hother hj]
          exact ⟨fun he => absurd (Option.some.inj he).symm hj, fun hk => absurd hk (h.free hfree j)⟩
      · rw [Function.update_of_ne hk]
        by_cases hj : j = i
        · subst hj
          rw [Function.update_self, hheld k, h k j]
          exact ⟨.inl, fun h => h.resolve_right hk⟩
        · rw [hother hj]
          exact h k j
  | release m =>
      obtain ⟨hmine, hheld⟩ := hop
      show Function.update owner m none k = some j ↔ _
      by_cases hk : k = m
      · subst hk
        rw [Function.update_self]
        refine ⟨nofun, fun hj => ?_⟩
        by_cases hij : j = i
        · subst hij
          rw [Function.update_self, hheld k] at hj
          exact absurd rfl hj.2
        · rw [hother hij] at hj
          exact absurd (h.unique hj hmine) hij
      · rw [Function.update_of_ne hk]
        by_cases hj : j = i
        · subst hj
          rw [Function.update_self, hheld k, h k j]
          exact ⟨fun hm => ⟨hm, hk⟩, fun hm => hm.1⟩
        · rw [hother hj]
          exact h k j

/-- The same, for the accounts of all parties. -/
theorem Owned.step_all [DecidableEq κ] [DecidableEq ι] (h : Owned owner holds) {i : ι} {op : Op κ}
    {holds' : ι → κ → Prop} (hop : op.Legal owner (holds i) (holds' i))
    (hother : ∀ j, j ≠ i → ∀ k, holds' j k ↔ holds j k) : Owned (op.apply i owner) holds' := by
  intro k j
  have hstep := h.step hop k j
  by_cases hj : j = i
  · subst hj
    rwa [Function.update_self] at hstep
  · rwa [Function.update_of_ne hj, ← hother j hj k] at hstep

end Owned

/-! ### Waiting

What keeps waiting from going round in circles is that mutexes are ranked: whoever waits for
one has only mutexes of lower rank, so the ranks grow along a chain of waiting parties, and a
chain that cannot grow any more ends at somebody who can move.
-/

/-- Party `i` wants a mutex that somebody has. -/
def Blocked (owner : κ → Option ι) (wants : ι → Option κ) (i : ι) : Prop :=
  ∃ k, wants i = some k ∧ owner k ≠ none

/-- Party `i` wants a mutex that party `j` has. -/
def WaitsFor (owner : κ → Option ι) (wants : ι → Option κ) (i j : ι) : Prop :=
  ∃ k, wants i = some k ∧ owner k = some j

section Waiting

variable {owner : κ → Option ι} {holds : ι → κ → Prop} {wants : ι → Option κ} {rank : κ → Nat}

/-- Along a chain of waiting parties the mutexes they want rank higher and higher. -/
theorem rank_lt (howned : Owned owner holds)
    (hrank : ∀ i k m, wants i = some k → holds i m → rank m < rank k) {i j : ι}
    (h : Relation.TransGen (WaitsFor owner wants) i j) {k m : κ} (hi : wants i = some k)
    (hj : wants j = some m) : rank k < rank m := by
  have hone : ∀ {i j k m}, WaitsFor owner wants i j → wants i = some k → wants j = some m →
      rank k < rank m := by
    intro i j k m ⟨l, hl, hj⟩ hi hm
    obtain rfl : l = k := Option.some.inj (hl.symm.trans hi)
    exact hrank j m l hm ((howned l j).mp hj)
  induction h generalizing m with
  | single h => exact hone h hi hj
  | tail _ h ih =>
      obtain ⟨l, hl, hlj⟩ := h
      exact Nat.lt_trans (ih hl) (hone ⟨l, hl, hlj⟩ hl hj)

/-- **Nobody waits for itself.** -/
theorem acyclic (howned : Owned owner holds)
    (hrank : ∀ i k m, wants i = some k → holds i m → rank m < rank k) (i : ι) :
    ¬ Relation.TransGen (WaitsFor owner wants) i i := by
  intro h
  obtain ⟨j, ⟨k, hk, -⟩, -⟩ := Relation.TransGen.head'_iff.mp h
  exact Nat.lt_irrefl _ (rank_lt howned hrank h hk hk)

/-- **Whoever is blocked waits, in the end, for somebody who is not.** -/
theorem leads_to_unblocked (howned : Owned owner holds)
    (hrank : ∀ i k m, wants i = some k → holds i m → rank m < rank k) {bound : Nat}
    (hbound : ∀ k, rank k ≤ bound) {i : ι} (h : Blocked owner wants i) :
    ∃ j, Relation.TransGen (WaitsFor owner wants) i j ∧ ¬ Blocked owner wants j := by
  obtain ⟨k, hk, hheld⟩ := h
  -- what is left of the ranks above `k` shrinks with each step of the chain
  induction hn : bound - rank k using Nat.strongRecOn generalizing i k with
  | ind n ih =>
      obtain ⟨j, hj⟩ := Option.ne_none_iff_exists'.mp hheld
      have hwait : WaitsFor owner wants i j := ⟨k, hk, hj⟩
      by_cases hblocked : Blocked owner wants j
      · obtain ⟨m, hm, hmheld⟩ := hblocked
        have hlt := hrank j m k hm ((howned k j).mp hj)
        have hle := hbound m
        obtain ⟨j', hchain, hfree⟩ := ih (bound - rank m) (by omega) m hm hmheld rfl
        exact ⟨j', .head hwait hchain, hfree⟩
      · exact ⟨j, .single hwait, hblocked⟩

end Waiting

end Locks
