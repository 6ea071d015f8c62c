/-
Updates of a register that are not atomic.

Each of some parties updates a register once: it reads it, and later it writes the next value after
the one it has read, whatever the others have written in between.  A value is known here by how many
updates have gone into it.

The parties that read before another one writes lose its update, so the count of the value can stay
behind that of the writes; it is never ahead of it, and there is no update that loses all of them
(`Bounded`).  Where nobody else is between its read and its write when one writes, none is lost
(`Exact`).
-/
import Mathlib.Data.Finset.Card
import Mathlib.Logic.Function.Basic

namespace Racing

/-- Where a party is in its update. -/
inductive Party
  | before
  /-- It has read a value that so many updates have gone into. -/
  | read (n : Nat)
  | wrote
  | gone
  deriving DecidableEq

structure Register (ι : Type) where
  /-- how many updates have gone into the value -/
  value : Nat := 0
  party : ι → Party := fun _ => .before

inductive Event (ι : Type)
  | read (i : ι)
  | write (i : ι)
  | quit (i : ι)

def Event.party {ι : Type} : Event ι → ι
  | .read i | .write i | .quit i => i

def step {ι : Type} [DecidableEq ι] (r : Register ι) : Event ι → Option (Register ι)
  | .read i =>
      if r.party i = .before then
        some { r with party := Function.update r.party i (.read r.value) }
      else none
  | .write i =>
      match r.party i with
      | .read n => some { value := n + 1, party := Function.update r.party i .wrote }
      | _ => none
  | .quit i =>
      if r.party i = .wrote then none
      else some { r with party := Function.update r.party i .gone }

/-- Those that have written. -/
def Register.written {ι : Type} (r : Register ι) (parties : Finset ι) : Finset ι :=
  parties.filter fun i => r.party i = .wrote

section Steps

variable {ι : Type} [DecidableEq ι] {r r' : Register ι} {i j : ι} {n : Nat} {x : Party}
  {parties : Finset ι} {e : Event ι}

theorem step_read : step r (.read i) = some r' ↔
    r.party i = .before ∧ r' = { r with party := Function.update r.party i (.read r.value) } := by
  simp [step, eq_comm]

theorem step_write : step r (.write i) = some r' ↔
    ∃ n, r.party i = .read n ∧ r' = { value := n + 1, party := Function.update r.party i .wrote } := by
  rw [step]
  split
  · rename_i n hi
    simp [hi, eq_comm]
  · rename_i hi
    exact ⟨nofun, fun ⟨n, hn, _⟩ => absurd hn (hi n)⟩

theorem step_quit : step r (.quit i) = some r' ↔
    r.party i ≠ .wrote ∧ r' = { r with party := Function.update r.party i .gone } := by
  simp [step, eq_comm]

theorem update_eq_read (h : Function.update r.party i x j = .read n) :
    j = i ∧ x = .read n ∨ j ≠ i ∧ r.party j = .read n := by
  by_cases hj : j = i
  · subst hj
    rw [Function.update_self] at h
    exact .inl ⟨rfl, h⟩
  · rw [Function.update_of_ne hj] at h
    exact .inr ⟨hj, h⟩

/-- What does not write leaves the same ones written. -/
theorem written_update (value : Nat) (parties : Finset ι) (hold : r.party i ≠ .wrote)
    (hx : x ≠ .wrote) :
    Register.written { value := value, party := Function.update r.party i x } parties
      = r.written parties := by
  refine Finset.filter_congr fun j _ => ?_
  by_cases hj : j = i
  · subst hj
    simp [hold, hx]
  · simp [hj]

theorem written_write (value : Nat) (hi : i ∈ parties) (hold : r.party i ≠ .wrote) :
    (Register.written { value := value, party := Function.update r.party i .wrote } parties).card
      = (r.written parties).card + 1 := by
  have hnew : i ∉ r.written parties := fun hmem => hold (Finset.mem_filter.mp hmem).2
  rw [← Finset.card_insert_of_notMem hnew]
  congr 1
  ext j
  by_cases hj : j = i
  · subst hj
    simp [Register.written, hi]
  · simp [Register.written, hj]

/-! ### At most one for each write, and at least one

In any order of reads and writes the value cannot get ahead of the number of writes, since
nobody writes more than one more than something that was there. Once somebody has written it is
not zero, for whatever is written is one more than a number.
-/

structure Bounded (parties : Finset ι) (r : Register ι) : Prop where
  value : r.value ≤ (r.written parties).card
  read : ∀ {i n}, r.party i = .read n → n ≤ (r.written parties).card
  first : (r.written parties).Nonempty → 1 ≤ r.value

omit [DecidableEq ι] in
theorem written_start : Register.written ({} : Register ι) parties = ∅ :=
  Finset.filter_eq_empty_iff.mpr fun _ _ => nofun

omit [DecidableEq ι] in
theorem bounded_start : Bounded parties ({} : Register ι) where
  value := Nat.zero_le _
  read := nofun
  first h := absurd written_start h.ne_empty

theorem Bounded.step (h : Bounded parties r) (he : e.party ∈ parties)
    (hstep : step r e = some r') : Bounded parties r' := by
  cases e with
  | read i =>
      obtain ⟨hi, rfl⟩ := step_read.mp hstep
      have hwrote : r.party i ≠ .wrote := by simp [hi]
      have hsame := written_update r.value parties hwrote (show Party.read r.value ≠ .wrote by nofun)
      refine ⟨hsame ▸ h.value, fun hj => hsame ▸ ?_, fun hne => h.first (hsame ▸ hne)⟩
      rcases update_eq_read hj with ⟨-, hn⟩ | ⟨-, hn⟩
      · exact Party.read.inj hn ▸ h.value
      · exact h.read hn
  | write i =>
      obtain ⟨n, hi, rfl⟩ := step_write.mp hstep
      have hmem : i ∈ parties := he
      have hcard := written_write (n + 1) hmem (show r.party i ≠ .wrote by simp [hi])
      refine ⟨hcard ▸ Nat.succ_le_succ (h.read hi), fun hj => hcard ▸ ?_, fun _ => Nat.succ_pos n⟩
      rcases update_eq_read hj with ⟨-, hn⟩ | ⟨-, hn⟩
      · cases hn
      · exact Nat.le_succ_of_le (h.read hn)
  | quit i =>
      obtain ⟨hi, rfl⟩ := step_quit.mp hstep
      have hsame := written_update r.value parties hi (show Party.gone ≠ .wrote by nofun)
      refine ⟨hsame ▸ h.value, fun hj => hsame ▸ ?_, fun hne => h.first (hsame ▸ hne)⟩
      rcases update_eq_read hj with ⟨-, hn⟩ | ⟨-, hn⟩
      · cases hn
      · exact h.read hn

/-! ### One after the other

An update is only lost to a write that comes between its read and its own write. Without such
writes the value is the number of writes, at every moment.
-/

/-- No update has been lost, and whoever is about to write loses none either. -/
structure Exact (parties : Finset ι) (r : Register ι) : Prop where
  value : r.value = (r.written parties).card
  read : ∀ {i n}, i ∈ parties → r.party i = .read n → n = r.value

/-- Nobody else is between its read and its write when one writes. -/
def Apart (parties : Finset ι) (r : Register ι) : Event ι → Prop
  | .write i => ∀ j ∈ parties, j ≠ i → ∀ n, r.party j ≠ .read n
  | _ => True

omit [DecidableEq ι] in
theorem exact_start : Exact parties ({} : Register ι) where
  value := by rw [written_start, Finset.card_empty]
  read _ := nofun

theorem Exact.step (h : Exact parties r) (he : e.party ∈ parties) (hapart : Apart parties r e)
    (hstep : step r e = some r') : Exact parties r' := by
  cases e with
  | read i =>
      obtain ⟨hi, rfl⟩ := step_read.mp hstep
      have hwrote : r.party i ≠ .wrote := by simp [hi]
      have hsame := written_update r.value parties hwrote (show Party.read r.value ≠ .wrote by nofun)
      refine ⟨hsame ▸ h.value, fun hmem hj => ?_⟩
      rcases update_eq_read hj with ⟨-, hn⟩ | ⟨-, hn⟩
      · exact (Party.read.inj hn).symm
      · exact h.read hmem hn
  | write i =>
      obtain ⟨n, hi, rfl⟩ := step_write.mp hstep
      have hmem : i ∈ parties := he
      have hcard := written_write (n + 1) hmem (show r.party i ≠ .wrote by simp [hi])
      refine ⟨?_, fun hj' hj => ?_⟩
      · rw [hcard, ← h.value, ← h.read hmem hi]
      · rcases update_eq_read hj with ⟨-, hn⟩ | ⟨hne, hn⟩
        · cases hn
        · exact absurd hn (hapart _ hj' hne _)
  | quit i =>
      obtain ⟨hi, rfl⟩ := step_quit.mp hstep
      have hsame := written_update r.value parties hi (show Party.gone ≠ .wrote by nofun)
      refine ⟨hsame ▸ h.value, fun hmem hj => ?_⟩
      rcases update_eq_read hj with ⟨-, hn⟩ | ⟨-, hn⟩
      · cases hn
      · exact h.read hmem hn

end Steps

end Racing
