/-
Objects that are called, and the transactional map.

An object answers each call and goes to a new state.  Two objects that answer alike as
long as their states are related answer alike for good: `Object.refines` is that, and it
is the only induction over a list of calls.

The transactional map is what a store with commit and rollback is for: what has been
committed, and what a reader sees.  Writing changes what is seen, committing makes it
what is committed, rolling back forgets it.
-/
import Mathlib.Logic.Function.Basic

/-! ### Objects

An object is any state that answers any call; nothing here is about maps.
-/

namespace Object

variable {σ τ γ ρ : Type}

/-- Every call of the list, one after another: the state after them, and the answers. -/
def run (call : σ → γ → σ × ρ) : σ → List γ → σ × List ρ
  | s, [] => (s, [])
  | s, c :: rest =>
      ((run call (call s c).1 rest).1, (call s c).2 :: (run call (call s c).1 rest).2)

@[simp] theorem run_nil (call : σ → γ → σ × ρ) (s : σ) : run call s [] = (s, []) := rfl

theorem run_cons (call : σ → γ → σ × ρ) (s : σ) (c : γ) (rest : List γ) :
    run call s (c :: rest) =
      ((run call (call s c).1 rest).1, (call s c).2 :: (run call (call s c).1 rest).2) := rfl

/-- **Refinement.**  A relation that every call keeps, with the same answer on both sides, gives
related states and the same answers after any list of calls. -/
theorem refines {concrete : σ → γ → σ × ρ} {abstract : τ → γ → τ × ρ} {R : σ → τ → Prop}
    (hcall : ∀ {s t} c, R s t →
      (concrete s c).2 = (abstract t c).2 ∧ R (concrete s c).1 (abstract t c).1)
    {s : σ} {t : τ} (h : R s t) (calls : List γ) :
    (run concrete s calls).2 = (run abstract t calls).2 ∧
      R (run concrete s calls).1 (run abstract t calls).1 := by
  induction calls generalizing s t with
  | nil => exact ⟨rfl, h⟩
  | cons c rest ih =>
      obtain ⟨hanswer, hnext⟩ := hcall c h
      obtain ⟨hanswers, hlast⟩ := ih hnext
      rw [run_cons, run_cons]
      exact ⟨by rw [hanswer, hanswers], hlast⟩

end Object

/-! ### The transactional map -/

namespace Transactional

variable {κ ν ε : Type}

/-- What can be asked of the map. -/
inductive Call (κ ν : Type)
  | set (key : κ) (value : ν)
  | get (key : κ)
  | hasKey (key : κ)
  | commit
  | rollback

/-- What is answered: a look-up may fail, and the other calls cannot. -/
inductive Answer (ε ν : Type)
  | done
  | got (result : Except ε ν)
  | has (found : Bool)

/-- What is committed, and what a reader sees. -/
structure Maps (κ ν : Type) where
  committed : κ → Option ν
  visible : κ → Option ν

namespace Maps

/-- Nothing yet. -/
def empty : Maps κ ν := { committed := fun _ => none, visible := fun _ => none }

/-- The meaning of each call; `absent` is what looking up a key without a value fails with. -/
def call [DecidableEq κ] (absent : ε) (m : Maps κ ν) : Call κ ν → Maps κ ν × Answer ε ν
  | .set key value => ({ m with visible := Function.update m.visible key (some value) }, .done)
  | .get key => (m, .got ((m.visible key).elim (.error absent) .ok))
  | .hasKey key => (m, .has (m.visible key).isSome)
  | .commit => ({ m with committed := m.visible }, .done)
  | .rollback => ({ m with visible := m.committed }, .done)

end Maps

end Transactional
