/-
Pre- and postconditions of commands.

A language is given by what a command may do to a state; several commands do what they do one
after the other.  A triple says where commands lead to, and the rules put triples together.
-/
import Mathlib.Tactic.Common

namespace Triple

variable {σ γ : Type}

/-- What a list of commands may do. -/
def Runs (step : σ → γ → σ → Prop) : List γ → σ → σ → Prop
  | [], s, s' => s' = s
  | c :: rest, s, s' => ∃ m, step s c m ∧ Runs step rest m s'

/-- From a state in `P` the commands lead to states in `Q` only. -/
def Holds (step : σ → γ → σ → Prop) (P : σ → Prop) (cs : List γ) (Q : σ → Prop) : Prop :=
  ∀ s s', P s → Runs step cs s s' → Q s'

variable {step : σ → γ → σ → Prop} {P P' Q Q' R : σ → Prop} {c : γ} {as bs : List γ} {s s' : σ}

theorem runs_append :
    Runs step (as ++ bs) s s' ↔ ∃ m, Runs step as s m ∧ Runs step bs m s' := by
  induction as generalizing s with
  | nil => simp [Runs]
  | cons a as ih => 
      simp only [List.cons_append, Runs, ih]
      constructor
      · rintro ⟨m, hm, n, has, hbs⟩
        exact ⟨n, ⟨m, hm, has⟩, hbs⟩
      · rintro ⟨n, ⟨m, hm, has⟩, hbs⟩
        exact ⟨m, hm, n, has, hbs⟩

/-- One command. -/
theorem Holds.one (h : ∀ s s', P s → step s c s' → Q s') : Holds step P [c] Q := by
  rintro s s' hs ⟨m, hm, rfl⟩
  exact h s _ hs hm

theorem Holds.nil : Holds step P [] P := by
  rintro s s' hs rfl
  exact hs

/-- **Composition.** -/
theorem Holds.append (h : Holds step P as Q) (h' : Holds step Q bs R) :
    Holds step P (as ++ bs) R := by
  intro s s' hs hruns
  obtain ⟨m, has, hbs⟩ := runs_append.mp hruns
  exact h' m s' (h s m hs has) hbs

/-- **Consequence.** -/
theorem Holds.consequence (h : Holds step P as Q) (hpre : ∀ s, P' s → P s)
    (hpost : ∀ s, Q s → Q' s) : Holds step P' as Q' :=
  fun s s' hs hruns => hpost s' (h s s' (hpre s hs) hruns)

end Triple
