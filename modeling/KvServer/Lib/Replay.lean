/-
Running recorded reads and writes against a store.

An operation carries what it did: a read its result, a write its value.  A list of
operations can be run from a store, which gives the store afterwards (`final`) and says
whether every read would have had the result it is recorded with (`Agrees`).
-/
import Mathlib.Logic.Function.Basic

namespace Replay

variable {κ ν : Type}

inductive Op (κ ν : Type)
  | read (loc : κ) (result : Option ν)
  | write (loc : κ) (value : ν)
  deriving DecidableEq

def Op.loc : Op κ ν → κ
  | .read loc _ => loc
  | .write loc _ => loc

def Op.Agrees (σ : κ → Option ν) : Op κ ν → Prop
  | .read loc result => σ loc = result
  | .write _ _ => True

variable [DecidableEq κ]

def Op.final (σ : κ → Option ν) : Op κ ν → κ → Option ν
  | .read _ _ => σ
  | .write loc value => Function.update σ loc (some value)

/-- The store after all operations. -/
def final (σ : κ → Option ν) (ops : List (Op κ ν)) : κ → Option ν :=
  ops.foldl Op.final σ

/-- Every read has the result it would have if the operations were run from `σ`. -/
def Agrees : (κ → Option ν) → List (Op κ ν) → Prop
  | _, [] => True
  | σ, op :: rest => op.Agrees σ ∧ Agrees (op.final σ) rest

variable {σ ρ : κ → Option ν} {op : Op κ ν} {ops more : List (Op κ ν)} {loc : κ}

@[simp] theorem final_nil : final σ [] = σ := rfl

@[simp] theorem final_cons : final σ (op :: ops) = final (op.final σ) ops := rfl

theorem final_append : final σ (ops ++ more) = final (final σ ops) more :=
  List.foldl_append ..

theorem agrees_append :
    Agrees σ (ops ++ more) ↔ Agrees σ ops ∧ Agrees (final σ ops) more := by
  induction ops generalizing σ with
  | nil => simp [Agrees]
  | cons op ops ih => simp only [List.cons_append, Agrees, ih, final_cons, and_assoc]

/-! ### Each location is on its own

A run of operations can be cut down to one location: what is there afterwards, and whether the
reads of it agree, depends on nothing that happens elsewhere.
-/

theorem Op.final_congr (h : σ loc = ρ loc) : op.final σ loc = op.final ρ loc := by
  cases op with
  | read l result => exact h
  | write l value =>
      show Function.update σ l (some value) loc = Function.update ρ l (some value) loc
      by_cases hl : loc = l
      · subst hl
        rw [Function.update_self, Function.update_self]
      · rw [Function.update_of_ne hl, Function.update_of_ne hl, h]

theorem final_congr (h : σ loc = ρ loc) : final σ ops loc = final ρ ops loc := by
  induction ops generalizing σ ρ with
  | nil => exact h
  | cons op ops ih => exact ih (Op.final_congr h)

/-- No operation writes the location. -/
def Unwritten (loc : κ) (ops : List (Op κ ν)) : Prop := ∀ value, Op.write loc value ∉ ops

omit [DecidableEq κ] in
theorem unwritten_nil : Unwritten loc ([] : List (Op κ ν)) := fun _ => List.not_mem_nil

theorem final_of_unwritten (h : Unwritten loc ops) : final σ ops loc = σ loc := by
  induction ops generalizing σ with
  | nil => rfl
  | cons op ops ih =>
      rw [final_cons, ih fun v hv => h v (List.mem_cons_of_mem _ hv)]
      cases op with
      | read l result => rfl
      | write l value =>
          refine Function.update_of_ne ?_ ..
          rintro rfl
          exact h value List.mem_cons_self

/-- What no operation is about stays. -/
theorem final_of_notMem (h : ∀ op ∈ ops, op.loc ≠ loc) : final σ ops loc = σ loc :=
  final_of_unwritten fun _ hmem => h _ hmem rfl

/-- Stores that are the same where the operations look agree with the same operations. -/
theorem Agrees.congr (h : Agrees σ ops) (hsame : ∀ op ∈ ops, σ op.loc = ρ op.loc) :
    Agrees ρ ops := by
  induction ops generalizing σ ρ with
  | nil => trivial
  | cons op ops ih =>
      refine ⟨?_, ih h.2 fun o ho => Op.final_congr (hsame o (List.mem_cons_of_mem _ ho))⟩
      have hop := hsame op List.mem_cons_self
      cases op with
      | read l result => exact hop.symm.trans h.1
      | write l value => trivial

end Replay
