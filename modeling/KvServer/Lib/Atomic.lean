/-
In two-phase locking a transaction ends with all of its writes or with none.

A `Ledger` records, beside a run, what each table's committed map was when the table was
last taken and what has been written to it since, and which tables a party has given back
in the ending it is in.  `Kept` relates the record to the tables.
-/
import Mathlib.Data.List.Nodup
import KvServer.Lib.TwoPhase

namespace TwoPhase

variable {ι τ κ ν : Type}

/-- A table's time under its present owner. -/
structure Tenure (κ ν : Type) where
  /-- the committed map when the table was taken -/
  committed : κ → Option ν
  /-- what has been written since, oldest first -/
  writes : List (κ × ν)

structure Ledger (ι τ κ ν : Type) where
  tenure : τ → Tenure κ ν
  /-- What a party has given back in the ending it is in, in that order. -/
  released : ι → List τ

namespace View

/-- The tables a party has and has decided nothing about. -/
def undecided : View τ → Finset τ
  | .guarded t => {t}
  | v => v.dirty

/-- In an ending: the tables the transaction had locked. -/
def closing : View τ → Option (Finset τ)
  | .ending _ _ locked => some locked
  | .releasing _ _ _ locked => some locked
  | _ => none

end View

/-- What a party has given back after a call: nothing, unless it is in an ending. -/
def noteReleased (v : View τ) (released : List τ) (call : Call τ κ ν) : List τ :=
  match v.closing with
  | none => []
  | some _ =>
      match call with
      | .unlock t => released ++ [t]
      | _ => released

section

variable [DecidableEq κ]

/-- The writes as a map: later ones override earlier ones. -/
def Tenure.pending (n : Tenure κ ν) : κ → Option ν :=
  n.writes.foldl (fun m w => Function.update m w.1 (some w.2)) fun _ => none

/-- What the owner would leave by committing. -/
def Tenure.result (n : Tenure κ ν) (key : κ) : Option ν :=
  (n.pending key).or (n.committed key)

theorem Tenure.pending_concat (n : Tenure κ ν) (key : κ) (value : ν) :
    ({ n with writes := n.writes ++ [(key, value)] } : Tenure κ ν).pending
      = Function.update n.pending key (some value) := by
  simp [Tenure.pending]

end

variable [DecidableEq τ]

def noteTenure (s : State ι τ κ ν) (tenure : τ → Tenure κ ν) : Call τ κ ν → τ → Tenure κ ν
  | .lock t => Function.update tenure t { committed := s.committed t, writes := [] }
  | .set t key value =>
      Function.update tenure t { tenure t with writes := (tenure t).writes ++ [(key, value)] }
  | _ => tenure

/-- The record after a step of party `i`. -/
def Ledger.note [DecidableEq ι] (s : State ι τ κ ν) (i : ι) (call : Call τ κ ν)
    (l : Ledger ι τ κ ν) : Ledger ι τ κ ν :=
  { tenure := noteTenure s l.tenure call
    released := Function.update l.released i (noteReleased (s.view i) (l.released i) call) }

/-- `locked` is what is left and what has been given back, each table once. -/
structure Parts (locked left : Finset τ) (released : List τ) : Prop where
  nodup : released.Nodup
  mem : ∀ t, t ∈ locked ↔ t ∈ left ∨ t ∈ released
  apart : ∀ t ∈ released, t ∉ left

theorem Parts.release {locked left : Finset τ} {released : List τ} {t : τ}
    (h : Parts locked (insert t left) released) (ht : t ∉ left) :
    Parts locked left (released ++ [t]) where
  nodup := by
    rw [List.nodup_append]
    refine ⟨h.nodup, List.nodup_singleton t, fun u hu v hv heq => ?_⟩
    rw [List.mem_singleton] at hv
    exact h.apart u hu (by rw [heq, hv]; exact Finset.mem_insert_self _ _)
  mem u := by
    rw [h.mem u, Finset.mem_insert, List.mem_append, List.mem_singleton]
    constructor
    · rintro ((rfl | hu) | hu)
      · exact .inr (.inr rfl)
      · exact .inl hu
      · exact .inr (.inl hu)
    · rintro (hu | hu | rfl)
      · exact .inl (.inr hu)
      · exact .inr hu
      · exact .inl (.inl rfl)
  apart u hu := by
    rcases List.mem_append.mp hu with hu | hu
    · exact fun hleft => h.apart u hu (Finset.mem_insert_of_mem hleft)
    · rw [List.mem_singleton.mp hu]
      exact ht

/-- A table becomes undecided when it is taken, and only then. -/
theorem View.Step.undecided {v v' : View τ} {call : Call τ κ ν} (h : v.Step call v') {t : τ}
    (ht : t ∈ v'.undecided) :
    call = .lock t ∨ t ∈ v.undecided ∧ call ≠ .publish t ∧ call ≠ .drop t := by
  cases h with
  | @lock locked u hnot =>
      rcases Finset.mem_insert.mp ht with rfl | ht
      · exact .inl rfl
      · exact .inr ⟨ht, nofun, nofun⟩
  | @guard u =>
      obtain rfl := Finset.mem_singleton.mp ht
      exact .inl rfl
  | @visit commit rest locked u hmem =>
      obtain ⟨hne, ht⟩ := Finset.mem_erase.mp ht
      refine .inr ⟨ht, ?_, ?_⟩
      · cases commit <;> simp [Call.settle, Ne.symm hne]
      · cases commit <;> simp [Call.settle, Ne.symm hne]
  | quiet => exact .inr ⟨ht, nofun, nofun⟩
  | get hmem => exact .inr ⟨ht, nofun, nofun⟩
  | set hmem => exact .inr ⟨ht, nofun, nofun⟩
  | guardSet => exact .inr ⟨ht, nofun, nofun⟩
  | decide => exact .inr ⟨ht, nofun, nofun⟩
  | release => exact .inr ⟨ht, nofun, nofun⟩
  | _ => cases ht

theorem View.undecided_held {v : View τ} {t : τ} (ht : t ∈ v.undecided) : t ∈ v.held := by
  cases v with
  | guarded u => exact ht
  | _ => exact View.dirty_subset _ ht

section

variable {s : State ι τ κ ν} {i : ι} {t : τ} {call : Call τ κ ν} {l : Ledger ι τ κ ν}

/-- The record of a table changes when it is taken or written. -/
theorem noteTenure_ne [DecidableEq ι] (hlock : call ≠ .lock t)
    (hset : ∀ key value, call ≠ .set t key value) :
    (l.note s i call).tenure t = l.tenure t := by
  show noteTenure s l.tenure call t = l.tenure t
  cases call with
  | lock u => exact Function.update_of_ne (by rintro rfl; exact hlock rfl) ..
  | set u key value => exact Function.update_of_ne (by rintro rfl; exact hset key value rfl) ..
  | _ => rfl

end

variable [DecidableEq κ]

/-- The record is right about the tables. -/
structure Kept (s : State ι τ κ ν) (l : Ledger ι τ κ ν) : Prop where
  undecided : ∀ i, ∀ t ∈ (s.view i).undecided,
    s.committed t = (l.tenure t).committed ∧ s.pending t = (l.tenure t).pending
  settled : ∀ i commit t rest locked, s.view i = .releasing commit t rest locked →
    s.committed t = if commit then (l.tenure t).result else (l.tenure t).committed
  parts : ∀ i locked, (s.view i).closing = some locked →
    Parts locked (s.view i).held (l.released i)

variable [DecidableEq ι]

section

variable {s s' : State ι τ κ ν} {i j : ι} {t : τ} {call : Call τ κ ν} {l : Ledger ι τ κ ν}

/-- Others leave the record of a table one has alone. -/
theorem Step.tenure_other (hst : Step s i call s') (hinv : Inv s) (hj : j ≠ i)
    (ht : t ∈ (s.view j).held) : (l.note s i call).tenure t = l.tenure t := by
  refine noteTenure_ne (fun hlock => ?_) fun key value hset => ?_
  · exact hj (hst.caller hinv ht (by rw [hlock]; rfl))
  · exact hj (hst.caller hinv ht (by rw [hset]; rfl))

theorem Kept.step_undecided (hk : Kept s l) (hinv : Inv s) (hst : Step s i call s') (j : ι) (t : τ)
    (ht : t ∈ (s'.view j).undecided) :
    s'.committed t = ((l.note s i call).tenure t).committed ∧
      s'.pending t = ((l.note s i call).tenure t).pending := by
  by_cases hj : j = i
  · subst hj
    rcases hst.view.undecided ht with rfl | ⟨hbefore, hpublish, hdrop⟩
    · -- just taken: nothing is pending
      have hfree : s.owner t = none := by
        obtain ⟨-, hfree⟩ := hst
        exact hfree t rfl
      have htenure : (l.note s j (.lock t)).tenure t = { committed := s.committed t, writes := [] } :=
        Function.update_self ..
      rw [htenure]
      refine ⟨(hst.same rfl t).1, ?_⟩
      rw [(hst.same rfl t).2, hinv.clean_free hfree]
      rfl
    · obtain ⟨hc, hp⟩ := hk.undecided j t hbefore
      by_cases hset : ∃ key value, call = .set t key value
      · obtain ⟨key, value, rfl⟩ := hset
        have htenure : (l.note s j (.set t key value)).tenure t
            = { l.tenure t with writes := (l.tenure t).writes ++ [(key, value)] } :=
          Function.update_self ..
        rw [htenure, Tenure.pending_concat, hst.set_eq.1, hst.set_eq.2, hp]
        exact ⟨hc, rfl⟩
      · have hset : ∀ key value, call ≠ .set t key value := fun key value he => hset ⟨key, value, he⟩
        have hlock : call ≠ .lock t := by
          rintro rfl
          obtain ⟨-, hfree⟩ := hst
          exact hinv.owned.free (hfree t rfl) j (View.undecided_held hbefore)
        rw [noteTenure_ne hlock hset, hst.committed_eq hpublish, hst.pending_eq hset hpublish hdrop]
        exact ⟨hc, hp⟩
  · rw [hst.other hj] at ht
    have hheld := View.undecided_held ht
    obtain ⟨-, hc, hp⟩ := hst.frame hinv hj hheld
    rw [hst.tenure_other hinv hj hheld, hc, hp]
    exact hk.undecided j t ht

theorem Kept.step_settled (hk : Kept s l) (hinv : Inv s) (hst : Step s i call s') (j : ι)
    (commit : Bool) (t : τ) (rest locked : Finset τ)
    (hview : s'.view j = .releasing commit t rest locked) :
    s'.committed t = if commit then ((l.note s i call).tenure t).result
      else ((l.note s i call).tenure t).committed := by
  by_cases hj : j = i
  · subst hj
    have hstep := hst.view
    rw [hview] at hstep
    generalize hbefore : s.view j = v at hstep
    cases hstep with
    | quiet =>
        rw [(hst.same rfl t).1]
        exact hk.settled j commit t rest locked hbefore
    | @visit _ rest _ _ ht =>
        obtain ⟨hc, hp⟩ := hk.undecided j t (by rw [hbefore]; exact ht)
        cases commit with
        | true =>
            change Step s j (.publish t) s' at hst
            have htenure : (l.note s j (.publish t)).tenure t = l.tenure t := rfl
            show s'.committed t = ((l.note s j (.publish t)).tenure t).result
            rw [htenure]
            refine hst.publish_eq.1.trans (funext fun key => ?_)
            rw [State.visible, hc, hp]
            rfl
        | false =>
            change Step s j (.drop t) s' at hst
            have htenure : (l.note s j (.drop t)).tenure t = l.tenure t := rfl
            show s'.committed t = ((l.note s j (.drop t)).tenure t).committed
            rw [htenure, ← hc]
            exact congrFun hst.drop_eq.1 t
  · rw [hst.other hj] at hview
    have hheld : t ∈ (s.view j).held := by
      rw [hview]
      exact Finset.mem_insert_self _ _
    rw [hst.tenure_other hinv hj hheld, (hst.frame hinv hj hheld).2.1]
    exact hk.settled j commit t rest locked hview

theorem Kept.step_parts (hk : Kept s l) (hinv : Inv s) (hst : Step s i call s') (j : ι)
    (locked : Finset τ) (hclosing : (s'.view j).closing = some locked) :
    Parts locked (s'.view j).held ((l.note s i call).released j) := by
  by_cases hj : j = i
  · subst hj
    have hreleased : (l.note s j call).released j = noteReleased (s.view j) (l.released j) call :=
      Function.update_self ..
    rw [hreleased]
    have hstep := hst.view
    have hwf := hinv.wf j
    have hparts := hk.parts j
    generalize s.view j = v at hstep hwf hparts
    generalize s'.view j = v' at hstep hclosing
    cases hstep with
    | quiet =>
        have := hparts locked hclosing
        unfold noteReleased
        rw [hclosing]
        exact this
    | decide =>
        cases hclosing
        exact ⟨List.nodup_nil, fun t => by simp [View.held, noteReleased, View.closing], nofun⟩
    | @visit commit rest _ t ht =>
        cases hclosing
        have := hparts locked rfl
        cases commit with
        | true =>
            simpa [View.held, Finset.insert_erase ht, noteReleased, View.closing, Call.settle] using this
        | false =>
            simpa [View.held, Finset.insert_erase ht, noteReleased, View.closing, Call.settle] using this
    | release =>
        cases hclosing
        exact (hparts locked rfl).release hwf.1
    | _ => cases hclosing
  · have hreleased : (l.note s i call).released j = l.released j := Function.update_of_ne hj ..
    rw [hst.other hj] at hclosing ⊢
    rw [hreleased]
    exact hk.parts j locked hclosing

/-- **A step keeps the record right.** -/
theorem Kept.step (hk : Kept s l) (hinv : Inv s) (hst : Step s i call s') :
    Kept s' (l.note s i call) where
  undecided := hk.step_undecided hinv hst
  settled := hk.step_settled hinv hst
  parts := hk.step_parts hinv hst

end

end TwoPhase
