/-
Two-phase locking over tables that are published one by one.

Parties work on tables, each with a committed map, a pending map and a mutex.  A party
either runs a transaction, which takes tables as it goes and in the end publishes or
drops its writes table by table, giving each table back at once; or it runs a single
operation under one table's mutex.  `View` is where a party is in this protocol and
`View.Step` what it may do from there.  `Inv` is what the protocol keeps.

`logical` is the state of the data that counts: what a party that has decided to commit
has written is in it from that moment on, whether it is published yet or not.
`Step.logical` says that it changes at two kinds of step only.
-/
import Mathlib.Data.Finset.Basic
import KvServer.Lib.Locks

namespace TwoPhase

variable {ι τ κ ν : Type}

/-- Where a party is. -/
inductive View (τ : Type)
  | outside
  /-- in a transaction that has taken these tables -/
  | inside (locked : Finset τ)
  /-- in a single operation: the table is taken, written, or done with -/
  | guarded (t : τ)
  | publishing (t : τ)
  | guardDone (t : τ)
  /-- at the end of a transaction, with `rest` of its tables still to be seen to -/
  | ending (commit : Bool) (rest locked : Finset τ)
  | releasing (commit : Bool) (t : τ) (rest locked : Finset τ)
  | gone

/-- What a step of a party does. -/
inductive Call (τ κ ν : Type)
  | none
  /-- a request arrives while the party is outside a transaction -/
  | arrive
  | lock (t : τ)
  | unlock (t : τ)
  | get (t : τ) (key : κ)
  | set (t : τ) (key : κ) (value : ν)
  | publish (t : τ)
  | drop (t : τ)

/-- How a transaction sees to one of its tables. -/
def Call.settle (t : τ) : Bool → Call τ κ ν
  | true => .publish t
  | false => .drop t

structure State (ι τ κ ν : Type) where
  committed : τ → κ → Option ν
  pending : τ → κ → Option ν
  owner : τ → Option ι
  view : ι → View τ

namespace Call

/-- The call's effect on the mutexes. -/
def op : Call τ κ ν → Locks.Op τ
  | .lock t => .acquire t
  | .unlock t => .release t
  | _ => .keep

/-- The table the call is about. -/
def table : Call τ κ ν → Option τ
  | .none => Option.none
  | .arrive => Option.none
  | .lock t => some t
  | .unlock t => some t
  | .get t _ => some t
  | .set t _ _ => some t
  | .publish t => some t
  | .drop t => some t

/-- The call changes what is committed or pending. -/
def alters : Call τ κ ν → Bool
  | .set _ _ _ => true
  | .publish _ => true
  | .drop _ => true
  | _ => false

@[simp] theorem table_settle (t : τ) (commit : Bool) :
    (settle t commit : Call τ κ ν).table = some t := by
  cases commit <;> rfl

@[simp] theorem op_settle (t : τ) (commit : Bool) :
    (settle t commit : Call τ κ ν).op = .keep := by
  cases commit <;> rfl

end Call

namespace View

/-- The tables in which a party may have writes pending. -/
def dirty : View τ → Finset τ
  | .inside locked => locked
  | .publishing t => {t}
  | .ending _ rest _ => rest
  | .releasing _ _ rest _ => rest
  | _ => ∅

/-- Those of them whose pending writes it has decided to publish. -/
def committing : View τ → Finset τ
  | .publishing t => {t}
  | .ending true rest _ => rest
  | .releasing true _ rest _ => rest
  | _ => ∅

theorem committing_subset (v : View τ) : v.committing ⊆ v.dirty := by
  cases v with
  | publishing t => exact subset_rfl
  | ending commit rest locked =>
      cases commit with
      | true => exact subset_rfl
      | false => exact Finset.empty_subset _
  | releasing commit t rest locked =>
      cases commit with
      | true => exact subset_rfl
      | false => exact Finset.empty_subset _
  | _ => exact Finset.empty_subset _

variable [DecidableEq τ]

/-- The tables a party has. -/
def held : View τ → Finset τ
  | .outside => ∅
  | .inside locked => locked
  | .guarded t => {t}
  | .publishing t => {t}
  | .guardDone t => {t}
  | .ending _ rest _ => rest
  | .releasing _ t rest _ => insert t rest
  | .gone => ∅

/-- A transaction ends with the tables it has locked, each of them once. -/
def WF : View τ → Prop
  | .ending _ rest locked => rest ⊆ locked
  | .releasing _ t rest locked => t ∉ rest ∧ insert t rest ⊆ locked
  | _ => True

/-- The steps of a party. -/
inductive Step : View τ → Call τ κ ν → View τ → Prop
  | quiet {v : View τ} : Step v .none v
  | arrive : Step .outside .arrive .outside
  | begin : Step .outside .arrive (.inside ∅)
  | leave : Step .outside .arrive .gone
  | quit : Step .outside .none .gone
  -- a transaction
  | lock {locked : Finset τ} {t : τ} (ht : t ∉ locked) :
      Step (.inside locked) (.lock t) (.inside (insert t locked))
  | get {locked : Finset τ} {t : τ} {key : κ} (ht : t ∈ locked) :
      Step (.inside locked) (.get t key) (.inside locked)
  | set {locked : Finset τ} {t : τ} {key : κ} {value : ν} (ht : t ∈ locked) :
      Step (.inside locked) (.set t key value) (.inside locked)
  -- a single operation
  | guard {t : τ} : Step .outside (.lock t) (.guarded t)
  | guardGet {t : τ} {key : κ} : Step (.guarded t) (.get t key) (.guardDone t)
  | guardSet {t : τ} {key : κ} {value : ν} : Step (.guarded t) (.set t key value) (.publishing t)
  | guardPublish {t : τ} : Step (.publishing t) (.publish t) (.guardDone t)
  | unguard {t : τ} : Step (.guardDone t) (.unlock t) .outside
  -- the end of a transaction
  | decide {commit : Bool} {locked : Finset τ} :
      Step (.inside locked) .none (.ending commit locked locked)
  | visit {commit : Bool} {rest locked : Finset τ} {t : τ} (ht : t ∈ rest) :
      Step (.ending commit rest locked) (.settle t commit)
        (.releasing commit t (rest.erase t) locked)
  | release {commit : Bool} {rest locked : Finset τ} {t : τ} :
      Step (.releasing commit t rest locked) (.unlock t) (.ending commit rest locked)
  | finish {commit : Bool} {locked : Finset τ} : Step (.ending commit ∅ locked) .none .outside
  | vanish {locked : Finset τ} : Step (.ending false ∅ locked) .none .gone

theorem dirty_subset (v : View τ) : v.dirty ⊆ v.held := by
  cases v with
  | releasing commit t rest locked => exact Finset.subset_insert _ _
  | inside locked => exact subset_rfl
  | publishing t => exact subset_rfl
  | ending commit rest locked => exact subset_rfl
  | _ => exact Finset.empty_subset _

end View

variable [DecidableEq τ]

section

variable {v v' : View τ} {call : Call τ κ ν}

theorem View.Step.wf (h : v.Step call v') (hwf : v.WF) : v'.WF := by
  cases h with
  | quiet => exact hwf
  | decide => exact subset_rfl
  | visit ht => exact ⟨Finset.notMem_erase _ _, by rw [Finset.insert_erase ht]; exact hwf⟩
  | release => exact (Finset.subset_insert _ _).trans hwf.2
  | _ => trivial

/-- What a step does to the mutexes. -/
theorem View.Step.legal {owner : τ → Option ι} (h : v.Step call v') (hwf : v.WF)
    (hfree : ∀ t, call = .lock t → owner t = none) :
    call.op.Legal owner (· ∈ v.held) (· ∈ v'.held) := by
  cases h with
  | lock ht =>
      refine ⟨hfree _ rfl, fun t => ?_⟩
      simp only [View.held, Finset.mem_insert]
      exact or_comm
  | guard => exact ⟨hfree _ rfl, fun t => by simp [View.held]⟩
  | unguard => exact ⟨by simp [View.held], fun t => by simp [View.held]⟩
  | @release commit rest locked t =>
      refine ⟨by simp [View.held], fun u => ?_⟩
      simp only [View.held, Finset.mem_insert]
      constructor
      · intro hu
        exact ⟨.inr hu, fun heq => hwf.1 (heq ▸ hu)⟩
      · rintro ⟨heq | hu, hne⟩
        · exact absurd heq hne
        · exact hu
  | visit ht =>
      rw [Call.op_settle]
      intro u
      simp only [View.held, Finset.insert_erase ht]
  | _ => exact fun t => Iff.rfl

/-- Only a table one has is called. -/
theorem View.Step.table_held (h : v.Step call v') {t : τ} (ht : call.table = some t) :
    t ∈ v.held ∨ call = .lock t := by
  cases h with
  | lock hnot =>
      cases ht
      exact .inr rfl
  | guard =>
      cases ht
      exact .inr rfl
  | get hmem =>
      cases ht
      exact .inl hmem
  | set hmem =>
      cases ht
      exact .inl hmem
  | visit hmem =>
      rw [Call.table_settle] at ht
      cases ht
      exact .inl hmem
  | guardGet => cases ht; exact .inl (Finset.mem_singleton_self _)
  | guardSet => cases ht; exact .inl (Finset.mem_singleton_self _)
  | guardPublish => cases ht; exact .inl (Finset.mem_singleton_self _)
  | unguard => cases ht; exact .inl (Finset.mem_singleton_self _)
  | release => cases ht; exact .inl (Finset.mem_insert_self _ _)
  | _ => cases ht

/-- A party stays answerable for what it has pending until it publishes or drops it. -/
theorem View.Step.dirty_kept (h : v.Step call v') {t : τ} (ht : t ∈ v.dirty) :
    t ∈ v'.dirty ∨ call = .publish t ∨ call = .drop t := by
  cases h with
  | lock hnot => exact .inl (Finset.mem_insert_of_mem ht)
  | guardPublish =>
      obtain rfl := Finset.mem_singleton.mp ht
      exact .inr (.inl rfl)
  | @visit commit rest locked u hmem =>
      by_cases htu : t = u
      · subst htu
        cases commit with
        | true => exact .inr (.inl rfl)
        | false => exact .inr (.inr rfl)
      · exact .inl (Finset.mem_erase.mpr ⟨htu, ht⟩)
  | finish => exact .inl ht
  | vanish => exact .inl ht
  | quiet => exact .inl ht
  | get hmem => exact .inl ht
  | set hmem => exact .inl ht
  | decide => exact .inl ht
  | release => exact .inl ht
  | _ => cases ht

theorem View.Step.set_dirty (h : v.Step call v') {t : τ} {key : κ} {value : ν}
    (hcall : call = .set t key value) : t ∈ v'.dirty ∧ v.committing = ∅ := by
  cases h with
  | set hmem =>
      cases hcall
      exact ⟨hmem, rfl⟩
  | guardSet =>
      cases hcall
      exact ⟨Finset.mem_singleton_self _, rfl⟩
  | @visit commit rest locked u hmem => cases commit <;> cases hcall
  | _ => cases hcall

theorem View.Step.publish_committing (h : v.Step call v') {t : τ} (hcall : call = .publish t) :
    t ∈ v.committing ∧ t ∉ v'.committing := by
  cases h with
  | guardPublish =>
      cases hcall
      exact ⟨Finset.mem_singleton_self _, Finset.notMem_empty _⟩
  | @visit commit rest locked u hmem =>
      cases commit with
      | true =>
          cases hcall
          exact ⟨hmem, Finset.notMem_erase _ _⟩
      | false => cases hcall
  | _ => cases hcall

theorem View.Step.drop_committing (h : v.Step call v') {t : τ} (hcall : call = .drop t) :
    v.committing = ∅ := by
  cases h with
  | @visit commit rest locked u hmem =>
      cases commit with
      | true => cases hcall
      | false => rfl
  | _ => cases hcall

/-- A decision to publish stands. -/
theorem View.Step.committing_kept (h : v.Step call v') {t : τ} (ht : t ∈ v.committing) :
    t ∈ v'.committing ∨ call = .publish t := by
  cases h with
  | guardPublish =>
      obtain rfl := Finset.mem_singleton.mp ht
      exact .inr rfl
  | @visit commit rest locked u hmem =>
      cases commit with
      | true =>
          by_cases htu : t = u
          · exact .inr (htu ▸ rfl)
          · exact .inl (Finset.mem_erase.mpr ⟨htu, ht⟩)
      | false => cases ht
  | @release commit rest locked u =>
      cases commit with
      | true => exact .inl ht
      | false => cases ht
  | @finish commit locked => cases commit <;> cases ht
  | quiet => exact .inl ht
  | _ => cases ht

end

namespace State

/-- What a reader under the table's mutex sees. -/
def visible (s : State ι τ κ ν) (t : τ) (key : κ) : Option ν :=
  (s.pending t key).or (s.committed t key)

/-- The state of the data that counts. -/
def logical (s : State ι τ κ ν) (t : τ) : κ → Option ν :=
  match s.owner t with
  | some i => if t ∈ (s.view i).committing then s.visible t else s.committed t
  | none => s.committed t

end State

/-! ### The invariant

Three things have to hold together: the mutexes agree with what the parties have, a party's
view is well formed, and nothing is pending where nobody could have written.
-/

structure Inv (s : State ι τ κ ν) : Prop where
  wf : ∀ i, (s.view i).WF
  /-- A table has the owner that thinks it has it. -/
  owned : Locks.Owned s.owner fun i t => t ∈ (s.view i).held
  /-- Somebody is answerable for whatever is pending. -/
  clean : ∀ t, (∀ i, t ∉ (s.view i).dirty) → s.pending t = fun _ => none

section

variable {s : State ι τ κ ν} {i : ι} {t : τ}

/-- A table that `i` has and has not written to holds nothing pending. -/
theorem Inv.clean_held (h : Inv s) (hheld : t ∈ (s.view i).held) (ht : t ∉ (s.view i).dirty) :
    s.pending t = fun _ => none := by
  refine h.clean t fun j hj => ?_
  obtain rfl := h.owned.unique (View.dirty_subset _ hj) hheld
  exact ht hj

/-- A table nobody has holds nothing pending. -/
theorem Inv.clean_free (h : Inv s) (hfree : s.owner t = none) : s.pending t = fun _ => none :=
  h.clean t fun i hi => h.owned.free hfree i (View.dirty_subset _ hi)

theorem View.committing_held {v : View τ} (ht : t ∈ v.committing) : t ∈ v.held :=
  dirty_subset _ (committing_subset _ ht)

theorem Inv.logical_committing (h : Inv s) (ht : t ∈ (s.view i).committing) :
    s.logical t = s.visible t := by
  simp [State.logical, (h.owned t i).mpr (View.committing_held ht), ht]

/-- Where nothing is pending at a key, what is committed there counts. -/
theorem logical_of_pending {key : κ} (h : s.pending t key = none) :
    s.logical t key = s.committed t key := by
  have hvisible : s.visible t key = s.committed t key := by simp [State.visible, h]
  cases howner : s.owner t with
  | none => simp [State.logical, howner]
  | some i =>
      by_cases ht : t ∈ (s.view i).committing
      · simp [State.logical, howner, ht, hvisible]
      · simp [State.logical, howner, ht]

theorem logical_committed (ht : ∀ i, t ∉ (s.view i).committing) :
    s.logical t = s.committed t := by
  unfold State.logical
  split
  · exact if_neg (ht _)
  · rfl

end

section

variable {s s' : State ι τ κ ν} {t : τ}

omit [DecidableEq τ]

theorem visible_of_clean (h : s.pending t = fun _ => none) : s.visible t = s.committed t := by
  funext key
  simp [State.visible, h]

theorem visible_congr (hc : s'.committed t = s.committed t) (hp : s'.pending t = s.pending t) :
    s'.visible t = s.visible t := by
  funext key
  simp [State.visible, hc, hp]

end

/-! ### The system

A step is a call and a change of the caller's view that the view allows; what the call does to
the maps is `apply`, whoever makes it.
-/

namespace State

variable [DecidableEq κ]

/-- The maps and the mutexes after a call of party `i`. -/
def apply (s : State ι τ κ ν) (i : ι) : Call τ κ ν → State ι τ κ ν
  | .lock t => { s with owner := Function.update s.owner t (some i) }
  | .unlock t => { s with owner := Function.update s.owner t none }
  | .set t key value => { s with
      pending := Function.update s.pending t (Function.update (s.pending t) key (some value)) }
  | .publish t => { s with
      committed := Function.update s.committed t (s.visible t)
      pending := Function.update s.pending t fun _ => none }
  | .drop t => { s with pending := Function.update s.pending t fun _ => none }
  | _ => s

end State

variable [DecidableEq κ] [DecidableEq ι]

/-- One step of party `i`. -/
inductive Step (s : State ι τ κ ν) (i : ι) (call : Call τ κ ν) : State ι τ κ ν → Prop
  | mk {v : View τ} (hview : (s.view i).Step call v) (hfree : ∀ t, call = .lock t → s.owner t = none) :
      Step s i call { s.apply i call with view := Function.update s.view i v }

section

variable {s s' : State ι τ κ ν} {i j : ι} {t : τ} {call : Call τ κ ν}

theorem Step.view (h : Step s i call s') : (s.view i).Step call (s'.view i) := by
  obtain ⟨hview, hfree⟩ := h
  show (s.view i).Step call (Function.update s.view i _ i)
  rw [Function.update_self]
  exact hview

theorem Step.other (h : Step s i call s') (hj : j ≠ i) : s'.view j = s.view j := by
  obtain ⟨hview, hfree⟩ := h
  exact Function.update_of_ne hj ..

/-! ### What a call does to a table

Each of the maps changes at few calls only. These are the equations that say which, and every
proof about steps below starts from them instead of from `apply`.
-/

theorem Step.owner_eq (h : Step s i call s') : s'.owner = call.op.apply i s.owner := by
  obtain ⟨hview, hfree⟩ := h
  cases call <;> rfl

/-- A table that the call is not about stays as it is. -/
theorem Step.table_ne (h : Step s i call s') (ht : call.table ≠ some t) :
    s'.owner t = s.owner t ∧ s'.committed t = s.committed t ∧ s'.pending t = s.pending t := by
  obtain ⟨hview, hfree⟩ := h
  cases call with
  | none => exact ⟨rfl, rfl, rfl⟩
  | arrive => exact ⟨rfl, rfl, rfl⟩
  | get u key => exact ⟨rfl, rfl, rfl⟩
  | lock u =>
      have hu : t ≠ u := fun h => ht (h ▸ rfl)
      simp [State.apply, hu]
  | unlock u =>
      have hu : t ≠ u := fun h => ht (h ▸ rfl)
      simp [State.apply, hu]
  | set u key value =>
      have hu : t ≠ u := fun h => ht (h ▸ rfl)
      simp [State.apply, hu]
  | publish u =>
      have hu : t ≠ u := fun h => ht (h ▸ rfl)
      simp [State.apply, hu]
  | drop u =>
      have hu : t ≠ u := fun h => ht (h ▸ rfl)
      simp [State.apply, hu]

/-- Committed maps change when they are published, -/
theorem Step.committed_eq (hst : Step s i call s') (ht : call ≠ .publish t) :
    s'.committed t = s.committed t := by
  obtain ⟨hview, hfree⟩ := hst
  cases call with
  | publish u => exact Function.update_of_ne (by rintro rfl; exact ht rfl) ..
  | _ => rfl

/-- pending ones also when something is SET or dropped. -/
theorem Step.pending_eq (hst : Step s i call s') (hset : ∀ key value, call ≠ .set t key value)
    (hpublish : call ≠ .publish t) (hdrop : call ≠ .drop t) : s'.pending t = s.pending t := by
  obtain ⟨hview, hfree⟩ := hst
  cases call with
  | set u key value =>
      exact Function.update_of_ne (by rintro rfl; exact hset key value rfl) ..
  | publish u => exact Function.update_of_ne (by rintro rfl; exact hpublish rfl) ..
  | drop u => exact Function.update_of_ne (by rintro rfl; exact hdrop rfl) ..
  | _ => rfl

/-- The other calls change neither. -/
theorem Step.same (hst : Step s i call s') (h : call.alters = false) (t : τ) :
    s'.committed t = s.committed t ∧ s'.pending t = s.pending t := by
  obtain ⟨hview, hfree⟩ := hst
  cases call with
  | set u key value => cases h
  | publish u => cases h
  | drop u => cases h
  | _ => exact ⟨rfl, rfl⟩

theorem Step.same_visible (hst : Step s i call s') (h : call.alters = false) (t : τ) :
    s'.visible t = s.visible t :=
  visible_congr (hst.same h t).1 (hst.same h t).2

theorem Step.set_eq {key : κ} {value : ν} (h : Step s i (.set t key value) s') :
    s'.committed = s.committed ∧
      s'.pending t = Function.update (s.pending t) key (some value) := by
  obtain ⟨hview, hfree⟩ := h
  exact ⟨rfl, Function.update_self ..⟩

theorem Step.publish_eq (h : Step s i (.publish t) s') :
    s'.committed t = s.visible t ∧ s'.pending t = fun _ => none := by
  obtain ⟨hview, hfree⟩ := h
  exact ⟨Function.update_self .., Function.update_self ..⟩

theorem Step.drop_eq (h : Step s i (.drop t) s') :
    s'.committed = s.committed ∧ s'.pending t = fun _ => none := by
  obtain ⟨hview, hfree⟩ := h
  exact ⟨rfl, Function.update_self ..⟩

/-! ### The invariant is kept -/

/-- A call on a table somebody has is made by that party. -/
theorem Step.caller (hst : Step s i call s') (h : Inv s) (ht : t ∈ (s.view j).held)
    (hcall : call.table = some t) : j = i := by
  have hview := hst.view
  obtain ⟨-, hfree⟩ := hst
  rcases hview.table_held hcall with hheld | rfl
  · exact h.owned.unique ht hheld
  · exact absurd ht (h.owned.free (hfree t rfl) j)

/-- **Nobody else touches a table one has.** -/
theorem Step.frame (hst : Step s i call s') (h : Inv s) (hj : j ≠ i) (ht : t ∈ (s.view j).held) :
    s'.owner t = s.owner t ∧ s'.committed t = s.committed t ∧ s'.pending t = s.pending t :=
  hst.table_ne fun hcall => hj (hst.caller h ht hcall)

theorem Step.owned (hst : Step s i call s') (h : Inv s) :
    Locks.Owned s'.owner fun j t => t ∈ (s'.view j).held := by
  have hheld : (fun j t => t ∈ (s'.view j).held)
      = Function.update (fun j t => t ∈ (s.view j).held) i (· ∈ (s'.view i).held) := by
    funext j
    by_cases hj : j = i
    · subst hj
      rw [Function.update_self]
    · rw [Function.update_of_ne hj, hst.other hj]
  have hview := hst.view
  rw [hheld, hst.owner_eq]
  obtain ⟨-, hfree⟩ := hst
  exact h.owned.step (hview.legal (h.wf i) hfree)

theorem Step.clean (hst : Step s i call s') (h : Inv s) (t : τ)
    (ht : ∀ j, t ∉ (s'.view j).dirty) : s'.pending t = fun _ => none := by
  -- nobody was answerable before, unless the writes have just been published or dropped
  have hbefore : (∀ j, t ∉ (s.view j).dirty) ∨ call = .publish t ∨ call = .drop t := by
    by_cases hself : t ∈ (s.view i).dirty
    · exact .inr ((hst.view.dirty_kept hself).resolve_left (ht i))
    · refine .inl fun j hj => ?_
      by_cases hji : j = i
      · exact hself (hji ▸ hj)
      · exact ht j (by rw [hst.other hji]; exact hj)
  rcases hbefore with hbefore | rfl | rfl
  · by_cases hpublish : call = .publish t
    · subst hpublish
      exact hst.publish_eq.2
    · by_cases hdrop : call = .drop t
      · subst hdrop
        exact hst.drop_eq.2
      · rw [hst.pending_eq (fun key value hset => ht i (hst.view.set_dirty hset).1) hpublish hdrop]
        exact h.clean t hbefore
  · exact hst.publish_eq.2
  · exact hst.drop_eq.2

/-- If only some parties write a key, what is pending at it is one of theirs. -/
theorem Step.pending_of (hst : Step s i call s') {ours : ι → Prop} {key : κ}
    (hwrite : ours i ∨ ∀ value, call ≠ .set t key value)
    (h : s.pending t key ≠ none → ∃ j, ours j ∧ t ∈ (s.view j).dirty)
    (hpending : s'.pending t key ≠ none) : ∃ j, ours j ∧ t ∈ (s'.view j).dirty := by
  have hpublish : call ≠ .publish t := by
    rintro rfl
    exact hpending (congrFun hst.publish_eq.2 key)
  have hdrop : call ≠ .drop t := by
    rintro rfl
    exact hpending (congrFun hst.drop_eq.2 key)
  by_cases hset : ∃ value, call = .set t key value
  · obtain ⟨value, rfl⟩ := hset
    exact ⟨i, hwrite.resolve_right fun hno => hno value rfl, (hst.view.set_dirty rfl).1⟩
  · -- nothing has been written to the key, so whoever was answerable still is
    have hkeep : s'.pending t key = s.pending t key := by
      by_cases hother : ∃ key' value, call = .set t key' value
      · obtain ⟨key', value, rfl⟩ := hother
        rw [hst.set_eq.2, Function.update_of_ne]
        rintro rfl
        exact hset ⟨value, rfl⟩
      · rw [hst.pending_eq (fun key' value hcall => hother ⟨key', value, hcall⟩) hpublish hdrop]
    obtain ⟨j, hj, hdirty⟩ := h (hkeep ▸ hpending)
    refine ⟨j, hj, ?_⟩
    by_cases hji : j = i
    · subst hji
      exact ((hst.view.dirty_kept hdirty).resolve_right fun hcall =>
        hcall.elim hpublish hdrop)
    · rwa [hst.other hji]

/-- **A step keeps the invariant.** -/
theorem Step.inv (hst : Step s i call s') (h : Inv s) : Inv s' where
  wf j := by
    by_cases hj : j = i
    · subst hj
      exact hst.view.wf (h.wf j)
    · rw [hst.other hj]
      exact h.wf j
  owned := hst.owned h
  clean := hst.clean h

/-! ### The data that counts

What a reader will find once everybody who has decided to commit is done. It changes at once
for all the tables of a transaction, though they are published one by one.
-/

/-- The decision to publish a table is somebody's, before and after. -/
theorem Step.committing_iff (hst : Step s i call s') (hpublish : call ≠ .publish t)
    (hkeep : t ∈ (s'.view i).committing → t ∈ (s.view i).committing) :
    (∃ j, t ∈ (s'.view j).committing) ↔ ∃ j, t ∈ (s.view j).committing := by
  constructor
  · rintro ⟨j, hj⟩
    by_cases hji : j = i
    · subst hji
      exact ⟨j, hkeep hj⟩
    · exact ⟨j, by rwa [hst.other hji] at hj⟩
  · rintro ⟨j, hj⟩
    by_cases hji : j = i
    · subst hji
      exact ⟨j, (hst.view.committing_kept hj).resolve_right hpublish⟩
    · exact ⟨j, by rwa [hst.other hji]⟩

/-- While it is being committed a table is neither written nor dropped. -/
theorem Step.pending_committing (hst : Step s i call s') (h : Inv s)
    (ht : t ∈ (s.view j).committing) (hpublish : call ≠ .publish t) :
    s'.pending t = s.pending t := by
  have hheld := View.committing_held ht
  refine hst.pending_eq (fun key value hset => ?_) hpublish fun hdrop => ?_
  · obtain rfl := hst.caller h hheld (by rw [hset]; rfl)
    rw [(hst.view.set_dirty hset).2] at ht
    cases ht
  · obtain rfl := hst.caller h hheld (by rw [hdrop]; rfl)
    rw [hst.view.drop_committing hdrop] at ht
    cases ht

/-- **A table that nobody newly decides to publish counts as before.** -/
theorem Step.logical_eq (hst : Step s i call s') (h : Inv s)
    (hkeep : t ∈ (s'.view i).committing → t ∈ (s.view i).committing) :
    s'.logical t = s.logical t := by
  by_cases hpublish : call = .publish t
  · -- what counted is now committed
    subst hpublish
    obtain ⟨hbefore, hafter⟩ := hst.view.publish_committing rfl
    rw [h.logical_committing hbefore, ← hst.publish_eq.1]
    refine logical_committed fun j hj => ?_
    have howner : s'.owner t = some i := by
      rw [hst.owner_eq]
      exact (h.owned t i).mpr (View.committing_held hbefore)
    obtain rfl : j = i := (hst.inv h).owned.unique (View.committing_held hj)
      (((hst.owned h) t i).mp howner)
    exact hafter hj
  · have hiff := hst.committing_iff hpublish hkeep
    have hcommitted := hst.committed_eq hpublish
    by_cases hc : ∃ j, t ∈ (s.view j).committing
    · obtain ⟨j', hj'⟩ := hiff.mpr hc
      obtain ⟨j, hj⟩ := hc
      rw [h.logical_committing hj, (hst.inv h).logical_committing hj',
        visible_congr hcommitted (hst.pending_committing h hj hpublish)]
    · rw [logical_committed fun j hj => hc ⟨j, hj⟩,
        logical_committed fun j hj => hc (hiff.mp ⟨j, hj⟩), hcommitted]

/-- Somebody else's tables count as before. -/
theorem Step.logical_other (hst : Step s i call s') (h : Inv s) (hj : j ≠ i)
    (ht : t ∈ (s.view j).held) : s'.logical t = s.logical t := by
  refine hst.logical_eq h fun hmem => ?_
  have hheld : t ∈ (s'.view j).held := by rwa [hst.other hj]
  exact absurd ((hst.inv h).owned.unique hheld (View.committing_held hmem)) hj

/-- **A decision to commit makes all that the transaction sees count.** -/
theorem Step.logical_commit (hst : Step s i call s') (h : Inv s) {locked : Finset τ}
    (hbefore : s.view i = .inside locked) (hafter : s'.view i = .ending true locked locked) (t : τ) :
    s'.logical t = if t ∈ locked then s.visible t else s.logical t := by
  have hview := hst.view
  rw [hbefore, hafter] at hview
  obtain rfl : call = .none := by cases hview; rfl
  by_cases ht : t ∈ locked
  · rw [if_pos ht, (hst.inv h).logical_committing (i := i) (by rw [hafter]; exact ht)]
    exact hst.same_visible rfl t
  · rw [if_neg ht]
    refine hst.logical_eq h fun hmem => ?_
    rw [hafter] at hmem
    exact absurd hmem ht

/-- **A single write counts at once.** -/
theorem Step.logical_guardSet {key : κ} {value : ν} (hst : Step s i (.set t key value) s')
    (h : Inv s) (hbefore : s.view i = .guarded t) (u : τ) :
    s'.logical u
      = if u = t then Function.update (s.logical t) key (some value) else s.logical u := by
  have hview := hst.view
  rw [hbefore] at hview
  have hafter : s'.view i = .publishing t := by
    generalize s'.view i = v' at hview
    cases hview
    rfl
  by_cases hu : u = t
  · subst hu
    -- the table was clean, so what is visible now is the old committed map and the write
    have hclean := h.clean_held (i := i) (t := u)
      (by rw [hbefore]; exact Finset.mem_singleton_self _)
      (by rw [hbefore]; exact Finset.notMem_empty _)
    have hcommitted : s.logical u = s.committed u := by
      refine logical_committed fun j hj => ?_
      obtain rfl : j = i := h.owned.unique (View.committing_held hj)
        (by rw [hbefore]; exact Finset.mem_singleton_self _)
      rw [hbefore] at hj
      cases hj
    rw [if_pos rfl, (hst.inv h).logical_committing (i := i)
      (by rw [hafter]; exact Finset.mem_singleton_self _), hcommitted]
    funext k
    rw [State.visible, hst.set_eq.1, hst.set_eq.2, hclean]
    by_cases hk : k = key
    · subst hk
      simp
    · simp [hk]
  · rw [if_neg hu]
    refine hst.logical_eq h fun hmem => ?_
    rw [hafter] at hmem
    exact absurd (Finset.mem_singleton.mp hmem) hu

end

end TwoPhase
