/-
What a transaction sees before it has committed.

The log of `Serializable` is there at every moment of a run, not only when everybody is done, and
a transaction on its way stands at the end of it: what it has read so far it would have read
there, whether it will commit or not.  What it has written is all that is pending in the tables
it has taken.
-/
import KvServer.Lib.Serializable

namespace Replay

variable {κ ν : Type}

/-- What an operation leaves in its location, or finds there. -/
def Op.value : Op κ ν → Option ν
  | .read _ result => result
  | .write _ value => some value

/-- A read finds what the operation before it on its location left or found, if nothing has been
written there in between. -/
def Coherent (ops : List (Op κ ν)) : Prop :=
  ∀ before op between result after,
    ops = before ++ op :: (between ++ .read op.loc result :: after) → Unwritten op.loc between →
      result = op.value

variable [DecidableEq κ] {σ : κ → Option ν} {op : Op κ ν} {ops : List (Op κ ν)} {loc : κ}

theorem Op.final_loc (h : op.Agrees σ) : op.final σ op.loc = op.value := by
  cases op with
  | read l result => exact h
  | write l value => exact Function.update_self ..

/-- **Reads that agree with some store are coherent.** -/
theorem Agrees.coherent (h : Agrees σ ops) : Coherent ops := by
  intro before op between result after hops hunwritten
  subst hops
  obtain ⟨-, hop, hrest⟩ := agrees_append.mp h
  obtain ⟨-, hread, -⟩ := agrees_append.mp hrest
  have hkept : final (op.final (final σ before)) between op.loc = op.value := by
    rw [final_of_unwritten hunwritten]
    exact Op.final_loc hop
  exact Eq.trans hread.symm hkept

/-- What operations leave in a location they do not write to, or else last wrote to it. -/
theorem final_eq_or (σ : κ → Option ν) (ops : List (Op κ ν)) (loc : κ) :
    final σ ops loc = (final (fun _ => none) ops loc).or (σ loc) := by
  induction ops using List.reverseRecOn with
  | nil => rfl
  | append_singleton ops op ih =>
      rw [final_append, final_append]
      cases op with
      | read l result => exact ih
      | write l value =>
          show Function.update (final σ ops) l (some value) loc
            = (Function.update (final (fun _ => none) ops) l (some value) loc).or (σ loc)
          by_cases hl : loc = l
          · subst hl
            rw [Function.update_self, Function.update_self]
            rfl
          · rw [Function.update_of_ne hl, Function.update_of_ne hl, ih]

end Replay

namespace TwoPhase

open Replay

variable {ι τ κ ν : Type} [DecidableEq τ] [DecidableEq κ] {s s' : State ι τ κ ν} {i : ι}
  {call : Call τ κ ν} {found : Option ν} {h : History ι τ κ ν} {σ : τ × κ → Option ν}
  {log : List (Entry ι τ κ ν)}

/-- **A transaction on its way comes last in the serial order**, as far as it has got. -/
theorem Logged.inside [DecidableEq ι] (hlog : Logged σ s h log) (hs : Sessions s h)
    {locked : Finset τ} (hview : s.view i = .inside locked) :
    Agrees σ (replay log ++ (h.session i).ops) ∧
      ∀ t ∈ locked, ∀ key,
        Replay.final σ (replay log ++ (h.session i).ops) (t, key) = s.visible t key := by
  have hops := hs.inside i locked hview
  refine ⟨agrees_append.mpr ⟨hlog.agrees, ?_⟩, fun t ht key => ?_⟩
  · rw [hlog.final]
    exact hops.agrees
  · rw [final_append, hlog.final]
    exact hops.final t ht key

/-- The serial order so far respects that of the clock: what had been answered when something
began comes before it. -/
theorem Logged.realTime (hlog : Logged σ s h log) :
    log.Pairwise fun e f => ∀ r, f.reply = some r → ¬ r < e.session.began := by
  refine (List.pairwise_map.mp hlog.ordered).imp_of_mem fun {e f} he hf hlt r hr => ?_
  have hstart := (hlog.times e he).2.1
  have hend := (hlog.times f hf).2.2.2 r hr
  omega

/-- A transaction leaves the tables alone that it has not taken. -/
theorem Consistent.outside {locked : Finset τ} {ops : List (Op (τ × κ) ν)}
    (hops : Consistent s locked ops) {t : τ} (ht : t ∉ locked) (σ : τ × κ → Option ν) (key : κ) :
    Replay.final σ ops (t, key) = σ (t, key) := by
  refine final_of_notMem fun op ho heq => ht ?_
  have htaken := hops.taken op ho
  rwa [heq] at htaken

/-! ### Pending writes

The pending map of a table that a transaction has was empty when it took the table, and only
the transaction has written to it since.
-/

/-- What is pending in a table that a transaction has taken is what the transaction has written. -/
def OwnWrites (s : State ι τ κ ν) (h : History ι τ κ ν) : Prop :=
  ∀ i locked, s.view i = .inside locked → ∀ t ∈ locked, ∀ key,
    s.pending t key = Replay.final (fun _ => none) (h.session i).ops (t, key)

variable [DecidableEq ι]

/-- The mover's own steps inside its transaction. -/
theorem OwnWrites.self (ho : OwnWrites s h) (hst : Step s i call s') (hinv : Inv s)
    (hs : Sessions s h) {locked : Finset τ} (hafter : s'.view i = .inside locked) {t : τ}
    (ht : t ∈ locked) (key : κ) :
    s'.pending t key
      = Replay.final (fun _ => none) ((h.session i).note found h.now call).ops (t, key) := by
  have hview := hst.view
  rw [hafter] at hview
  generalize hbefore : s.view i = v at hview
  cases hview with
  | quiet =>
      rw [(hst.same rfl t).2]
      exact ho i locked hbefore t ht key
  | begin => cases ht
  | @lock old u hu =>
      have hold := hs.inside i old hbefore
      rw [(hst.same rfl t).2]
      rcases Finset.mem_insert.mp ht with rfl | ht
      · -- nobody had the table, and no operation is about it yet
        have hfree : s.owner t = none := by
          obtain ⟨-, hfree⟩ := hst
          exact hfree t rfl
        have hnone : Replay.final (fun _ => none) (h.session i).ops (t, key) = none := by
          refine final_of_notMem fun op ho heq => hu ?_
          have hmem := hold.taken op ho
          rwa [heq] at hmem
        exact (congrFun (hinv.clean_free hfree) key).trans hnone.symm
      · exact ho i old hbefore t ht key
  | @get _ u k hu =>
      rw [(hst.same rfl t).2, ho i locked hbefore t ht key]
      show Replay.final _ (h.session i).ops (t, key)
        = Replay.final _ ((h.session i).ops ++ [.read (u, k) found]) (t, key)
      rw [final_append]
      rfl
  | @set _ u k value hu =>
      show _ = Replay.final _ (_ ++ [_]) (t, key)
      rw [final_append]
      show _ = Function.update (Replay.final _ (h.session i).ops) (u, k) (some value) (t, key)
      have hold := ho i locked hbefore t ht key
      by_cases htu : t = u
      · subst htu
        rw [hst.set_eq.2]
        by_cases hk : key = k
        · subst hk
          rw [Function.update_self, Function.update_self]
        · rw [Function.update_of_ne hk, Function.update_of_ne (by simp [hk]), hold]
      · rw [Function.update_of_ne (by simp [htu]), ← hold]
        exact congrFun (hst.pending_eq (by simpa using fun h => absurd h.symm htu) (by simp)
          (by simp)) key

/-- **A step keeps it so.** -/
theorem OwnWrites.step (ho : OwnWrites s h) (hst : Step s i call s') (hinv : Inv s)
    (hs : Sessions s h) : OwnWrites s' (h.note s i call found s') := by
  intro j locked hview t ht key
  by_cases hj : j = i
  · subst hj
    rw [note_session_self, ends_of_inside hview]
    exact ho.self hst hinv hs hview ht key
  · rw [note_session_other hj]
    rw [hst.other hj] at hview
    obtain ⟨-, -, hpending⟩ := hst.frame hinv hj (t := t) (by rwa [hview])
    rw [hpending]
    exact ho j locked hview t ht key

/-! ### What makes data count

The data that counts is not changed by publishing it, only by the decision to; a single
operation decides as it writes.
-/

/-- **What counts changes** with a single write, or with the decision to commit. -/
theorem Step.data_cases (hst : Step s i call s') (hinv : Inv s) :
    s'.data = s.data ∨
    (∃ t key value, s.view i = .guarded t ∧ call = .set t key value ∧
      s'.data = Function.update s.data (t, key) (some value)) ∨
    ∃ locked, s.view i = .inside locked ∧ s'.view i = .ending true locked locked := by
  have hview := hst.view
  have hdata := hst.data_eq hinv
  generalize hbefore : s.view i = v at hview hdata
  generalize hafter : s'.view i = v' at hview hdata
  cases hview with
  | @guardSet t key value =>
      refine .inr (.inl ⟨t, key, value, rfl, rfl, ?_⟩)
      funext ⟨u, k⟩
      show s'.logical u k = _
      rw [hst.logical_guardSet hinv hbefore u]
      by_cases hu : u = t
      · subst hu
        by_cases hk : k = key
        · subst hk
          rw [if_pos rfl, Function.update_self, Function.update_self]
        · rw [if_pos rfl, Function.update_of_ne hk, Function.update_of_ne (by simp [hk])]
          rfl
      · rw [if_neg hu, Function.update_of_ne (by simp [hu])]
        rfl
  | @decide commit locked =>
      cases commit with
      | true => exact .inr (.inr ⟨locked, rfl, rfl⟩)
      | false => exact .inl (hdata (Finset.empty_subset _))
  | @visit commit rest locked t ht =>
      cases commit with
      | true => exact .inl (hdata (Finset.erase_subset _ _))
      | false => exact .inl (hdata subset_rfl)
  | @release commit rest locked t =>
      cases commit with
      | true => exact .inl (hdata subset_rfl)
      | false => exact .inl (hdata subset_rfl)
  | guardPublish | finish => exact .inl (hdata (Finset.empty_subset _))
  | _ => exact .inl (hdata subset_rfl)

end TwoPhase
