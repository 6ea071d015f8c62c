/-
Two-phase locking is strictly serializable.

A `History` records, beside a run, what each party has read and written and what has been
answered when.  The serial order is that of the commit points: a transaction's is the
moment it decides to commit, a single operation's the moment it reads or writes.  `Logged`
is the invariant: a log of everything that has passed its commit point, answered or not,
replays from the initial store to the data that counts.
-/
import Mathlib.Algebra.BigOperators.Group.Finset.Piecewise
import KvServer.Lib.Replay
import KvServer.Lib.TwoPhase

namespace TwoPhase

open Replay

variable {ι τ κ ν : Type}

/-! ### Histories

The record is made by `note` from the states before and after a step and from the call, so it
adds nothing to the protocol. A read is recorded with what the caller was told, and it is
`State.Tells` that says what that should have been.
-/

/-- What a party has going. -/
structure Session (τ κ ν : Type) where
  /-- when its first request arrived -/
  request : Nat := 0
  /-- when it first took a table -/
  start : Option Nat := none
  ops : List (Op (τ × κ) ν) := []

/-- A transaction or single operation that has been answered. -/
structure Item (ι τ κ ν : Type) where
  party : ι
  request : Nat
  start : Nat
  reply : Nat
  ops : List (Op (τ × κ) ν)

structure History (ι τ κ ν : Type) where
  /-- the number of steps so far -/
  now : Nat := 0
  session : ι → Session τ κ ν := fun _ => {}
  answered : List (Item ι τ κ ν) := []

/-- Something that takes no table starts with its request. -/
def Session.began (n : Session τ κ ν) : Nat :=
  n.start.getD n.request

def Session.item (n : Session τ κ ν) (party : ι) (reply : Nat) : Item ι τ κ ν :=
  { party := party, request := n.request, start := n.began, reply := reply, ops := n.ops }

/-- What a party has going after a call; `found` is what it is told of a location it reads. -/
def Session.note (found : Option ν) (now : Nat) (n : Session τ κ ν) : Call τ κ ν → Session τ κ ν
  | .arrive => { request := now }
  | .lock _ => { n with start := n.start.or (some now) }
  | .get t key => { n with ops := n.ops ++ [.read (t, key) found] }
  | .set t key value => { n with ops := n.ops ++ [.write (t, key) value] }
  | _ => n

namespace View

/-- With this step a commit or a single operation is answered. -/
def answers : View τ → View τ → Bool
  | .guardDone _, .outside => true
  | .ending true _ _, .outside => true
  | _, _ => false

/-- With this step a party has nothing going any more. -/
def ends : View τ → View τ → Bool
  | .guardDone _, .outside => true
  | .ending _ _ _, .outside => true
  | _, _ => false

/-- Past the commit point, and not answered. -/
def decided : View τ → Bool
  | .publishing _ => true
  | .guardDone _ => true
  | .ending true _ _ => true
  | .releasing true _ _ _ => true
  | _ => false

end View

/-- The record after a step of party `i` from `s` to `s'`, a read of which is told `found`. -/
def History.note [DecidableEq ι] (s : State ι τ κ ν) (i : ι) (call : Call τ κ ν) (found : Option ν)
    (s' : State ι τ κ ν) (h : History ι τ κ ν) : History ι τ κ ν :=
  let n := (h.session i).note found h.now call
  { now := h.now + 1
    session := Function.update h.session i (if (s.view i).ends (s'.view i) then {} else n)
    answered :=
      if (s.view i).answers (s'.view i) then h.answered ++ [n.item i h.now] else h.answered }

section

variable {s s' : State ι τ κ ν} {i j : ι} {call : Call τ κ ν} {found : Option ν}
  {h : History ι τ κ ν}

theorem note_request_le (n : Session τ κ ν) (now : Nat) (hn : n.request ≤ now) :
    (n.note found now call).request ≤ now := by
  cases call with
  | arrive => exact Nat.le_refl _
  | _ => exact hn

/-- A party starts after its request has arrived. -/
theorem note_start {n : Session τ κ ν} {now m : Nat} (hrequest : n.request ≤ now)
    (hstart : ∀ m, n.start = some m → n.request ≤ m ∧ m < now)
    (hm : (n.note found now call).start = some m) :
    (n.note found now call).request ≤ m ∧ m < now + 1 := by
  cases call with
  | arrive => cases hm
  | lock t =>
      cases hn : n.start with
      | none =>
          have hnow : some now = some m := by simpa [Session.note, hn] using hm
          cases hnow
          exact ⟨hrequest, Nat.lt_succ_self _⟩
      | some k =>
          have hk : some k = some m := by simpa [Session.note, hn] using hm
          cases hk
          exact ⟨(hstart m hn).1, Nat.lt_succ_of_lt (hstart m hn).2⟩
  | _ => exact ⟨(hstart m hm).1, Nat.lt_succ_of_lt (hstart m hm).2⟩

@[simp] theorem View.ends_self (v : View τ) : v.ends v = false := by
  cases v <;> rfl

@[simp] theorem View.answers_self (v : View τ) : v.answers v = false := by
  cases v with
  | ending commit rest locked => cases commit <;> rfl
  | _ => rfl

theorem ends_of_inside {v v' : View τ} {locked : Finset τ} (h : v' = .inside locked) :
    v.ends v' = false := by
  subst h
  cases v <;> rfl

theorem ends_of_guarded {v v' : View τ} {t : τ} (h : v' = .guarded t) : v.ends v' = false := by
  subst h
  cases v <;> rfl

/-- A party that does not write a location has not written it. -/
theorem note_unwritten {n : Session τ κ ν} {now : Nat} {loc : τ × κ} (h : Unwritten loc n.ops)
    (hcall : ∀ value, call ≠ .set loc.1 loc.2 value) : Unwritten loc (n.note found now call).ops := by
  intro value hmem
  cases call with
  | arrive => cases hmem
  | get t key =>
      rcases List.mem_append.mp hmem with hmem | hmem
      · exact h value hmem
      · cases List.mem_singleton.mp hmem
  | set t key v =>
      rcases List.mem_append.mp hmem with hmem | hmem
      · exact h value hmem
      · cases List.mem_singleton.mp hmem
        exact hcall value rfl
  | _ => exact h value hmem

variable [DecidableEq ι]

theorem note_session_other (hj : j ≠ i) : (h.note s i call found s').session j = h.session j :=
  Function.update_of_ne hj ..

theorem note_session_self :
    (h.note s i call found s').session i
      = if (s.view i).ends (s'.view i) then {} else (h.session i).note found h.now call :=
  Function.update_self ..

theorem note_answered_false (h' : (s.view i).answers (s'.view i) = false) :
    (h.note s i call found s').answered = h.answered := by
  simp [History.note, h']

/-- What has been answered to a party. -/
def History.answeredBy (h : History ι τ κ ν) (i : ι) : List (Item ι τ κ ν) :=
  h.answered.filter fun x => decide (x.party = i)

theorem note_answeredBy_other (hj : j ≠ i) :
    (h.note s i call found s').answeredBy j = h.answeredBy j := by
  unfold History.answeredBy History.note
  dsimp only
  split
  · rw [List.filter_append, List.filter_cons_of_neg (by simp [Session.item, hj.symm])]
    exact List.append_nil _
  · rfl

theorem note_answeredBy_self :
    (h.note s i call found s').answeredBy i
      = if (s.view i).answers (s'.view i)
        then h.answeredBy i ++ [((h.session i).note found h.now call).item i h.now]
        else h.answeredBy i := by
  unfold History.answeredBy History.note
  dsimp only
  split
  · rw [List.filter_append, List.filter_cons_of_pos (by simp [Session.item])]
    rfl
  · rfl

end

/-- Something past its commit point. -/
structure Entry (ι τ κ ν : Type) where
  party : ι
  session : Session τ κ ν
  point : Nat
  reply : Option Nat

/-- The answered item an entry stands for, once there is one. -/
def Entry.item (e : Entry ι τ κ ν) : Option (Item ι τ κ ν) :=
  e.reply.map (e.session.item e.party)

/-- All operations of a log, one entry after the other. -/
def replay (log : List (Entry ι τ κ ν)) : List (Op (τ × κ) ν) :=
  log.flatMap fun e => e.session.ops

/-- A log all of whose entries have been answered. -/
theorem replay_answered {log : List (Entry ι τ κ ν)} (h : ∀ e ∈ log, e.reply ≠ none) :
    (log.filterMap Entry.item).flatMap Item.ops = replay log := by
  induction log with
  | nil => rfl
  | cons e log ih =>
      obtain ⟨r, hr⟩ := Option.ne_none_iff_exists'.mp (h e List.mem_cons_self)
      have hitem : e.item = some (e.session.item e.party r) := by simp [Entry.item, hr]
      rw [List.filterMap_cons_some hitem, List.flatMap_cons,
        ih fun f hf => h f (List.mem_cons_of_mem _ hf)]
      rfl

/-- A party that reads a location is told what is visible there. -/
def State.Tells (s : State ι τ κ ν) (call : Call τ κ ν) (found : Option ν) : Prop :=
  ∀ t key, call = .get t key → found = s.visible t key

/-- The data that counts, by location. -/
def State.data [DecidableEq τ] (s : State ι τ κ ν) (loc : τ × κ) : Option ν :=
  s.logical loc.1 loc.2

variable [DecidableEq τ]

/-- What one party alone has and has not written to counts as it is committed. -/
theorem Inv.data_guarded {s : State ι τ κ ν} {i : ι} (hinv : Inv s) {t : τ}
    (hview : s.view i = .guarded t) (key : κ) :
    s.data (t, key) = s.visible t key := by
  have hheld : t ∈ (s.view i).held := by
    rw [hview]
    exact Finset.mem_singleton_self _
  have hclean := hinv.clean_held hheld (by rw [hview]; exact Finset.notMem_empty _)
  rw [visible_of_clean hclean]
  refine congrFun (logical_committed fun j hj => ?_) key
  obtain rfl : j = i := hinv.owned.unique (View.committing_held hj) hheld
  rw [hview] at hj
  cases hj

/-! ### Transactions on their way

A transaction that has not decided yet is in no order with the others, but whatever order they
end in it comes behind them: its operations replay from the data that counts now, and other
parties cannot change that, since they have none of the tables it has looked at.
-/

variable [DecidableEq κ]

/-- A transaction's operations lead from the data that counts to what it sees. -/
structure Consistent (s : State ι τ κ ν) (locked : Finset τ) (ops : List (Op (τ × κ) ν)) : Prop where
  taken : ∀ op ∈ ops, op.loc.1 ∈ locked
  agrees : Agrees s.data ops
  final : ∀ t ∈ locked, ∀ key, final s.data ops (t, key) = s.visible t key

structure Sessions (s : State ι τ κ ν) (h : History ι τ κ ν) : Prop where
  request : ∀ i, (h.session i).request ≤ h.now
  start : ∀ i n, (h.session i).start = some n → (h.session i).request ≤ n ∧ n < h.now
  outside : ∀ i, s.view i = .outside → (h.session i).ops = []
  guarded : ∀ i t, s.view i = .guarded t → (h.session i).ops = []
  inside : ∀ i locked, s.view i = .inside locked → Consistent s locked (h.session i).ops

theorem Sessions.began {s : State ι τ κ ν} {h : History ι τ κ ν} (hs : Sessions s h) (i : ι) :
    (h.session i).request ≤ (h.session i).began ∧ (h.session i).began ≤ h.now := by
  unfold Session.began
  cases hstart : (h.session i).start with
  | none => exact ⟨Nat.le_refl _, hs.request i⟩
  | some n => exact ⟨(hs.start i n hstart).1, Nat.le_of_lt (hs.start i n hstart).2⟩

theorem Consistent.congr {s s' : State ι τ κ ν} {locked : Finset τ} {ops : List (Op (τ × κ) ν)}
    (hops : Consistent s locked ops) (hdata : ∀ t ∈ locked, s'.logical t = s.logical t)
    (hvisible : ∀ t ∈ locked, s'.visible t = s.visible t) : Consistent s' locked ops where
  taken := hops.taken
  agrees := hops.agrees.congr fun op ho => by
    show s.logical op.loc.1 op.loc.2 = s'.logical op.loc.1 op.loc.2
    rw [hdata _ (hops.taken op ho)]
  final t ht key := by
    rw [hvisible t ht, ← hops.final t ht key]
    refine final_congr ?_
    show s'.logical t key = s.logical t key
    rw [hdata t ht]

variable [DecidableEq ι]

section

variable {s s' : State ι τ κ ν} {i j : ι} {call : Call τ κ ν} {found : Option ν}
  {h : History ι τ κ ν}

/-- Other parties' steps leave a transaction alone. -/
theorem Step.consistent_other (hst : Step s i call s') (hinv : Inv s) (hj : j ≠ i)
    {locked : Finset τ} {ops : List (Op (τ × κ) ν)} (hview : s.view j = .inside locked)
    (hops : Consistent s locked ops) : Consistent s' locked ops := by
  have hheld : ∀ t ∈ locked, t ∈ (s.view j).held := fun t ht => by rwa [hview]
  refine hops.congr (fun t ht => hst.logical_other hinv hj (hheld t ht)) fun t ht => ?_
  obtain ⟨-, hc, hp⟩ := hst.frame hinv hj (hheld t ht)
  exact visible_congr hc hp

/-- The mover's own steps inside its transaction. -/
theorem Step.consistent_self (hst : Step s i call s') (hinv : Inv s) (hs : Sessions s h)
    (hfound : s.Tells call found) {locked : Finset τ} (hafter : s'.view i = .inside locked) :
    Consistent s' locked ((h.session i).note found h.now call).ops := by
  have hview := hst.view
  rw [hafter] at hview
  -- nothing is being committed by a party inside a transaction
  have hdata : ∀ t, s'.logical t = s.logical t := fun t =>
    hst.logical_eq hinv fun hmem => by
      rw [hafter] at hmem
      cases hmem
  generalize hbefore : s.view i = v at hview
  cases hview with
  | quiet =>
      refine (hs.inside i locked hbefore).congr (fun t _ => hdata t) fun t _ => ?_
      exact hst.same_visible rfl _
  | begin =>
      exact ⟨List.forall_mem_nil _, trivial, fun t ht => absurd ht (Finset.notMem_empty t)⟩
  | @lock old t ht =>
      have hold := hs.inside i old hbefore
      have hsame : ∀ u, s'.visible u = s.visible u := hst.same_visible rfl
      have hold' := hold.congr (fun u _ => hdata u) fun u _ => hsame u
      refine ⟨fun op ho => Finset.mem_insert_of_mem (hold.taken op ho), hold'.agrees,
        fun u hu key => ?_⟩
      rcases Finset.mem_insert.mp hu with rfl | hu
      · -- the table was free and clean, and no operation is about it yet
        have hfree : s.owner u = none := by
          obtain ⟨-, hfree⟩ := hst
          exact hfree u rfl
        have hlogical : s.logical u = s.committed u := by simp [State.logical, hfree]
        rw [final_of_notMem fun op ho heq => ht (by
          have := hold.taken op ho
          rwa [heq] at this)]
        show s'.logical u key = _
        rw [hdata u, hsame u, visible_of_clean (hinv.clean_free hfree), hlogical]
      · exact hold'.final u hu key
  | @get _ t key ht =>
      have hold := (hs.inside i locked hbefore).congr (fun u _ => hdata u) fun u _ =>
        hst.same_visible rfl u
      have hsame : s'.visible t = s.visible t := hst.same_visible rfl t
      refine ⟨fun op ho => ?_, agrees_append.mpr ⟨hold.agrees, ?_, trivial⟩, fun u hu k => ?_⟩
      · rcases List.mem_append.mp ho with ho | ho
        · exact hold.taken op ho
        · rw [List.mem_singleton.mp ho]
          exact ht
      · show Replay.final _ _ (t, key) = _
        rw [hold.final t ht key, hsame, hfound t key rfl]
      · show Replay.final _ (_ ++ [_]) (u, k) = _
        rw [final_append]
        exact hold.final u hu k
  | @set _ t key value ht =>
      have hold := hs.inside i locked hbefore
      have hops : ∀ op ∈ (h.session i).ops, s.data op.loc = s'.data op.loc := fun op _ => by
        show s.logical _ _ = s'.logical _ _
        rw [hdata]
      refine ⟨fun op ho => ?_, agrees_append.mpr ⟨hold.agrees.congr hops, trivial, trivial⟩,
        fun u hu k => ?_⟩
      · rcases List.mem_append.mp ho with ho | ho
        · exact hold.taken op ho
        · rw [List.mem_singleton.mp ho]
          exact ht
      · have hfinal : Replay.final s'.data (h.session i).ops (u, k) = s.visible u k := by
          rw [← hold.final u hu k]
          refine final_congr ?_
          show s'.logical u k = s.logical u k
          rw [hdata]
        show Replay.final _ (_ ++ [_]) (u, k) = _
        rw [final_append]
        show Function.update (Replay.final s'.data (h.session i).ops) (t, key) (some value) (u, k) = _
        by_cases hu : u = t
        · subst hu
          rw [State.visible, hst.set_eq.1, hst.set_eq.2]
          by_cases hk : k = key
          · subst hk
            simp
          · rw [Function.update_of_ne (by simp [hk]), Function.update_of_ne hk, hfinal, State.visible]
        · rw [Function.update_of_ne (by simp [hu]), hfinal]
          refine congrFun (visible_congr (hst.committed_eq (by simp)) ?_).symm k
          exact hst.pending_eq (by simpa using fun h => absurd h.symm hu) (by simp) (by simp)

/-- **A step keeps the sessions right.** -/
theorem Sessions.step (hs : Sessions s h) (hinv : Inv s) (hst : Step s i call s')
    (hfound : s.Tells call found) : Sessions s' (h.note s i call found s') where
  request j := by
    by_cases hj : j = i
    · subst hj
      rw [note_session_self]
      split
      · exact Nat.zero_le _
      · exact Nat.le_succ_of_le (note_request_le _ _ (hs.request j))
    · rw [note_session_other hj]
      exact Nat.le_succ_of_le (hs.request j)
  start j m hm := by
    by_cases hj : j = i
    · subst hj
      rw [note_session_self] at hm ⊢
      split at hm
      · cases hm
      · rename_i hends
        rw [if_neg hends]
        exact note_start (hs.request j) (hs.start j) hm
    · rw [note_session_other hj] at hm ⊢
      exact ⟨(hs.start j m hm).1, Nat.lt_succ_of_lt (hs.start j m hm).2⟩
  outside j hview := by
    by_cases hj : j = i
    · subst hj
      have hstep := hst.view
      rw [note_session_self]
      rw [hview] at hstep ⊢
      generalize hbefore : s.view j = v at hstep
      cases hstep with
      | quiet => exact hs.outside j hbefore
      | arrive => rfl
      | unguard => rfl
      | finish => rfl
    · rw [note_session_other hj]
      rw [hst.other hj] at hview
      exact hs.outside j hview
  guarded j t hview := by
    by_cases hj : j = i
    · subst hj
      have hstep := hst.view
      rw [note_session_self, ends_of_guarded hview]
      rw [hview] at hstep
      generalize hbefore : s.view j = v at hstep
      cases hstep with
      | quiet => exact hs.guarded j t hbefore
      | guard => exact hs.outside j hbefore
    · rw [note_session_other hj]
      rw [hst.other hj] at hview
      exact hs.guarded j t hview
  inside j locked hview := by
    by_cases hj : j = i
    · subst hj
      rw [note_session_self, ends_of_inside hview]
      exact hst.consistent_self hinv hs hfound hview
    · rw [note_session_other hj]
      rw [hst.other hj] at hview
      exact hst.consistent_other hinv hj hview (hs.inside j locked hview)

end

/-! ### The log

One entry is added to the log at each commit point, where what its operations replay from is
still the data that counts, and the entry gets its answer later. Everything else a step does
leaves the log as it is.
-/

structure Logged (σ : τ × κ → Option ν) (s : State ι τ κ ν) (h : History ι τ κ ν)
    (log : List (Entry ι τ κ ν)) : Prop where
  agrees : Agrees σ (replay log)
  final : final σ (replay log) = s.data
  ordered : (log.map Entry.point).Pairwise (· < ·)
  times : ∀ e ∈ log, e.session.request ≤ e.session.began ∧ e.session.began ≤ e.point ∧
    e.point < h.now ∧ ∀ r, e.reply = some r → e.point < r
  /-- An entry without an answer is some party's, one that has decided; -/
  waiting : ∀ e ∈ log, e.reply = none →
    (s.view e.party).decided = true ∧ e.session = h.session e.party
  /-- and each such party has one. -/
  decided : ∀ i, (s.view i).decided = true → ∃ e ∈ log, e.party = i ∧ e.reply = none
  unique : log.Pairwise fun e f => e.reply = none → f.reply = none → e.party ≠ f.party
  answered : (log.filterMap Entry.item).Perm h.answered

section

variable {s s' : State ι τ κ ν} {i : ι} {call : Call τ κ ν} {found : Option ν}
  {h : History ι τ κ ν} {σ : τ × κ → Option ν} {log : List (Entry ι τ κ ν)}

/-- Entries of parties that do not move. -/
theorem Logged.waiting_other (hlog : Logged σ s h log) (hst : Step s i call s')
    {e : Entry ι τ κ ν} (he : e ∈ log) (hreply : e.reply = none) (hparty : e.party ≠ i) :
    (s'.view e.party).decided = true ∧ e.session = (h.note s i call found s').session e.party := by
  rw [hst.other hparty, note_session_other hparty]
  exact hlog.waiting e he hreply

/-- A step that neither decides nor answers anything. -/
theorem Logged.keep (hlog : Logged σ s h log) (found : Option ν) (hst : Step s i call s')
    (hdata : s'.data = s.data) (hdecided : (s'.view i).decided = (s.view i).decided)
    (hsession : (s.view i).decided = true → (h.note s i call found s').session i = h.session i)
    (hanswers : (s.view i).answers (s'.view i) = false) : Logged σ s' (h.note s i call found s') log where
  agrees := hlog.agrees
  final := hlog.final.trans hdata.symm
  ordered := hlog.ordered
  times e he := by
    obtain ⟨hrequest, hstart, hpoint, hreply⟩ := hlog.times e he
    exact ⟨hrequest, hstart, Nat.lt_succ_of_lt hpoint, hreply⟩
  waiting e he hreply := by
    by_cases hparty : e.party = i
    · obtain ⟨hview, hsess⟩ := hlog.waiting e he hreply
      rw [hparty] at hview hsess ⊢
      exact ⟨hdecided.trans hview, hsess.trans (hsession hview).symm⟩
    · exact hlog.waiting_other hst he hreply hparty
  decided j hj := by
    by_cases hji : j = i
    · subst hji
      exact hlog.decided j (hdecided.symm.trans hj)
    · rw [hst.other hji] at hj
      exact hlog.decided j hj
  unique := hlog.unique
  answered := by
    rw [note_answered_false hanswers]
    exact hlog.answered

/-- A commit point: the session is appended to the log. -/
theorem Logged.commit (hlog : Logged σ s h log) (hst : Step s i call s')
    {n : Session τ κ ν} (hn : (h.note s i call found s').session i = n)
    (hagrees : Agrees s.data n.ops) (hdata : s'.data = Replay.final s.data n.ops)
    (hbefore : (s.view i).decided = false) (hafter : (s'.view i).decided = true)
    (hanswers : (s.view i).answers (s'.view i) = false)
    (htimes : n.request ≤ n.began ∧ n.began ≤ h.now) :
    Logged σ s' (h.note s i call found s') (log ++ [⟨i, n, h.now, none⟩]) := by
  have hreplay : replay (log ++ [⟨i, n, h.now, none⟩]) = replay log ++ n.ops := by
    simp [replay]
  -- the party had nothing waiting for an answer
  have hidle : ∀ e ∈ log, e.reply = none → e.party ≠ i := by
    intro e he hreply hparty
    have hview := (hlog.waiting e he hreply).1
    rw [hparty, hbefore] at hview
    cases hview
  constructor
  case agrees =>
    rw [hreplay]
    exact agrees_append.mpr ⟨hlog.agrees, by rwa [hlog.final]⟩
  case final => rw [hreplay, final_append, hlog.final, hdata]
  case ordered =>
    rw [List.map_append, List.pairwise_append]
    refine ⟨hlog.ordered, List.pairwise_singleton _ _, fun x hx y hy => ?_⟩
    obtain ⟨e, he, rfl⟩ := List.mem_map.mp hx
    rw [List.mem_singleton.mp hy]
    exact (hlog.times e he).2.2.1
  case times =>
    intro e he
    rcases List.mem_append.mp he with he | he
    · obtain ⟨hrequest, hstart, hpoint, hreply⟩ := hlog.times e he
      exact ⟨hrequest, hstart, Nat.lt_succ_of_lt hpoint, hreply⟩
    · rw [List.mem_singleton.mp he]
      exact ⟨htimes.1, htimes.2, Nat.lt_succ_self _, nofun⟩
  case waiting =>
    intro e he hreply
    rcases List.mem_append.mp he with he | he
    · exact hlog.waiting_other hst he hreply (hidle e he hreply)
    · rw [List.mem_singleton.mp he]
      exact ⟨hafter, hn.symm⟩
  case decided =>
    intro j hj
    by_cases hji : j = i
    · subst hji
      exact ⟨_, List.mem_append_right _ (List.mem_singleton_self _), rfl, rfl⟩
    · rw [hst.other hji] at hj
      obtain ⟨e, he, hparty, hreply⟩ := hlog.decided j hj
      exact ⟨e, List.mem_append_left _ he, hparty, hreply⟩
  case unique =>
    rw [List.pairwise_append]
    refine ⟨hlog.unique, List.pairwise_singleton _ _, fun e he f hf hreply _ => ?_⟩
    rw [List.mem_singleton.mp hf]
    exact hidle e he hreply
  case answered =>
    rw [List.filterMap_append, note_answered_false hanswers]
    show (log.filterMap Entry.item ++ []).Perm h.answered
    rw [List.append_nil]
    exact hlog.answered

/-- An answer: the party's entry gets its reply. -/
theorem Logged.answer (hlog : Logged σ s h log) (found : Option ν) (hst : Step s i call s')
    (hsession : (h.session i).note found h.now call = h.session i) (hdata : s'.data = s.data)
    (hbefore : (s.view i).decided = true) (hafter : (s'.view i).decided = false)
    (hanswers : (s.view i).answers (s'.view i) = true) :
    ∃ log', Logged σ s' (h.note s i call found s') log' := by
  obtain ⟨e, he, hparty, hreply⟩ := hlog.decided i hbefore
  have hsess : e.session = h.session i := hparty ▸ (hlog.waiting e he hreply).2
  obtain ⟨before, after, rfl⟩ := List.append_of_mem he
  have hreplay : replay (before ++ { e with reply := some h.now } :: after)
      = replay (before ++ e :: after) := by
    simp [replay]
  -- it is the only entry of the party that waits
  obtain ⟨hub, hua, hux⟩ := List.pairwise_append.mp hlog.unique
  obtain ⟨hue, hua⟩ := List.pairwise_cons.mp hua
  have hother : ∀ f, f ∈ before ∨ f ∈ after → f.reply = none → f.party ≠ i := by
    rintro f (hf | hf) hnone hfi
    · exact hux f hf e List.mem_cons_self hnone hreply (hfi.trans hparty.symm)
    · exact hue f hf hreply hnone (hparty.trans hfi.symm)
  have hold : ∀ f, f ∈ before ∨ f ∈ after → f ∈ before ++ e :: after := by
    rintro f (hf | hf)
    · exact List.mem_append_left _ hf
    · exact List.mem_append_right _ (List.mem_cons_of_mem _ hf)
  have hsplit : ∀ f ∈ before ++ { e with reply := some h.now } :: after,
      f = { e with reply := some h.now } ∨ f ∈ before ∨ f ∈ after := by
    intro f hf
    rcases List.mem_append.mp hf with hf | hf
    · exact .inr (.inl hf)
    · rcases List.mem_cons.mp hf with hf | hf
      · exact .inl hf
      · exact .inr (.inr hf)
  refine ⟨before ++ { e with reply := some h.now } :: after, ?_⟩
  constructor
  case agrees => rw [hreplay]; exact hlog.agrees
  case final => rw [hreplay, hlog.final, hdata]
  case ordered => simpa using hlog.ordered
  case times =>
    intro f hf
    rcases hsplit f hf with rfl | hf
    · obtain ⟨hrequest, hstart, hpoint, -⟩ := hlog.times e he
      refine ⟨hrequest, hstart, Nat.lt_succ_of_lt hpoint, fun r hr => ?_⟩
      obtain rfl := Option.some.inj hr
      exact hpoint
    · obtain ⟨hrequest, hstart, hpoint, hr⟩ := hlog.times f (hold f hf)
      exact ⟨hrequest, hstart, Nat.lt_succ_of_lt hpoint, hr⟩
  case waiting =>
    intro f hf hnone
    rcases hsplit f hf with rfl | hf
    · cases hnone
    · exact hlog.waiting_other hst (hold f hf) hnone (hother f hf hnone)
  case decided =>
    intro j hj
    by_cases hji : j = i
    · subst hji
      rw [hafter] at hj
      cases hj
    · rw [hst.other hji] at hj
      obtain ⟨f, hf, hfj, hnone⟩ := hlog.decided j hj
      rcases List.mem_append.mp hf with hf | hf
      · exact ⟨f, List.mem_append_left _ hf, hfj, hnone⟩
      · rcases List.mem_cons.mp hf with rfl | hf
        · exact absurd (hfj.symm.trans hparty) hji
        · exact ⟨f, List.mem_append_right _ (List.mem_cons_of_mem _ hf), hfj, hnone⟩
  case unique =>
    refine List.pairwise_append.mpr ⟨hub, List.pairwise_cons.mpr ⟨fun f _ => nofun, hua⟩,
      fun f hf g hg hnone hnone' => ?_⟩
    rcases List.mem_cons.mp hg with rfl | hg
    · cases hnone'
    · exact hux f hf g (List.mem_cons_of_mem _ hg) hnone hnone'
  case answered =>
    have hitem : (h.note s i call found s').answered = h.answered ++ [(h.session i).item i h.now] := by
      simp [History.note, hanswers, hsession]
    have hanswered := hlog.answered
    rw [List.filterMap_append, List.filterMap_cons_none (by simp [Entry.item, hreply])] at hanswered
    rw [hitem, List.filterMap_append,
      List.filterMap_cons_some (b := (h.session i).item i h.now) (by simp [Entry.item, hsess, hparty])]
    exact (List.perm_middle.trans (List.Perm.cons _ hanswered)).trans
      (List.perm_append_singleton _ _).symm

theorem Step.data_eq (hst : Step s i call s') (hinv : Inv s)
    (hkeep : (s'.view i).committing ⊆ (s.view i).committing) : s'.data = s.data := by
  funext loc
  exact congrFun (hst.logical_eq hinv fun ht => hkeep ht) loc.2

/-- The commit point of a transaction. -/
theorem Logged.decide (hlog : Logged σ s h log) (hs : Sessions s h) (hinv : Inv s)
    (hst : Step s i .none s') {locked : Finset τ} (hbefore : s.view i = .inside locked)
    (hafter : s'.view i = .ending true locked locked) :
    ∃ log', Logged σ s' (h.note s i .none found s') log' := by
  have hops := hs.inside i locked hbefore
  have hsession : (h.note s i .none found s').session i = h.session i := by
    rw [note_session_self, hbefore, hafter]
    rfl
  refine ⟨_, hlog.commit hst hsession hops.agrees ?_ (by rw [hbefore]; rfl) (by rw [hafter]; rfl)
    (by rw [hbefore, hafter]; rfl) (hs.began i)⟩
  -- on the locked tables what the transaction sees, elsewhere what counted before
  funext ⟨t, key⟩
  show s'.logical t key = _
  rw [hst.logical_commit hinv hbefore hafter t]
  by_cases ht : t ∈ locked
  · rw [if_pos ht, hops.final t ht key]
  · rw [if_neg ht, final_of_notMem fun op ho heq => ht (by
      have := hops.taken op ho
      rwa [heq] at this)]
    rfl

/-- The commit point of a single operation. -/
theorem Logged.guarded (hlog : Logged σ s h log) (hs : Sessions s h) (hst : Step s i call s')
    {t : τ} {op : Op (τ × κ) ν} (hbefore : s.view i = .guarded t)
    (hafter : (s'.view i).decided = true)
    (hquiet : (s.view i).ends (s'.view i) = false ∧ (s.view i).answers (s'.view i) = false)
    (hnote : (h.session i).note found h.now call = { h.session i with ops := (h.session i).ops ++ [op] })
    (hagrees : op.Agrees s.data) (hdata : s'.data = op.final s.data) :
    ∃ log', Logged σ s' (h.note s i call found s') log' := by
  have hsession : (h.note s i call found s').session i = { h.session i with ops := [op] } := by
    rw [note_session_self, hquiet.1, hnote, hs.guarded i t hbefore]
    rfl
  exact ⟨_, hlog.commit hst hsession ⟨hagrees, trivial⟩ hdata (by rw [hbefore]; rfl) hafter hquiet.2
    (hs.began i)⟩

/-- **A step keeps the log right, possibly with a new entry or a new answer.** -/
theorem Logged.step (hlog : Logged σ s h log) (hs : Sessions s h) (hinv : Inv s)
    (hst : Step s i call s') (hfound : s.Tells call found) :
    ∃ log', Logged σ s' (h.note s i call found s') log' := by
  have hview := hst.view
  have hdata := hst.data_eq hinv
  have hkeep := hlog.keep found hst
  have hanswer := hlog.answer found hst
  rw [note_session_self] at hkeep
  generalize hbefore : s.view i = v at hview hdata hkeep hanswer
  generalize hafter : s'.view i = v' at hview hdata hkeep hanswer
  cases hview with
  | quiet =>
      refine ⟨log, hkeep (hdata subset_rfl) rfl (fun _ => ?_) (View.answers_self v)⟩
      rw [View.ends_self]
      rfl
  | guardGet =>
      refine hlog.guarded hs hst hbefore (by rw [hafter]; rfl)
        (by rw [hbefore, hafter]; exact ⟨rfl, rfl⟩)
        rfl ((hinv.data_guarded hbefore _).trans (hfound _ _ rfl).symm) (hdata subset_rfl)
  | @guardSet t key value =>
      refine hlog.guarded hs hst hbefore (by rw [hafter]; rfl)
        (by rw [hbefore, hafter]; exact ⟨rfl, rfl⟩)
        rfl trivial ?_
      funext ⟨u, k⟩
      show s'.logical u k = Function.update s.data (t, key) (some value) (u, k)
      rw [hst.logical_guardSet hinv hbefore u]
      by_cases hu : u = t
      · subst hu
        rw [if_pos rfl]
        by_cases hk : k = key
        · subst hk
          rw [Function.update_self, Function.update_self]
        · rw [Function.update_of_ne hk, Function.update_of_ne (by simp [hk])]
          rfl
      · rw [if_neg hu, Function.update_of_ne (by simp [hu])]
        rfl
  | @decide commit locked =>
      cases commit with
      | true => exact hlog.decide hs hinv hst hbefore hafter
      | false => exact ⟨log, hkeep (hdata (Finset.empty_subset _)) rfl nofun rfl⟩
  | @visit commit rest locked t ht =>
      cases commit with
      | true => exact ⟨log, hkeep (hdata (Finset.erase_subset _ _)) rfl (fun _ => rfl) rfl⟩
      | false => exact ⟨log, hkeep (hdata subset_rfl) rfl nofun rfl⟩
  | @release commit rest locked t =>
      cases commit with
      | true => exact ⟨log, hkeep (hdata subset_rfl) rfl (fun _ => rfl) rfl⟩
      | false => exact ⟨log, hkeep (hdata subset_rfl) rfl nofun rfl⟩
  | @finish commit locked =>
      cases commit with
      | true => exact hanswer rfl (hdata subset_rfl) rfl rfl rfl
      | false => exact ⟨log, hkeep (hdata subset_rfl) rfl nofun rfl⟩
  | guardPublish => exact ⟨log, hkeep (hdata (Finset.empty_subset _)) rfl (fun _ => rfl) rfl⟩
  | unguard => exact hanswer rfl (hdata subset_rfl) rfl rfl rfl
  | _ => exact ⟨log, hkeep (hdata subset_rfl) rfl nofun rfl⟩

end

/-! ### Counting answers

The log has an entry for each answer and for each commit point without one, so parties that
have nothing going can be counted in it by their answers.
-/

section

variable {s : State ι τ κ ν} {h : History ι τ κ ν} {σ : τ × κ → Option ν}
  {log : List (Entry ι τ κ ν)}

omit [DecidableEq ι] in
/-- What a party that is past no commit point has in the log has been answered. -/
theorem Logged.replied (hlog : Logged σ s h log) {e : Entry ι τ κ ν} (he : e ∈ log)
    (hview : (s.view e.party).decided = false) : ∃ item ∈ h.answered, e.item = some item := by
  cases hreply : e.reply with
  | none => cases hview.symm.trans (hlog.waiting e he hreply).1
  | some r =>
      have hitem : e.item = some (e.session.item e.party r) := by simp [Entry.item, hreply]
      exact ⟨_, hlog.answered.mem_iff.mp (List.mem_filterMap.mpr ⟨e, he, hitem⟩), hitem⟩

omit [DecidableEq τ] [DecidableEq κ] in
theorem sum_answeredBy (h : History ι τ κ ν) (parties : Finset ι) :
    ∑ i ∈ parties, (h.answeredBy i).length
      = h.answered.countP fun x => x.party ∈ parties := by
  unfold History.answeredBy
  induction h.answered with
  | nil => simp
  | cons x rest ih =>
      have hone : ∀ i, ((x :: rest).filter fun y => decide (y.party = i)).length
          = (rest.filter fun y => decide (y.party = i)).length + if x.party = i then 1 else 0 := by
        intro i
        by_cases hi : x.party = i <;> simp [hi]
      simp only [hone, Finset.sum_add_distrib, ih, Finset.sum_ite_eq, List.countP_cons,
        decide_eq_true_eq]

/-- Of parties that are past no commit point the log has just what they were answered. -/
theorem Logged.count (hlog : Logged σ s h log) {parties : Finset ι}
    (hidle : ∀ i ∈ parties, (s.view i).decided = false) :
    log.countP (fun e => e.party ∈ parties) = ∑ i ∈ parties, (h.answeredBy i).length := by
  rw [sum_answeredBy, ← hlog.answered.countP_eq, List.countP_filterMap]
  refine List.countP_congr fun e he => ?_
  rw [decide_eq_true_eq]
  cases hitem : e.item with
  | none =>
      refine ⟨fun hparty => ?_, nofun⟩
      obtain ⟨item, -, hitem'⟩ := hlog.replied he (hidle _ hparty)
      cases hitem.symm.trans hitem'
  | some item =>
      obtain ⟨r, -, rfl⟩ := Option.map_eq_some_iff.mp hitem
      exact (decide_eq_true_iff (p := e.party ∈ parties)).symm

end

/-! ### The serial order

When nobody is past its commit point and unanswered, the log is the order that strict
serializability asks for: it holds what was answered, and an entry answered before another
one's request came in is before it.
-/

variable {s : State ι τ κ ν} {h : History ι τ κ ν} {σ : τ × κ → Option ν}
  {log : List (Entry ι τ κ ν)}

omit [DecidableEq ι] in
/--
**The answered transactions and operations are strictly serializable**, once nobody is
between its commit point and its answer.
-/
theorem Logged.serial (hlog : Logged σ s h log) (hsettled : ∀ i, (s.view i).decided = false) :
    ∃ order : List (Item ι τ κ ν), order.Perm h.answered ∧
      Agrees σ (order.flatMap Item.ops) ∧
      (∀ t key, Replay.final σ (order.flatMap Item.ops) (t, key) = s.committed t key) ∧
      order.Pairwise (fun x y => ¬ y.reply < x.start) ∧ ∀ x ∈ order, x.request ≤ x.start := by
  have hreply : ∀ e ∈ log, e.reply ≠ none := by
    intro e he hnone
    have hview := (hlog.waiting e he hnone).1
    rw [hsettled] at hview
    cases hview
  refine ⟨log.filterMap Entry.item, hlog.answered, ?_, fun t key => ?_, ?_, fun x hx => ?_⟩
  · rw [replay_answered hreply]
    exact hlog.agrees
  · rw [replay_answered hreply, hlog.final]
    refine congrFun (logical_committed fun i hi => ?_) key
    have hview := hsettled i
    cases hv : s.view i with
    | publishing u => simp [hv, View.decided] at hview
    | ending commit rest locked =>
        cases commit <;> simp [hv, View.decided, View.committing] at hview hi
    | releasing commit u rest locked =>
        cases commit <;> simp [hv, View.decided, View.committing] at hview hi
    | _ => simp [hv, View.committing] at hi
  · -- the order is that of the commit points, each between its start and its reply
    refine List.pairwise_filterMap.mpr
      ((List.pairwise_map.mp hlog.ordered).imp_of_mem fun {e f} he hf hlt x hx y hy => ?_)
    obtain ⟨rx, hrx, rfl⟩ := Option.map_eq_some_iff.mp hx
    obtain ⟨ry, hry, rfl⟩ := Option.map_eq_some_iff.mp hy
    have hstart := (hlog.times e he).2.1
    have hend := (hlog.times f hf).2.2.2 ry hry
    show ¬ ry < e.session.began
    omega
  · obtain ⟨e, he, hitem⟩ := List.mem_filterMap.mp hx
    obtain ⟨r, hr, rfl⟩ := Option.map_eq_some_iff.mp hitem
    exact (hlog.times e he).1

end TwoPhase
