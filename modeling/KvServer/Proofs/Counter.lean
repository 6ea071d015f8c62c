/-
`incr_value -t` neither loses nor duplicates an update.

`Counting` holds along every run of tools against the server, as long as nobody else
writes the key: each tool is at one of the stages of its run, and every operation in the
history that writes the key is a tool's.  The log of the server's commit points, replayed
from the first value, then adds one for each tool that has been answered its COMMIT, and
those are the tools that exit with 0.
-/
import KvServer.Proofs.Decimal
import KvServer.Proofs.Runs

namespace KvServer

/-! ### Replaying increments

An increment in the log finds the value its predecessor has left, because a log agrees with
its replay; so the values run up by one, whatever else is between them.
-/

section Replay

variable {p : Platform} {loc : TablePtr × Str} {ops : Ops} {v : Int}

/-- A transaction that increments finds the value and leaves the next. -/
theorem Increment.final {σ : TablePtr × Str → Option Str} (h : Increment p loc ops)
    (hagrees : Replay.Agrees σ ops) (hvalue : σ loc = some (toString v)) (hv : InInt v)
    (hnext : InInt (v + 1)) : Replay.final σ ops loc = some (toString (v + 1)) := by
  obtain ⟨x, y, ⟨n, m, hn, hm, rfl⟩, rfl⟩ := h
  obtain rfl : toString v = x := Option.some.inj (hvalue.symm.trans hagrees.1)
  obtain rfl : v = n := Except.ok.inj ((stoi_toString hv).symm.trans hn)
  have hsum : arith p .add v 1 = .ok (v + 1) := if_pos hnext
  obtain rfl : v + 1 = m := Except.ok.inj (hsum.symm.trans hm)
  exact Function.update_self ..

abbrev Entry := TwoPhase.Entry ConnId TablePtr Str Str

/-- **A log counts up** once for each of its increments, if nothing else in it writes. -/
theorem final_counted {tools : Finset ConnId} {log : List Entry} {σ : TablePtr × Str → Option Str}
    (hours : ∀ e ∈ log, e.party ∈ tools → Increment p loc e.session.ops)
    (hothers : ∀ e ∈ log, e.party ∉ tools → Replay.Unwritten loc e.session.ops)
    (hagrees : Replay.Agrees σ (TwoPhase.replay log)) (hvalue : σ loc = some (toString v))
    (hv : InInt v) (hbound : v + log.countP (fun e => e.party ∈ tools) ≤ 2147483647) :
    Replay.final σ (TwoPhase.replay log) loc
      = some (toString (v + log.countP (fun e => e.party ∈ tools))) := by
  induction log generalizing σ v with
  | nil => simpa [TwoPhase.replay] using hvalue
  | cons e log ih =>
      have hsplit : TwoPhase.replay (e :: log) = e.session.ops ++ TwoPhase.replay log := rfl
      rw [hsplit] at hagrees ⊢
      obtain ⟨hentry, hrest⟩ := Replay.agrees_append.mp hagrees
      have hours' := fun f hf => hours f (List.mem_cons_of_mem _ hf)
      have hothers' := fun f hf => hothers f (List.mem_cons_of_mem _ hf)
      rw [Replay.final_append]
      by_cases hparty : e.party ∈ tools
      · rw [List.countP_cons_of_pos (by simpa using hparty)] at hbound ⊢
        have hnext : InInt (v + 1) := by
          unfold InInt at hv ⊢
          omega
        have hnow := (hours e List.mem_cons_self hparty).final hentry hvalue hv hnext
        rw [ih hours' hothers' hrest hnow hnext (by omega)]
        congr 2
        omega
      · rw [List.countP_cons_of_neg (by simpa using hparty)] at hbound ⊢
        refine ih hours' hothers' hrest ?_ hv hbound
        rw [Replay.final_of_unwritten (hothers e List.mem_cons_self hparty)]
        exact hvalue

end Replay

/-! ### The invariant

The tools' side (`Tracked`) and the history's side (`Recorded`) are independent, and the
invariant puts them next to each other for every tool at once.
-/

/-- The location a call writes. -/
def Effect.writes : Effect → Option (TablePtr × Str)
  | .set t key _ => some (t, key)
  | _ => Option.none

/-- Whoever is not a tool does not write the location. -/
def Tools.OnlyTools (p : Platform) (tools : Finset ConnId) (loc : TablePtr × Str) (w : Tools) :
    Tools.Event → Prop
  | .turn a => a.conn ∈ tools ∨ ∀ x ∈ w.state.turn p a, x.1.writes ≠ some loc
  | _ => True

instance (p : Platform) (tools : Finset ConnId) (loc : TablePtr × Str) (w : Tools) :
    ∀ e, Decidable (w.OnlyTools p tools loc e)
  | .turn a =>
      inferInstanceAs (Decidable (a.conn ∈ tools ∨ ∀ x ∈ w.state.turn p a, x.1.writes ≠ some loc))
  | .write _ => .isTrue trivial
  | .read _ => .isTrue trivial

/-- The server's history, beside a run with tools. -/
def noteTools (p : Platform) (w : Tools) (e : Tools.Event) (w' : Tools) (h : History) : History :=
  match e with
  | .turn a => noteHistory p w.state a w'.state h
  | _ => h

section Counting

variable {p : Platform} {tools : Finset ConnId} {user : ConnId → Str} {table key : Str}
  {t : TablePtr} {σ : TablePtr × Str → Option Str} {w w' : Tools} {h h' : History}

structure Counting (p : Platform) (tools : Finset ConnId) (user : ConnId → Str) (table key : Str)
    (t : TablePtr) (σ : TablePtr × Str → Option Str) (w : Tools) (h : History) : Prop where
  recorded : Recorded σ w.state h
  found : w.state.server.findTable table = some t
  tracked : ∀ i ∈ tools, ∃ k, w.task i = some k ∧
    Tracked p (user i) table key t k (w.state.conns i) (h.session i).ops (h.answeredBy i)
  /-- Only tools have written the key, write it, -/
  others : ∀ i ∉ tools, Replay.Unwritten (t, key) (h.session i).ops ∧
    ∀ item ∈ h.answeredBy i, Replay.Unwritten (t, key) item.ops
  /-- and have anything pending at it. -/
  pending : w.state.abs.pending t key ≠ none → ∃ i ∈ tools, t ∈ (w.state.abs.view i).dirty

theorem note_ops {s : State} {call : Call} {found : Option Str}
    (hfound : s.abs.Tells call found) (n : TwoPhase.Session TablePtr Str Str) (now : Nat) :
    (n.note found now call).ops = opsNext (fun u => (s.server.tables u).visible) n.ops call := by
  cases call with
  | get u key =>
      obtain rfl := hfound u key rfl
      rfl
  | _ => rfl

/-- A call that is not a SET of the location does not write it for the protocol either. -/
theorem Stepped.not_set {s s' : State} {a : Turn} {effect : Effect} {c' : Conn}
    (hst : Stepped p s a effect c' s') (hwrites : effect.writes ≠ some (t, key)) (value : Str) :
    s.call a effect ≠ .set t key value := by
  intro hcall
  unfold State.call at hcall
  rcases hst.moves.call_cases with heq | ⟨-, heq⟩
  · rw [heq] at hcall
    cases effect <;> cases hcall
    exact hwrites rfl
  · rw [heq] at hcall
    cases hcall

/-- **The server's turns keep the count.** -/
theorem Counting.turn (hc : Counting p tools user table key t σ w h) {a : Turn} {s' : State}
    (huser : ∀ i ∈ tools, Printable (user i)) (htable : Identifier table) (hkey : Identifier key)
    (honly : w.OnlyTools p tools (t, key) (.turn a)) (hadmits : w.Admits a)
    (hturn : w.state.step p a = some s') :
    Counting p tools user table key t σ { w with state := s' } (noteHistory p w.state a s' h) := by
  have hrecorded := hc.recorded.step (a := a) (Transition.recorded_eq_some.mpr ⟨hturn, rfl⟩)
  obtain ⟨effect, c', hst⟩ := hc.recorded.inv.stepped hturn
  have hprotocol := hst.refines hc.recorded.inv
  have hothers : a.conn ∈ tools ∨ ∀ value, w.state.call a effect ≠ .set t key value :=
    honly.imp_right fun hwrites value => hst.not_set (hwrites _ hst.turn) value
  rw [hst.history] at hrecorded ⊢
  constructor
  case recorded => exact hrecorded
  case found => exact hst.findTable hc.found
  case tracked =>
    intro i hi
    obtain ⟨k, hk, htracked⟩ := hc.tracked i hi
    refine ⟨k, hk, ?_⟩
    show Tracked p _ table key t _ (s'.conns i) _ _
    by_cases hia : i = a.conn
    · subst hia
      have hrecv := fun line (hch : a.choice = .recv line) => hadmits.recv hk hch
      have hview : s'.abs.view a.conn = c'.view := congrArg Conn.view hst.self
      have hops := note_ops hst.tells (h.session a.conn) h.now
      have hitem : (((h.session a.conn).note (s'.found a.conn) h.now
        (w.state.call a effect)).item a.conn h.now).ops = opsNext _ _ _ := hops
      rw [hst.self]
      refine ⟨htracked.stage.turn htracked.inOrder (hc.recorded.inv.wf _) (huser _ hi) htable hkey
        hc.found hst.runs hrecv (hadmits.eof hk)
        (fun hends : (w.state.abs.view a.conn).ends c'.view = false => ?_) hitem ?_,
        htracked.inOrder.turn hst.moves hrecv⟩
      · rw [TwoPhase.note_session_self, hview, if_neg (ne_true_of_eq_false hends)]
        exact hops
      · rw [TwoPhase.note_answeredBy_self, hview]
        rfl
    · rw [hst.other hia, TwoPhase.note_session_other hia, TwoPhase.note_answeredBy_other hia]
      exact htracked
  case others =>
    intro i hi
    by_cases hia : i = a.conn
    · subst hia
      obtain ⟨hops, hanswered⟩ := hc.others _ hi
      have hnext : Replay.Unwritten (t, key)
          ((h.session a.conn).note (s'.found a.conn) h.now (w.state.call a effect)).ops :=
        TwoPhase.note_unwritten hops (hothers.resolve_left hi)
      refine ⟨?_, ?_⟩
      · rw [TwoPhase.note_session_self]
        split
        · exact Replay.unwritten_nil
        · exact hnext
      · rw [TwoPhase.note_answeredBy_self]
        split
        · intro item hitem
          rcases List.mem_append.mp hitem with hitem | hitem
          · exact hanswered item hitem
          · rw [List.mem_singleton.mp hitem]
            exact hnext
        · exact hanswered
    · rw [TwoPhase.note_session_other hia, TwoPhase.note_answeredBy_other hia]
      exact hc.others i hi
  case pending => exact hprotocol.pending_of hothers hc.pending

/-- The tools' steps change nothing but the tool. -/
theorem Counting.setTask (hc : Counting p tools user table key t σ w h) {i : ConnId} {k k' : Task}
    (hk : w.task i = some k)
    (htracked : ∀ {ops done}, Tracked p (user i) table key t k (w.state.conns i) ops done →
      Tracked p (user i) table key t k' (w.state.conns i) ops done) :
    Counting p tools user table key t σ (w.setTask i k') h where
  recorded := hc.recorded
  found := hc.found
  tracked j hj := by
    obtain ⟨k₁, hk₁, h₁⟩ := hc.tracked j hj
    by_cases hji : j = i
    · subst hji
      obtain rfl := Option.some.inj (hk.symm.trans hk₁)
      exact ⟨k', w.setTask_self j k', htracked h₁⟩
    · exact ⟨k₁, (w.setTask_other hji k').trans hk₁, h₁⟩
  others := hc.others
  pending := hc.pending

/-- **Every event keeps the count.** -/
theorem Counting.step (hc : Counting p tools user table key t σ w h) {e : Tools.Event}
    (huser : ∀ i ∈ tools, Printable (user i)) (htable : Identifier table) (hkey : Identifier key)
    (honly : w.OnlyTools p tools (t, key) e)
    (hrecorded : Transition.recorded (Tools.step p) (noteTools p) (w, h) e = some (w', h')) :
    Counting p tools user table key t σ w' h' := by
  obtain ⟨hstep, rfl⟩ := Transition.recorded_eq_some.mp hrecorded
  cases Tools.happens hstep with
  | turn hadmits hturn => exact hc.turn huser htable hkey honly hadmits hturn
  | write hk hwrite => exact hc.setTask hk fun htracked => htracked.write hwrite
  | read hk harrived hread => exact hc.setTask hk fun htracked => htracked.read harrived hread

/-- Before the first event nothing has been counted. -/
theorem Boot.counting {buf : ConnId → Str} (hboot : Boot w.state)
    (hfound : w.state.server.findTable table = some t)
    (htools : ∀ i ∈ tools, w.task i = some (.start (increment (user i) table key) (buf i))) :
    Counting p tools user table key t w.state.committed w {} where
  recorded := hboot.recorded
  found := hfound
  tracked i hi := by
    refine ⟨_, htools i hi, ?_⟩
    rw [hboot.conns]
    exact tracked_start
  others i _ := ⟨Replay.unwritten_nil, List.forall_mem_nil _⟩
  pending hpending := by
    refine absurd ?_ hpending
    show (w.state.server.tables t).keyValueTemp.lookup key = none
    rw [hboot.pending]
    rfl

/-! ### The count

When every tool has ended, the entries of the log that are the tools' are just their answered
COMMITs, and those are the exits with 0.
-/

/-- The tool's `main` has returned, and the server has closed the connection. -/
def Tools.Ended (w : Tools) (i : ConnId) : Prop :=
  (w.exit i).isSome ∧ (w.state.conns i).pc = .closed

instance (w : Tools) (i : ConnId) : Decidable (w.Ended i) := by unfold Tools.Ended; infer_instance

/-- The runs that have exited with 0. -/
def Tools.succeeded (w : Tools) (tools : Finset ConnId) : Finset ConnId :=
  tools.filter fun i => (w.exit i).map Prod.fst = some 0

/-- What has been answered of a run that is over. -/
theorem Counting.over (hc : Counting p tools user table key t σ w h) {i : ConnId} (hi : i ∈ tools)
    (hended : w.Ended i) :
    (h.answeredBy i).length = (if (w.exit i).map Prod.fst = some 0 then 1 else 0) ∧
      ∀ item ∈ h.answeredBy i, Increment p (t, key) item.ops := by
  obtain ⟨k, hk, htracked⟩ := hc.tracked i hi
  obtain ⟨hexit, hclosed⟩ := hended
  simp only [Tools.exit, hk, Option.bind_some] at hexit ⊢
  cases herrand : k.errand with
  | ask xs => simp [herrand] at hexit
  | await x xs => simp [herrand] at hexit
  | returned code =>
      simp only [Option.map_some, Option.some.injEq]
      exact htracked.ended hclosed herrand

/-- **The committed value is the first value and the number of runs that succeeded.** -/
theorem Counting.committed (hc : Counting p tools user table key t σ w h) {v : Int}
    (hvalue : σ (t, key) = some (toString v)) (hv : InInt v)
    (hbound : v + tools.card ≤ 2147483647) (hended : ∀ i ∈ tools, w.Ended i) :
    w.state.committed (t, key) = some (toString (v + (w.succeeded tools).card)) := by
  obtain ⟨log, hlog⟩ := hc.recorded.logged
  have hover := fun i hi => hc.over hi (hended i hi)
  have hview : ∀ i ∈ tools, w.state.abs.view i = .gone := fun i hi => by
    show (w.state.conns i).view = .gone
    simp [Conn.view, (hended i hi).2]
  have hidle : ∀ i ∈ tools, (w.state.abs.view i).decided = false := fun i hi => by
    rw [hview i hi]
    rfl
  have hcount : log.countP (fun e => e.party ∈ tools) = (w.succeeded tools).card := by
    rw [hlog.count hidle, Tools.succeeded, Finset.card_filter]
    exact Finset.sum_congr rfl fun i hi => (hover i hi).1
  -- what the log says of the tools and of everybody else
  have hours : ∀ e ∈ log, e.party ∈ tools → Increment p (t, key) e.session.ops := by
    intro e he hparty
    obtain ⟨item, hmem, hitem⟩ := hlog.replied he (hidle _ hparty)
    obtain ⟨reply, -, rfl⟩ := Option.map_eq_some_iff.mp hitem
    exact (hover _ hparty).2 _ (List.mem_filter.mpr ⟨hmem, decide_eq_true rfl⟩)
  have hothers : ∀ e ∈ log, e.party ∉ tools → Replay.Unwritten (t, key) e.session.ops := by
    intro e he hparty
    obtain ⟨hops, hanswered⟩ := hc.others _ hparty
    cases hreply : e.reply with
    | none => exact (hlog.waiting e he hreply).2 ▸ hops
    | some reply =>
        have hitem : e.item = some (e.session.item e.party reply) := by
          simp [TwoPhase.Entry.item, hreply]
        refine hanswered (e.session.item e.party reply) (List.mem_filter.mpr ⟨?_, decide_eq_true rfl⟩)
        exact hlog.answered.mem_iff.mp (List.mem_filterMap.mpr ⟨e, he, hitem⟩)
  have hbound' : v + log.countP (fun e => e.party ∈ tools) ≤ 2147483647 := by
    have : (w.succeeded tools).card ≤ tools.card := Finset.card_filter_le _ _
    omega
  have hfinal := final_counted hours hothers hlog.agrees hvalue hv hbound'
  rw [hlog.final, hcount] at hfinal
  -- nothing is pending at the key, so what counts is what is committed
  have hpending : w.state.abs.pending t key = none := by
    by_contra hne
    obtain ⟨i, hi, hdirty⟩ := hc.pending hne
    rw [hview i hi] at hdirty
    cases hdirty
  rw [← hfinal]
  exact (TwoPhase.logical_of_pending hpending).symm

/--
**No update is lost or made twice.**  However the runs of `incr_value -t` interleave with
one another and with connections that do not write the key, once all of them have ended
the committed value has grown by the number of runs that exited with 0.  A user name is a
line or less, so that the tool's LOGIN is one request.
-/
theorem increments_counted {w₀ : Tools} {buf : ConnId → Str} {events : List Tools.Event} {v : Int}
    (hboot : Boot w₀.state)
    (htools : ∀ i ∈ tools,
      w₀.task i = some (.start (incrValueExchanges true (user i) table key) (buf i)))
    (hfound : w₀.state.server.findTable table = some t) (htable : Identifier table)
    (hkey : Identifier key) (huser : ∀ i ∈ tools, Printable (user i))
    (hvalue : w₀.state.committed (t, key) = some (toString v)) (hv : InInt v)
    (hbound : v + tools.card ≤ 2147483647)
    (honly : Transition.Along (Tools.step p) (Tools.OnlyTools p tools (t, key)) w₀ events)
    (hrun : Transition.run (Tools.step p) w₀ events = some w)
    (hended : ∀ i ∈ tools, w.Ended i) :
    w.state.committed (t, key) = some (toString (v + (w.succeeded tools).card)) ∧
      ∀ i ∈ tools, (w.exit i).map Prod.fst = some (exitCode
        (Tool.incrValue true (user i) table key).body
        { input := (w.state.conns i).sent.flatten, buf := buf i }) := by
  obtain ⟨h, hrecorded⟩ :
      ∃ h, Transition.run (Transition.recorded (Tools.step p) (noteTools p)) (w₀, {}) events
        = some (w, h) := Transition.exists_recorded ({} : History) hrun
  have hc : Counting p tools user table key t w₀.state.committed w h :=
    Transition.along_invariant
      (I := fun x : Tools × History => Counting p tools user table key t w₀.state.committed x.1 x.2)
      (fun {x e x'} hx honly hstep => hx.step huser htable hkey honly hstep)
      (hboot.counting hfound htools) (Transition.along_recorded honly) hrecorded
  refine ⟨hc.committed hvalue hv hbound hended, fun i hi => ?_⟩
  obtain ⟨⟨code, printed⟩, hexit⟩ := Option.isSome_iff_exists.mp (hended i hi).1
  have htool : w₀.task i = some (.start (Tool.incrValue true (user i) table key).exchanges (buf i)) :=
    htools i hi
  rw [hexit, exits_as_tool hboot.inv (hboot.conns i) htool hrun hexit]
  rfl

end Counting

/-- A server with one table, `t`, in which the key `k` has the value 5. -/
def oneTable : State where
  server :=
    (Server.initial.newTable (bytes "t")).modifyTable 0 fun table =>
      (table.set (bytes "k") (bytes "5")).commitChanges
  conns _ := {}

theorem boot_oneTable : Boot oneTable := by
  have htables : ∀ u, u ≠ 0 → oneTable.server.tables u = { name := [] } := fun u hu => by
    simp [oneTable, Server.modifyTable, Server.newTable, Server.initial, hu]
  constructor
  case conns => exact fun _ => rfl
  case unlocked =>
    refine ⟨rfl, fun u => ?_⟩
    by_cases hu : u = 0
    · subst hu
      rfl
    · rw [htables u hu]
  case pending =>
    intro u
    by_cases hu : u = 0
    · subst hu
      rfl
    · rw [htables u hu]
  case found =>
    intro name u hname
    have hname : (Server.initial.apply 0 (.newTable (bytes "t"))).findTable name = some u := hname
    rcases apply_findTable hname with hname | ⟨rfl, -⟩
    · cases hname
    · exact Nat.zero_lt_one
  case fresh =>
    intro u hu
    rw [htables u (Nat.ne_of_gt hu)]
  case running => rfl

/-- A tool's request, what the server does about it, and its answer. -/
def exchange (i : ConnId) (line : String) (choices : List Choice) : List Tools.Event :=
  .write i :: .turn ⟨i, .recv (bytes line)⟩ :: choices.map (fun ch => .turn ⟨i, ch⟩) ++ [.read i]

/-- Tool 1 is refused the table that tool 0 has; it exits, and tool 0 goes on. -/
def conflicting : List Tools.Event :=
  exchange 0 "LOGIN a\n" [] ++ exchange 0 "BEGIN\n" [] ++
  exchange 0 "GET t k\n" [.go, .go, .go, .go, .go] ++
  exchange 1 "LOGIN b\n" [] ++ exchange 1 "BEGIN\n" [] ++
  exchange 1 "GET t k\n" [.go, .go, .go, .go, .go] ++ [.turn ⟨1, .eof⟩] ++
  exchange 0 "PUSH 1\n" [] ++ exchange 0 "ADD\n" [] ++
  exchange 0 "SET t k\n" [.go, .go, .go, .go] ++
  exchange 0 "COMMIT\n" [.visit 0, .go, .go] ++ [.write 0, .turn ⟨0, .recv (bytes "BYE\n")⟩]

/-- Two tools at the one table, and nobody else. -/
def twoTools : Tools where
  state := oneTable
  task i :=
    if i < 2 then
      some (.start (incrValueExchanges true (if i = 0 then bytes "a" else bytes "b") (bytes "t")
        (bytes "k")) [])
    else none

theorem increments_counted_conflicting :
    ∃ w, Transition.run (Tools.step trapping) twoTools conflicting = some w ∧
      w.succeeded {0, 1} = {0} ∧ w.state.committed (0, bytes "k") = some (bytes "6") := by
  have hrun : (Transition.run (Tools.step trapping) twoTools conflicting).map
      (fun w => decide ((∀ i ∈ ({0, 1} : Finset ConnId), w.Ended i) ∧ w.succeeded {0, 1} = {0}))
        = some true := by decide +kernel
  have honly : Transition.Along (Tools.step trapping)
      (Tools.OnlyTools trapping {0, 1} (0, bytes "k")) twoTools conflicting := by
    decide +kernel
  obtain ⟨w, hrun, hw⟩ := Option.map_eq_some_iff.mp hrun
  obtain ⟨hended, hsucceeded⟩ := of_decide_eq_true hw
  have hname : Identifier (bytes "t") ∧ Identifier (bytes "k") :=
    ⟨isIdentifier_iff.mp (by decide), isIdentifier_iff.mp (by decide)⟩
  have huser : ∀ i ∈ ({0, 1} : Finset ConnId), Printable (if i = 0 then bytes "a" else bytes "b") :=
    fun i _ => by split <;> exact ⟨by decide, by decide⟩
  have htools : ∀ i ∈ ({0, 1} : Finset ConnId), twoTools.task i = some (.start (incrValueExchanges
      true (if i = 0 then bytes "a" else bytes "b") (bytes "t") (bytes "k")) []) := by
    intro i hi
    refine if_pos ?_
    rcases Finset.mem_insert.mp hi with rfl | hi
    · decide
    · rw [Finset.mem_singleton.mp hi]
      decide
  have hcommitted := (increments_counted boot_oneTable htools (v := 5) (by decide) hname.1 hname.2
    huser (by decide) (by decide) (by decide) honly hrun hended).1
  rw [hsucceeded] at hcommitted
  exact ⟨w, hrun, hsucceeded, hcommitted⟩

end KvServer
