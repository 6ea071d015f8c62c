/-
How a transaction ends.

There are three loops over `locked_tables`: that of `handle_commit`, that of the
`FailedTransaction` handler and that of the destructor.  `AllOrNothing` says which of them
a transaction comes to on which path, what is committed at the moment a table is unlocked
in it, and that each table is unlocked once; the record it speaks of is the protocol's
`Ledger`, fed with the turns of the server.
-/
import KvServer.Lib.Atomic
import KvServer.Proofs.Strangers

namespace KvServer

/-- The protocol's record of a run of the server. -/
abbrev Ledger := TwoPhase.Ledger ConnId TablePtr Str Str

def noteLedger (p : Platform) (s : State) (a : Turn) (_ : State) (l : Ledger) : Ledger :=
  match s.turn p a with
  | none => l
  | some (effect, _) => l.note s.abs a.conn (s.call a effect)

/-- The loop over `locked_tables` a connection is in. -/
def Pc.loop : Pc → Option Ending
  | .ending e _ => some e
  | .endingUnlock e _ _ => some e
  | _ => none

/-! ### The paths out of a transaction

There are two ways into the loop of the `FailedTransaction` handler and four into that of the
destructor.  `Ends` has them all, each with the input or the point it starts from, and
`Exits.ends` says that a step comes to a loop if and only if it is one of them: no way out
avoids its loop, and nothing else leads there.
-/

/-- The steps that end a transaction, and the loop each of them leads to. -/
inductive Ends (sv : Server) (c : Conn) : Choice → Ending → Prop
  | commit {line : Str} {m : Message} (hm : decode (cstr line) = .ok m)
      (htype : m.messageType = .commit) : Ends sv c (.recv line) .commit
  | nested {line : Str} {m : Message} (hm : decode (cstr line) = .ok m)
      (htype : m.messageType = .begin) :
      Ends sv c (.recv line) (.abort (bytes "Nested transaction not allowed"))
  | conflict {a : Access} {t : TablePtr} (hpc : c.pc = .trylock a t)
      (hheld : (sv.tables t).tableMutex ≠ none) :
      Ends sv c .go (.abort (bytes "Could not acquire lock on table " ++ a.table))
  | bye {line : Str} {m : Message} (hm : decode (cstr line) = .ok m)
      (htype : m.messageType = .bye) : Ends sv c (.recv line) .destroy
  | malformed {line : Str} {e : Exn} (hline : decode (cstr line) = .error e) :
      Ends sv c (.recv line) .destroy
  | invalid {line : Str} {m : Message} (hm : decode (cstr line) = .ok m)
      (hrefuses : c.Refuses m) : Ends sv c (.recv line) .destroy
  | eof : Ends sv c .eof .destroy

/-- A transaction goes on with the tables it has, or comes to a loop over all of them. -/
structure Keeps (c c' : Conn) : Prop where
  inTransaction : c'.inTransaction = true
  stays : c'.pc ≠ .closed
  lockedTables : c.lockedTables ⊆ c'.lockedTables
  loop : ∀ e, c'.pc.loop = some e →
    c'.pc = .ending e c.lockedTables ∧ c'.lockedTables = c.lockedTables

/-- It comes to one by the steps that end a transaction, and by no others. -/
structure Exits (sv : Server) (c : Conn) (ch : Choice) (c' : Conn) : Prop extends Keeps c c' where
  ends : ∀ e, c'.pc.loop = some e ↔ Ends sv c ch e

section Step

variable {p : Platform} {sv : Server} {c c' : Conn} {ch : Choice} {effect : Effect} {e : Ending}

theorem Keeps.on (htx : c'.inTransaction = true) (hlocked : c.lockedTables ⊆ c'.lockedTables)
    (hloop : c'.pc.loop = none) (hstays : c'.pc ≠ .closed) : Keeps c c' :=
  ⟨htx, hstays, hlocked, fun e he => by cases hloop.symm.trans he⟩

theorem Keeps.ending (htx : c'.inTransaction = true) (hlocked : c'.lockedTables = c.lockedTables)
    (hpc : c'.pc = .ending e c.lockedTables) : Keeps c c' := by
  refine ⟨htx, by simp [hpc], hlocked.superset, fun e' he => ?_⟩
  rw [hpc] at he
  obtain rfl := Option.some.inj he
  exact ⟨hpc, hlocked⟩

/-- Whoever leaves in a transaction comes to the loop of the destructor. -/
theorem leave_destroy (htx : c.inTransaction = true) : c.leave = .ending .destroy c.lockedTables :=
  if_pos htx

theorem Served.keeps {line : Str} (h : Served p line c c') (htx : c.inTransaction = true) :
    Keeps c c' := by
  cases h with
  | reply hresp hflag hlogin hstack =>
      refine .on ?_ subset_rfl rfl nofun
      rcases hflag with rfl | ⟨hout, -⟩
      · exact htx
      · cases htx.symm.trans hout
  | commit hm htype _ => exact .ending htx rfl rfl
  | nested hm htype _ => exact .ending htx rfl rfl
  | leave hresp hleft => exact .ending htx rfl (leave_destroy htx)
  | _ => exact .on htx subset_rfl rfl nofun

/-- A line that brings a transaction to a loop. -/
theorem Served.ends {line : Str} {received : List Str}
    (h : Served p line { c with received := received } c') (htx : c.inTransaction = true)
    (he : c'.pc.loop = some e) : Ends sv c (.recv line) e := by
  cases h with
  | commit hm htype _ =>
      obtain rfl := Option.some.inj he
      exact .commit hm htype
  | nested hm htype _ =>
      obtain rfl := Option.some.inj he
      exact .nested hm htype
  | leave hresp hleft =>
      change c.leave.loop = some e at he
      rw [leave_destroy htx] at he
      obtain rfl := Option.some.inj he
      cases hm : decode (cstr line) with
      | error e => exact .malformed hm
      | ok m =>
          rcases hleft m hm with htype | hrefuses
          · exact .bye hm htype
          · exact .invalid hm hrefuses
  | _ => cases he

theorem Moves.keeps (h : Moves p sv c ch effect c') (htx : c.inTransaction = true)
    (hloop : c.pc.loop = none) : Keeps c c' := by
  cases h with
  | request hpc hpos hlen h =>
      obtain ⟨hin, hstays, hlocked, hend⟩ := h.keeps htx
      exact ⟨hin, hstays, hlocked, hend⟩
  | eof hpc => exact .ending htx rfl (leave_destroy htx)
  | trylock hpc hfree => exact .on htx (Finset.subset_insert _ _) rfl nofun
  | conflict hpc hheld => exact .ending htx rfl rfl
  | visit hpc ht => simp [Pc.loop, hpc] at hloop
  | release hpc => simp [Pc.loop, hpc] at hloop
  | finishCommit hpc => simp [Pc.loop, hpc] at hloop
  | finishAbort hpc hline => simp [Pc.loop, hpc] at hloop
  | finishCrash hpc hline => simp [Pc.loop, hpc] at hloop
  | finishDestroy hpc => simp [Pc.loop, hpc] at hloop
  | _ => exact .on htx subset_rfl rfl nofun

/-- Only the listed steps lead to a loop, -/
theorem Moves.ends (h : Moves p sv c ch effect c') (htx : c.inTransaction = true)
    (hloop : c.pc.loop = none) (he : c'.pc.loop = some e) : Ends sv c ch e := by
  cases h with
  | request hpc hpos hlen h => exact h.ends htx he
  | eof hpc =>
      change c.leave.loop = some e at he
      rw [leave_destroy htx] at he
      obtain rfl := Option.some.inj he
      exact .eof
  | conflict hpc hheld =>
      obtain rfl := Option.some.inj he
      exact .conflict hpc hheld
  | visit hpc ht => simp [Pc.loop, hpc] at hloop
  | release hpc => simp [Pc.loop, hpc] at hloop
  | _ => cases he

/-- and each of them does. -/
theorem Ends.loop (h : Ends sv c ch e) (hin : c.loggedIn = true) (htx : c.inTransaction = true)
    (hstep : c.step p sv ch = some (effect, c')) : c'.pc = .ending e c.lockedTables := by
  have hline : ∀ {line}, ch = .recv line → c' = c.chatWithClient p line := by
    rintro line rfl
    simp only [Conn.step] at hstep
    split at hstep
    · exact (Prod.mk.inj (Option.some.inj hstep)).2.symm
    · cases hstep
  cases h with
  | commit hm htype =>
      rw [hline rfl, chatWithClient_ok p hm]
      simp [Conn.attempt, handleRequest, htype, hin, handleCommit_exec, htx]
  | nested hm htype =>
      rw [hline rfl, chatWithClient_ok p hm]
      simp [Conn.attempt, handleRequest, htype, hin, handleBegin_exec, htx, Conn.catchClause]
  | conflict hpc hheld =>
      simp only [Conn.step, Conn.go, hpc, if_neg hheld, Option.some.injEq, Prod.mk.injEq] at hstep
      rw [← hstep.2]
      simp [Conn.attempt, afterTrylock, Conn.catchClause]
  | bye hm htype =>
      rw [hline rfl, chatWithClient_bye p hm htype]
      exact leave_destroy htx
  | malformed hm =>
      obtain ⟨what, resp, -, -, heq⟩ := chatWithClient_error p (c := c) hm
      rw [hline rfl, heq]
      exact leave_destroy htx
  | invalid hm hrefuses =>
      obtain ⟨what, resp, -, -, heq⟩ := chatWithClient_refused p hm hin hrefuses
      rw [hline rfl, heq]
      exact leave_destroy htx
  | eof =>
      simp only [Conn.step] at hstep
      split at hstep
      · rw [← (Prod.mk.inj (Option.some.inj hstep)).2]
        exact leave_destroy htx
      · cases hstep

/-- **The paths out of a transaction.** -/
theorem Moves.exits (h : Moves p sv c ch effect c') (hstep : c.step p sv ch = some (effect, c'))
    (hin : c.loggedIn = true) (htx : c.inTransaction = true) (hloop : c.pc.loop = none) :
    Exits sv c ch c' where
  toKeeps := h.keeps htx hloop
  ends e := ⟨h.ends htx hloop, fun hends => by rw [hends.loop hin htx hstep]; rfl⟩

/-- The transaction that came to the loop `e` is over. -/
def Conn.Over (c : Conn) : Ending → Prop
  | .commit => c.inTransaction = false ∧ c.lockedTables = ∅
  | .abort _ => c.inTransaction = false ∧ c.lockedTables = ∅
  | .destroy => c.pc = .closed

/-- A loop goes on until nothing is left. -/
theorem Moves.loop (h : Moves p sv c ch effect c') (hloop : c.pc.loop = some e) :
    c'.pc.loop = some e ∧ c'.lockedTables = c.lockedTables ∧ c'.inTransaction = c.inTransaction ∨
      c.pc = .ending e ∅ ∧ c'.Over e := by
  cases h with
  | visit hpc ht =>
      rw [hpc] at hloop
      exact .inl ⟨hloop, rfl, rfl⟩
  | release hpc =>
      rw [hpc] at hloop
      exact .inl ⟨hloop, rfl, rfl⟩
  | finishCommit hpc =>
      rw [hpc] at hloop
      obtain rfl := Option.some.inj hloop
      exact .inr ⟨hpc, rfl, rfl⟩
  | finishAbort hpc hline =>
      rw [hpc] at hloop
      obtain rfl := Option.some.inj hloop
      exact .inr ⟨hpc, rfl, rfl⟩
  | finishCrash hpc hline =>
      rw [hpc] at hloop
      obtain rfl := Option.some.inj hloop
      exact .inr ⟨hpc, rfl, rfl⟩
  | finishDestroy hpc =>
      rw [hpc] at hloop
      obtain rfl := Option.some.inj hloop
      exact .inr ⟨hpc, rfl⟩
  | _ => simp [Pc.loop, *] at hloop

/-- The tables a transaction has still to unlock. -/
def Conn.left (c : Conn) : Finset TablePtr :=
  match c.pc with
  | .ending _ rest => rest
  | .endingUnlock _ t rest => insert t rest
  | .closed => ∅
  | _ => c.lockedTables

theorem Conn.WF.held_left (hwf : c.WF) (htx : c.inTransaction = true) : c.view.held = c.left := by
  have hpoint := hwf.point
  unfold Conn.PointOk at hpoint
  unfold Conn.left Conn.view
  cases hpc : c.pc with
  | ending e rest => rfl
  | endingUnlock e t rest => rfl
  | closed => rfl
  | guardCall a t =>
      rw [hpc] at hpoint
      cases htx.symm.trans hpoint
  | guardCommit t =>
      rw [hpc] at hpoint
      cases htx.symm.trans hpoint
  | guardUnlock t result =>
      rw [hpc] at hpoint
      cases htx.symm.trans hpoint.1
  | _ =>
      dsimp only
      rw [if_pos htx]
      rfl

/-- Outside a transaction nobody has a table but under a guard. -/
theorem Conn.WF.guards_of_held (hwf : c.WF) (hout : c.inTransaction = false) {t : TablePtr}
    (ht : t ∈ c.view.held) : c.Guards t := by
  have hpoint := hwf.point
  unfold Conn.PointOk at hpoint
  unfold Conn.view at ht
  cases hpc : c.pc with
  | guardCall a u =>
      rw [hpc] at ht
      exact .inl ⟨a, Finset.mem_singleton.mp ht ▸ hpc⟩
  | guardCommit u =>
      rw [hpc] at ht
      exact .inr (.inl (Finset.mem_singleton.mp ht ▸ hpc))
  | guardUnlock u result =>
      rw [hpc] at ht
      exact .inr (.inr ⟨result, Finset.mem_singleton.mp ht ▸ hpc⟩)
  | ending e rest =>
      rw [hpc] at hpoint
      cases hout.symm.trans hpoint.1
  | endingUnlock e u rest =>
      rw [hpc] at hpoint
      cases hout.symm.trans hpoint.1
  | closed =>
      rw [hpc] at ht
      cases ht
  | _ =>
      simp only [hpc, hout] at ht
      cases ht

end Step

/-! ### All or nothing

Until its loop a transaction has all the tables it has locked, and its writes are pending in
them. In the loop of `handle_commit` a table is unlocked with the writes committed, in the
others with the writes gone; what these writes were is in the `Ledger`.
-/

/-- What is required, in one state, of the transactions that are ending. -/
structure AllOrNothing (p : Platform) (s : State) (l : Ledger) : Prop where
  /-- COMMIT, and nothing else, brings a transaction to the loop of `handle_commit`; every
  other path out of it leads to the loop of the handler or to that of the destructor.  The
  loop begins with all the tables that are locked. -/
  exits : ∀ a effect c', s.turn p a = some (effect, c') →
    (s.conns a.conn).inTransaction = true → (s.conns a.conn).pc.loop = none →
    Exits s.server (s.conns a.conn) a.choice c'
  /-- A loop is left when it has nothing left, and then the transaction is over. -/
  loops : ∀ a effect c' e, s.turn p a = some (effect, c') → (s.conns a.conn).pc.loop = some e →
    c'.pc.loop = some e ∧ c'.lockedTables = (s.conns a.conn).lockedTables ∧
      c'.inTransaction = (s.conns a.conn).inTransaction ∨
    (s.conns a.conn).pc = .ending e ∅ ∧ c'.Over e
  /-- A transaction has the mutexes it has still to unlock: before the loop those of all its
  tables, and none once the connection is closed. -/
  holds : ∀ i t, (s.conns i).inTransaction = true →
    ((s.server.tables t).tableMutex = some i ↔ t ∈ (s.conns i).left)
  /-- After it a connection has none, but for an autocommit GET or SET. -/
  outside : ∀ i t, (s.conns i).inTransaction = false → (s.server.tables t).tableMutex = some i →
    (s.conns i).Guards t
  /-- In a loop there is always a next step. -/
  goesOn : ∀ i e, s.terminated = false → (s.conns i).pc.loop = some e →
    ∃ choice, (s.turn p ⟨i, choice⟩).isSome
  /-- A table about to be unlocked by COMMIT has all of the transaction's writes, -/
  committed : ∀ i t rest, (s.conns i).pc = .endingUnlock .commit t rest →
    ∀ key, (s.server.tables t).keyValue.lookup key = (l.tenure t).result key
  /-- one about to be unlocked on any other path has none. -/
  rolledBack : ∀ i e t rest, (s.conns i).pc = .endingUnlock e t rest → e ≠ .commit →
    ∀ key, (s.server.tables t).keyValue.lookup key = (l.tenure t).committed key
  /-- Either way it is the connection's own, and nothing is pending in it. -/
  unlocks : ∀ i e t rest, (s.conns i).pc = .endingUnlock e t rest →
    (s.server.tables t).tableMutex = some i ∧ (s.server.tables t).keyValueTemp = ∅
  /-- What has been unlocked is what is not left, each table once. -/
  once : ∀ i e rest, (s.conns i).pc = .ending e rest →
    TwoPhase.Parts (s.conns i).lockedTables rest (l.released i)
  /-- No step changes or unlocks a table that another connection has. -/
  others : ∀ a s', s.step p a = some s' → ∀ t j, (s.server.tables t).tableMutex = some j →
    j ≠ a.conn → s'.server.tables t = s.server.tables t

section System

variable {p : Platform} {s s' : State} {l l' : Ledger} {a : Turn}

theorem loop_goes_on {i : ConnId} {e : Ending} (hrunning : s.terminated = false)
    (hloop : (s.conns i).pc.loop = some e) : ∃ choice, (s.turn p ⟨i, choice⟩).isSome := by
  cases hpc : (s.conns i).pc with
  | ending e' rest =>
      rcases rest.eq_empty_or_nonempty with rfl | ⟨t, ht⟩
      · exact ⟨.go, by simp [State.turn, hrunning, Conn.step, Conn.go, hpc]⟩
      · exact ⟨.visit t, by simp [State.turn, hrunning, Conn.step, hpc, ht]⟩
  | endingUnlock e' t rest => exact ⟨.go, by simp [State.turn, hrunning, Conn.step, Conn.go, hpc]⟩
  | _ => simp [Pc.loop, hpc] at hloop

theorem Inv.allOrNothing (h : Inv s) (hstrangers : Strangers s) (hk : TwoPhase.Kept s.abs l) :
    AllOrNothing p s l where
  exits a effect c' hturn htx hloop :=
    (h.moves hturn).exits (step_of_turn hturn) (hstrangers.loggedIn htx) htx hloop
  loops a effect c' e hturn hloop := (h.moves hturn).loop hloop
  holds i t htx := by rw [h.mutex, (h.wf i).held_left htx]
  outside i t hout howner := (h.wf i).guards_of_held hout (h.mutex.mp howner)
  goesOn i e hrunning hloop := loop_goes_on hrunning hloop
  committed i t rest hpc key := by
    have hview : s.abs.view i = .releasing true t rest (s.conns i).lockedTables := by
      show (s.conns i).view = _
      simp [Conn.view, hpc, Ending.commits]
    exact congrFun (hk.settled i true t rest _ hview) key
  rolledBack i e t rest hpc he key := by
    have hview : s.abs.view i = .releasing false t rest (s.conns i).lockedTables := by
      show (s.conns i).view = _
      cases e with
      | commit => exact absurd rfl he
      | abort what => simp [Conn.view, hpc, Ending.commits]
      | destroy => simp [Conn.view, hpc, Ending.commits]
    exact congrFun (hk.settled i false t rest _ hview) key
  unlocks i e t rest hpc := by
    have hview : s.abs.view i = .releasing e.commits t rest (s.conns i).lockedTables := by
      show (s.conns i).view = _
      simp [Conn.view, hpc]
    have hheld : t ∈ (s.abs.view i).held := by
      rw [hview]
      exact Finset.mem_insert_self _ _
    have hwf := h.protocol.wf i
    rw [hview] at hwf
    refine ⟨h.mutex.mpr hheld, keyValueTemp_eq_empty (congrFun (h.protocol.clean_held hheld ?_))⟩
    rw [hview]
    exact hwf.1
  once i e rest hpc := by
    have hview : s.abs.view i = .ending e.commits rest (s.conns i).lockedTables := by
      show (s.conns i).view = _
      simp [Conn.view, hpc]
    have hparts := hk.parts i (s.conns i).lockedTables (by rw [hview]; rfl)
    rwa [hview] at hparts
  others a s' hstep t j howner hj := by
    obtain ⟨effect, c', hst⟩ := h.stepped hstep
    exact hst.frame h hj (h.mutex.mp howner)

/-- The record is right in every state of a run. -/
theorem Inv.kept_step (h : Inv s ∧ TwoPhase.Kept s.abs l)
    (hstep : Transition.recorded (State.step p) (noteLedger p) (s, l) a = some (s', l')) :
    Inv s' ∧ TwoPhase.Kept s'.abs l' := by
  obtain ⟨hturn, rfl⟩ := Transition.recorded_eq_some.mp hstep
  obtain ⟨effect, c', hst⟩ := h.1.stepped hturn
  have hnote : noteLedger p s a s' l = l.note s.abs a.conn (s.call a effect) := by
    simp [noteLedger, hst.turn]
  rw [hnote]
  exact ⟨hst.inv h.1, h.2.step h.1.protocol (hst.refines h.1)⟩

theorem Boot.kept (h : Boot s) (l : Ledger) : TwoPhase.Kept s.abs l where
  undecided i t ht := by
    rw [h.view] at ht
    cases ht
  settled i commit t rest locked hview := by
    rw [h.view] at hview
    cases hview
  parts i locked hclosing := by
    rw [h.view] at hclosing
    cases hclosing

end System

/--
**A transaction ends with all of its writes or with none of them**, in every reachable
state and whatever was recorded before the run.
-/
theorem all_or_nothing {p : Platform} {s₀ s : State} {l₀ l : Ledger} {turns : List Turn}
    (hboot : Boot s₀)
    (hrun : Transition.run (Transition.recorded (State.step p) (noteLedger p)) (s₀, l₀) turns
      = some (s, l)) : AllOrNothing p s l := by
  have h : Inv s ∧ TwoPhase.Kept s.abs l :=
    Transition.run_invariant (I := fun x : State × Ledger => Inv x.1 ∧ TwoPhase.Kept x.1.abs x.2)
      (fun {x a x'} => Inv.kept_step) ⟨hboot.inv, hboot.kept l₀⟩ hrun
  exact h.1.allOrNothing (hboot.strangers_run (Transition.run_recorded hrun)) h.2

/-- Nothing recorded yet. -/
def Ledger.empty : Ledger where
  tenure _ := { committed := fun _ => none, writes := [] }
  released _ := []

/--
Both connections have written in a transaction, each to a table of its own.  Connection 1 goes
away, and connection 0 commits; both tables are about to be unlocked.
-/
def abandoned : List Turn :=
  [⟨0, .recv (bytes "LOGIN a\n")⟩, ⟨0, .recv (bytes "CREATE t\n")⟩, ⟨0, .go⟩, ⟨0, .go⟩, ⟨0, .go⟩,
    ⟨0, .recv (bytes "CREATE u\n")⟩, ⟨0, .go⟩, ⟨0, .go⟩, ⟨0, .go⟩, ⟨0, .recv (bytes "BEGIN\n")⟩,
    ⟨0, .recv (bytes "PUSH 7\n")⟩, ⟨0, .recv (bytes "SET t k\n")⟩, ⟨0, .go⟩, ⟨0, .go⟩, ⟨0, .go⟩,
    ⟨0, .go⟩, ⟨0, .go⟩, ⟨1, .recv (bytes "LOGIN b\n")⟩, ⟨1, .recv (bytes "BEGIN\n")⟩,
    ⟨1, .recv (bytes "PUSH 9\n")⟩, ⟨1, .recv (bytes "SET u k\n")⟩, ⟨1, .go⟩, ⟨1, .go⟩, ⟨1, .go⟩,
    ⟨1, .go⟩, ⟨1, .go⟩, ⟨1, .eof⟩, ⟨1, .visit 1⟩, ⟨0, .recv (bytes "COMMIT\n")⟩, ⟨0, .visit 0⟩]

theorem all_or_nothing_abandoned :
    ∃ s l, Transition.run (Transition.recorded (State.step trapping) (noteLedger trapping))
        (State.initial, Ledger.empty) abandoned = some (s, l) ∧ AllOrNothing trapping s l ∧
      (l.tenure 0).writes = [(bytes "k", bytes "7")] ∧
      (l.tenure 1).writes = [(bytes "k", bytes "9")] ∧
      (s.server.tables 0).keyValue.lookup (bytes "k") = some (bytes "7") ∧
      (s.server.tables 1).keyValue.lookup (bytes "k") = none := by
  have hdone : (Transition.run (Transition.recorded (State.step trapping) (noteLedger trapping))
      (State.initial, Ledger.empty) abandoned).map (fun x => decide (
        (x.1.conns 0).pc = .endingUnlock .commit 0 ∅ ∧
        (x.1.conns 1).pc = .endingUnlock .destroy 1 ∅ ∧
        (x.2.tenure 0).writes = [(bytes "k", bytes "7")] ∧
        (x.2.tenure 1).writes = [(bytes "k", bytes "9")] ∧
        (x.2.tenure 1).committed (bytes "k") = none)) = some true := by decide +kernel
  obtain ⟨⟨s, l⟩, hrun, hx⟩ := Option.map_eq_some_iff.mp hdone
  obtain ⟨hcommit, hdestroy, hzero, hone, hbefore⟩ := of_decide_eq_true hx
  have h := all_or_nothing boot_initial hrun
  refine ⟨s, l, hrun, h, hzero, hone, ?_, ?_⟩
  · rw [h.committed 0 0 ∅ hcommit, TwoPhase.Tenure.result, TwoPhase.Tenure.pending, hzero]
    simp
  · have hother : Ending.destroy ≠ .commit := by decide
    rw [h.rolledBack 1 .destroy 1 ∅ hdestroy hother]
    exact hbefore

end KvServer
