/-
The server is strictly serializable.

The history of a run is the protocol's, fed with the turns of the server: when the first
request of a transaction was read, when its first table was locked, what each GET brought
its client, what each SET wrote, and when COMMIT or the single operation was answered.
What a GET brings is taken from the connection, its response and its stack, and not from
the tables; that it is what the protocol says is visible there is `Stepped.tells`.  The
commit points, and the serial order they give, are found in `TwoPhase.Logged`.
-/
import KvServer.Lib.Serializable
import KvServer.Proofs.Lines
import KvServer.Proofs.Protocol

namespace KvServer

/-- The protocol's history of a run of the server. -/
abbrev History := TwoPhase.History ConnId TablePtr Str Str

/-- A committed transaction, or an autocommit GET or SET, that has been answered. -/
abbrev Item := TwoPhase.Item ConnId TablePtr Str Str

/-- The connection with its response written, which a guarded operation does in its next step. -/
def Conn.answered (sv : Server) (c : Conn) : Conn :=
  match c.pc, c.go sv with
  | .guardUnlock _ _, some (_, c') => c'
  | _, _ => c

/-- What a GET brings the client: after OK the value is on top of the stack, and after
anything else there is none. -/
def Conn.found (sv : Server) (c : Conn) : Option Str :=
  if (c.answered sv).sent.getLast? = some okLine then (c.answered sv).stack.vector.head?
  else none

def State.found (s : State) (i : ConnId) : Option Str :=
  (s.conns i).found s.server

def noteHistory (p : Platform) (s : State) (a : Turn) (s' : State) (h : History) : History :=
  match s.turn p a with
  | none => h
  | some (effect, _) => h.note s.abs a.conn (s.call a effect) (s'.found a.conn) s'.abs

/-- The committed maps, by table and key. -/
def State.committed (s : State) (loc : TablePtr × Str) : Option Str :=
  (s.server.tables loc.1).keyValue.lookup loc.2

/-- Past its commit point: in the loop of `handle_commit`, or under an autocommit guard
after the call on the table. -/
def Pc.decided : Pc → Bool
  | .guardCommit _ => true
  | .guardUnlock _ _ => true
  | .ending e _ => e.commits
  | .endingUnlock e _ _ => e.commits
  | _ => false

theorem view_decided (c : Conn) : c.view.decided = c.pc.decided := by
  unfold Conn.view
  cases hpc : c.pc with
  | ending e rest => cases e <;> rfl
  | endingUnlock e t rest => cases e <;> rfl
  | guardCall a t => rfl
  | guardCommit t => rfl
  | guardUnlock t result => rfl
  | closed => rfl
  | _ =>
      dsimp only
      split <;> rfl

section

variable {p : Platform} {s s' : State} {h h' : History} {a : Turn} {σ : TablePtr × Str → Option Str}

/-- **What a GET brings its client** is what is visible in the table when it is read there. -/
theorem Moves.found {sv sv' : Server} {c c' : Conn} {ch : Choice} {effect : Effect}
    {t : TablePtr} {key : Str} (h : Moves p sv c ch effect c') (heffect : effect = .get t key) :
    c'.found sv' = (sv.tables t).visible key := by
  cases h with
  | callGet hpc hget =>
      cases heffect
      rw [Table.get_eq_ok.mp hget]
      simp [Conn.found, Conn.answered, ValueStack.push]
  | callGetFail hpc hget hresp =>
      cases heffect
      have hne : ‹Str› ≠ okLine := fun heq => by
        cases okLine_not_failed.symm.trans (heq ▸ hresp.isFailed)
      rw [Table.get_eq_error hget]
      simp [Conn.found, Conn.answered, hne]
  | guardGet hpc hget =>
      cases heffect
      rw [Table.get_eq_ok.mp hget]
      simp [Conn.found, Conn.answered, Conn.go, Conn.attempt, afterGuard, ValueStack.push]
  | @guardGetFail _ _ what u hpc hwhat hget =>
      cases heffect
      have hplain : Plain (.error (.operation what)) := fun e he =>
        ⟨what, (Except.error.inj he).symm, hwhat⟩
      obtain ⟨resp, hresp, hattempt⟩ :=
        attempt_afterGuard (c := { c with pc := .guardUnlock t (.error (.operation what)) }) hplain
      have hne : resp ≠ okLine := fun heq => by
        cases okLine_not_failed.symm.trans (heq ▸ hresp.isFailed)
      rw [Table.get_eq_error hget]
      simp [Conn.found, Conn.answered, Conn.go, hattempt, hne]
  | visit hpc ht => cases ‹Ending› <;> cases heffect
  | _ => cases heffect

/-- A GET of the protocol is one of the server. -/
theorem call_get {effect : Effect} {c' : Conn} {t : TablePtr} {key : Str}
    (hst : Stepped p s a effect c' s') (hcall : s.call a effect = .get t key) :
    effect = .get t key := by
  unfold State.call at hcall
  rcases hst.moves.call_cases with heq | ⟨-, heq⟩
  · rw [heq] at hcall
    cases effect <;> cases hcall
    rfl
  · rw [heq] at hcall
    cases hcall

/-- **The history has the answers that the protocol wants.** -/
theorem Stepped.tells {effect : Effect} {c' : Conn} (hst : Stepped p s a effect c' s') :
    s.abs.Tells (s.call a effect) (s'.found a.conn) := by
  intro t key hcall
  rw [State.found, hst.self]
  exact hst.moves.found (call_get hst hcall)

theorem Stepped.history {effect : Effect} {c' : Conn} (hst : Stepped p s a effect c' s') :
    noteHistory p s a s' h = h.note s.abs a.conn (s.call a effect) (s'.found a.conn) s'.abs := by
  simp [noteHistory, hst.turn]

/-- What holds of a state and the history that leads to it. -/
structure Recorded (σ : TablePtr × Str → Option Str) (s : State) (h : History) : Prop where
  inv : Inv s
  sessions : TwoPhase.Sessions s.abs h
  logged : ∃ log, TwoPhase.Logged σ s.abs h log

theorem Recorded.step (hr : Recorded σ s h)
    (hstep : Transition.recorded (State.step p) (noteHistory p) (s, h) a = some (s', h')) :
    Recorded σ s' h' := by
  obtain ⟨hturn, rfl⟩ := Transition.recorded_eq_some.mp hstep
  obtain ⟨effect, c', hst⟩ := hr.inv.stepped hturn
  obtain ⟨log, hlog⟩ := hr.logged
  have hprotocol := hst.refines hr.inv
  rw [hst.history]
  exact ⟨hst.inv hr.inv, hr.sessions.step hr.inv.protocol hprotocol hst.tells,
    hlog.step hr.sessions hr.inv.protocol hprotocol hst.tells⟩

/-- Before the first turn the log is empty. -/
theorem Boot.recorded (hboot : Boot s) : Recorded s.committed s {} where
  inv := hboot.inv
  sessions :=
    { request := fun i => Nat.le_refl _
      start := fun i n => nofun
      outside := fun i _ => rfl
      guarded := fun i t _ => rfl
      inside := fun i locked hview => by
        rw [hboot.view] at hview
        cases hview }
  logged := by
    have hlogical : ∀ t, s.abs.logical t = s.abs.committed t := fun t =>
      TwoPhase.logical_committed fun i hi => by
        rw [hboot.view] at hi
        cases hi
    refine ⟨[], trivial, funext fun loc => (congrFun (hlogical loc.1) loc.2).symm,
      List.Pairwise.nil, nofun, nofun, fun i hi => ?_, List.Pairwise.nil, .nil⟩
    rw [hboot.view] at hi
    cases hi

end

/--
**Strict serializability.**  Executed one at a time in the order found, the transactions
and operations that were answered give every GET what it brought its client and end with
the committed maps; and the order puts nothing before something that had been answered when it began.
-/
theorem strictly_serializable {p : Platform} {s₀ s : State} {h : History} {turns : List Turn}
    (hboot : Boot s₀)
    (hrun : Transition.run (Transition.recorded (State.step p) (noteHistory p)) (s₀, {}) turns
      = some (s, h))
    (hsettled : ∀ i, (s.conns i).pc.decided = false) :
    ∃ order : List Item, order.Perm h.answered ∧
      Replay.Agrees s₀.committed (order.flatMap TwoPhase.Item.ops) ∧
      Replay.final s₀.committed (order.flatMap TwoPhase.Item.ops) = s.committed ∧
      order.Pairwise (fun x y => ¬ y.reply < x.start) ∧ ∀ x ∈ order, x.request ≤ x.start := by
  have hr : Recorded s₀.committed s h :=
    Transition.run_invariant (I := fun x : State × History => Recorded s₀.committed x.1 x.2)
      (fun {x a x'} => Recorded.step) hboot.recorded hrun
  obtain ⟨log, hlog⟩ := hr.logged
  obtain ⟨order, hperm, hagrees, hfinal, hordered, hstart⟩ := hlog.serial fun i =>
    (view_decided (s.conns i)).trans (hsettled i)
  exact ⟨order, hperm, hagrees, funext fun loc => hfinal loc.1 loc.2, hordered, hstart⟩

/--
Connection 1 asks for a key of the new table 0, in vain, and then writes it in a transaction;
while its COMMIT is going on, after the table has been unlocked, connection 0 reads the key.
-/
def overtaken : List Turn :=
  [⟨1, .recv (bytes "LOGIN b\n")⟩, ⟨1, .recv (bytes "CREATE t\n")⟩, ⟨1, .go⟩, ⟨1, .go⟩, ⟨1, .go⟩,
    ⟨1, .recv (bytes "GET t k\n")⟩, ⟨1, .go⟩, ⟨1, .go⟩, ⟨1, .go⟩, ⟨1, .go⟩, ⟨1, .go⟩, ⟨1, .go⟩,
    ⟨1, .recv (bytes "BEGIN\n")⟩, ⟨1, .recv (bytes "PUSH 7\n")⟩, ⟨1, .recv (bytes "SET t k\n")⟩,
    ⟨1, .go⟩, ⟨1, .go⟩, ⟨1, .go⟩, ⟨1, .go⟩, ⟨1, .go⟩, ⟨1, .recv (bytes "COMMIT\n")⟩, ⟨1, .visit 0⟩,
    ⟨1, .go⟩, ⟨0, .recv (bytes "LOGIN a\n")⟩, ⟨0, .recv (bytes "GET t k\n")⟩, ⟨0, .go⟩, ⟨0, .go⟩,
    ⟨0, .go⟩, ⟨0, .go⟩, ⟨0, .go⟩, ⟨0, .go⟩, ⟨1, .go⟩]

theorem strictly_serializable_overtaken :
    ∃ s h, Transition.run (Transition.recorded (State.step ⟨fun _ _ _ => none⟩)
        (noteHistory ⟨fun _ _ _ => none⟩)) (State.initial, {}) overtaken = some (s, h) ∧
      h.answered.map TwoPhase.Item.ops
        = [[.read (0, bytes "k") none], [.read (0, bytes "k") (some (bytes "7"))],
          [.write (0, bytes "k") (bytes "7")]] ∧
      ∃ order : List Item, order.Perm h.answered ∧
        Replay.Agrees State.initial.committed (order.flatMap TwoPhase.Item.ops) := by
  have hdone : (Transition.run (Transition.recorded (State.step ⟨fun _ _ _ => none⟩)
      (noteHistory ⟨fun _ _ _ => none⟩)) (State.initial, {}) overtaken).map
        (fun x => decide (x.2.answered.map TwoPhase.Item.ops
            = [[.read (0, bytes "k") none], [.read (0, bytes "k") (some (bytes "7"))],
              [.write (0, bytes "k") (bytes "7")]] ∧
          (x.1.conns 0).pc.decided = false ∧ (x.1.conns 1).pc.decided = false)) = some true := by
    decide +kernel
  obtain ⟨⟨s, h⟩, hrun, hx⟩ := Option.map_eq_some_iff.mp hdone
  obtain ⟨hanswered, hzero, hone⟩ := of_decide_eq_true hx
  have hsettled : ∀ i, (s.conns i).pc.decided = false := by
    intro i
    by_cases hi : i = 0 ∨ i = 1
    · rcases hi with rfl | rfl
      · exact hzero
      · exact hone
    · have hne : ∀ a ∈ overtaken, a.conn = 0 ∨ a.conn = 1 := by decide
      have hidle : s.conns i = State.initial.conns i :=
        run_untouched (Transition.run_recorded hrun) fun a ha heq => hi (by
          rw [heq]
          exact hne a ha)
      rw [hidle]
      rfl
  obtain ⟨order, hperm, hagrees, -⟩ := strictly_serializable boot_initial hrun hsettled
  exact ⟨s, h, hrun, hanswered, order, hperm, hagrees⟩

end KvServer
