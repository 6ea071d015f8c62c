/-
Every request gets one readable answer, as long as two things do not happen.

The two are in `State.spared`: a `trylock` that fails on a table with a name so long that the
FAILED line about it does not fit, and arithmetic that traps.  Along every run without
them, whatever is on a stack or in a table can be stored (`Storable`), so every answer
fits its line; the answers keep count with the requests; and a connection that owes an
answer is always a bounded number of its own steps away from it.
-/
import KvServer.Proofs.Endings
import KvServer.Proofs.Values
import KvServer.Proofs.Work

namespace KvServer

/-! ### What is said

Whether an answer fits is settled when its text is chosen, for an abort long before it is
sent; so the text is followed through the loop.
-/

def Ending.Clean : Ending → Prop
  | .abort what => Sendable what
  | _ => True

def Pc.Clean : Pc → Prop
  | .findLock a | .findBody a | .findUnlock a _ => a.Clean
  | .trylock a _ | .call a _ => a.Clean
  | .guardLock a _ | .guardCall a _ => a.Clean
  | .ending e _ | .endingUnlock e _ _ => e.Clean
  | _ => True

/-- What a connection has is storable, and what it has sent can be read. -/
structure Conn.Clean (c : Conn) : Prop where
  stack : ∀ v ∈ c.stack.vector, Storable v
  point : c.pc.Clean
  sent : ∀ line ∈ c.sent, Readable line

section Step

variable {p : Platform} {sv : Server} {c c' : Conn} {ch : Choice} {effect : Effect}

theorem Pc.clean_iff {pc : Pc} :
    pc.Clean ↔ (∀ a, pc.access = some a → a.Clean) ∧ ∀ e, pc.loop = some e → e.Clean := by
  cases pc <;> simp [Pc.Clean, Pc.access, Pc.loop]

theorem Conn.Clean.stocked (h : c.Clean) : c.Stocked :=
  ⟨h.stack, (Pc.clean_iff.mp h.point).1⟩

/-- A loop for the destructor has nothing to say. -/
theorem leave_loop (c : Conn) (e : Ending) (he : c.leave.loop = some e) : e.Clean := by
  unfold Conn.leave at he
  split at he
  · cases he
    trivial
  · cases he

theorem Conn.Clean.answered (h : c.Clean) {resp : Str} (hresp : Readable resp) :
    ∀ line ∈ c.sent ++ [resp], Readable line := by
  intro line hline
  rcases List.mem_append.mp hline with hline | hline
  · exact h.sent line hline
  · rwa [List.mem_singleton.mp hline]

theorem Answers.readable {result : Except Exn Unit} {line : Str} (h : Answers result line) :
    Readable line := by
  cases h with
  | ok => exact readable_ok
  | failed hwhat hline => exact hwhat.sendable.readable rfl hline

theorem Served.says {line : Str} (h : Served p line c c') (e : Ending)
    (he : c'.pc.loop = some e) : e.Clean := by
  cases h with
  | commit hm htype htx =>
      cases he
      trivial
  | nested hm htype htx =>
      have hwhat : Text (bytes "Nested transaction not allowed") := by decide
      cases he
      exact hwhat.sendable
  | leave hresp hleft => exact leave_loop c e he
  | _ => cases he

theorem Served.sends {line : Str} (h : Served p line c c') (hc : c.Clean) :
    ∀ line ∈ c'.sent, Readable line := by
  cases h with
  | reply hresp htx hlogin hstack => exact hc.answered (hresp.readable hc.stack)
  | leave hresp hleft => exact hc.answered (hresp.readable hc.stack)
  | _ => exact hc.sent

/-- The text about a `trylock` that fails fits a FAILED line. -/
def Access.fits (a : Access) : Bool := a.table.length ≤ 983

theorem sendable_conflict {a : Access} (ha : a.Clean) (hfits : a.fits = true) :
    Sendable (bytes "Could not acquire lock on table " ++ a.table) := by
  have hprintable := ha.printable
  have hlen : (bytes "Could not acquire lock on table ").length = 32 := by decide
  have hname : a.table.length ≤ 983 := of_decide_eq_true hfits
  refine ⟨⟨fun hc => ?_, fun hc => ?_⟩, ?_⟩
  · rcases List.mem_append.mp hc with hc | hc
    · exact absurd hc (by decide)
    · exact hprintable.noNul hc
  · rcases List.mem_append.mp hc with hc | hc
    · exact absurd hc (by decide)
    · exact hprintable.noNewline hc
  · rw [List.length_append, hlen]
    unfold maxEncodedLen
    omega

/-- A loop is entered with a text that fits. -/
theorem Moves.says (h : Moves p sv c ch effect c') (hc : c.Clean)
    (hfits : ∀ a t, c.pc = .trylock a t → (sv.tables t).tableMutex ≠ none → a.fits = true)
    (e : Ending) (he : c'.pc.loop = some e) : e.Clean := by
  have hpoint := hc.point
  cases h with
  | request hpc hpos hlen h => exact h.says e he
  | eof hpc => exact leave_loop c e he
  | conflict hpc hheld =>
      rw [hpc] at hpoint
      cases he
      exact sendable_conflict hpoint (hfits _ _ hpc hheld)
  | visit hpc ht =>
      rw [hpc] at hpoint
      cases he
      exact hpoint
  | release hpc =>
      rw [hpc] at hpoint
      cases he
      exact hpoint
  | _ => cases he

theorem Moves.sends (h : Moves p sv c ch effect c') (hc : c.Clean) :
    ∀ line ∈ c'.sent, Readable line := by
  cases h with
  | request hpc hpos hlen h => exact h.sends ⟨hc.stack, hc.point, hc.sent⟩
  | createUnlock hpc hresp => exact hc.answered hresp.readable
  | notFound hpc hresp => exact hc.answered hresp.readable
  | callGet hpc hget => exact hc.answered readable_ok
  | callGetFail hpc hget hresp => exact hc.answered hresp.readable
  | callSet hpc => exact hc.answered readable_ok
  | guardUnlock hpc hresp => exact hc.answered hresp.readable
  | finishCommit hpc => exact hc.answered readable_ok
  | finishAbort hpc hline =>
      have hpoint := hc.point
      rw [hpc] at hpoint
      exact hc.answered (Sendable.readable hpoint rfl hline)
  | _ => exact hc.sent

/-- **A step stores and sends only what can be stored and read.** -/
theorem Moves.clean (h : Moves p sv c ch effect c') (hc : c.Clean) (hsv : ∀ t, (sv.tables t).Clean)
    (hfits : ∀ a t, c.pc = .trylock a t → (sv.tables t).tableMutex ≠ none → a.fits = true) :
    c'.Clean where
  stack := (h.stocked hc.stocked hsv).stack
  point := Pc.clean_iff.mpr ⟨(h.stocked hc.stocked hsv).access, h.says hc hfits⟩
  sent := h.sends hc

/-! ### The process goes on

Nothing else gets out of the `catch` clauses: an `encode` that throws there is one of a text
that does not fit.
-/

theorem leave_running (c : Conn) : c.leave ≠ .terminated := by
  unfold Conn.leave
  split
  · exact nofun
  · exact nofun

/-- **The process only ends in arithmetic that traps.** -/
theorem Moves.running (h : Moves p sv c ch effect c') (hc : c.Clean)
    (harith : ∀ line m op, ch = .recv line → decode (cstr line) = .ok m →
      m.messageType = op.messageType → c.traps p op = false) : c'.pc ≠ .terminated := by
  have hpoint := hc.point
  cases h with
  | request hpc hpos hlen h =>
      cases h with
      | leave hresp hleft => exact leave_running _
      | trap hm htype htrap => cases (harith _ _ _ rfl hm htype).symm.trans htrap
      | _ => exact nofun
  | eof hpc => exact leave_running c
  | finishCrash hpc hline =>
      rw [hpc] at hpoint
      obtain ⟨line, hencode⟩ := Sendable.encodes hpoint
      cases hencode.symm.trans hline
  | _ => exact nofun

/-! ### Counting the answers

A connection owes an answer at every point inside a request, except on the way out.
-/

/-- Whether the answer to the last request is still to come. -/
def Pc.owes : Pc → Nat
  | .reading | .closed => 0
  | .ending .destroy _ | .endingUnlock .destroy _ _ => 0
  | _ => 1

@[simp] theorem leave_owes (c : Conn) : c.leave.owes = 0 := by
  unfold Conn.leave
  split
  · rfl
  · rfl

theorem Served.answered {line : Str} (h : Served p line c c') :
    c'.sent.length + c'.pc.owes = c.sent.length + 1 := by
  cases h with
  | reply hresp htx hlogin hstack => simp [Pc.owes]
  | leave hresp hleft => simp
  | _ => rfl

/-- **A step keeps the count.** -/
theorem Moves.answered (h : Moves p sv c ch effect c')
    (hc : c.sent.length + c.pc.owes = c.received.length) :
    c'.sent.length + c'.pc.owes = c'.received.length := by
  cases h with
  | request hpc hpos hlen h =>
      rw [hpc] at hc
      rw [h.answered, h.received, List.length_append, ← hc]
      rfl
  | eof hpc =>
      rw [hpc] at hc
      show c.sent.length + c.leave.owes = c.received.length
      rw [leave_owes]
      exact hc
  | visit hpc ht =>
      rw [hpc] at hc
      cases ‹Ending› <;> exact hc
  | release hpc =>
      rw [hpc] at hc
      cases ‹Ending› <;> exact hc
  | _ =>
      rw [‹c.pc = _›] at hc
      first
        | exact hc
        | exact (List.length_append ..).trans hc

end Step

/-! ### Runs

Only two kinds of turn have to be excluded. Their conditions are on the state before the turn,
so the runs without them are again runs of a system.
-/

/--
In this turn no `trylock` fails on a table whose name is longer than 983 bytes, and no
arithmetic is requested on operands on which the machine traps.
-/
def State.spared (p : Platform) (s : State) (a : Turn) : Bool :=
  match (s.conns a.conn).pc, a.choice with
  | .trylock acc t, _ => (s.server.tables t).tableMutex.isNone || acc.fits
  | .reading, .recv line =>
      match decode (cstr line) with
      | .ok m => [ArithOp.add, .sub, .mul, .div].all fun op =>
          decide (m.messageType = op.messageType → (s.conns a.conn).traps p op = false)
      | .error _ => true
  | _, _ => true

/-- What is required, in one state, of the answers. -/
structure Responsive (p : Platform) (s : State) : Prop where
  /-- No exception has left `chat_with_client`. -/
  running : s.terminated = false
  /-- Every line read has been answered once, but for the last one while it is handled. -/
  answered : ∀ i, (s.conns i).sent.length + (s.conns i).pc.owes = (s.conns i).received.length
  /-- Every answer can be read. -/
  readable : ∀ i, ∀ line ∈ (s.conns i).sent, Readable line
  /-- A connection that is handling a line has a next step, if it is not waiting for a mutex, -/
  goesOn : ∀ i, (s.conns i).pc = .reading ∨ (s.conns i).pc = .closed ∨ s.Blocked i ∨
    ∃ choice, (s.turn p ⟨i, choice⟩).isSome
  /-- and each of its steps brings it nearer to its answer. -/
  nearer : ∀ a effect c', s.turn p a = some (effect, c') → (s.conns a.conn).pc ≠ .reading →
    c'.remaining < (s.conns a.conn).remaining

section System

variable {p : Platform} {s s' : State} {a : Turn}

theorem spared_conflict (h : s.spared p a = true) {acc : Access} {t : TablePtr}
    (hpc : (s.conns a.conn).pc = .trylock acc t) (hheld : (s.server.tables t).tableMutex ≠ none) :
    acc.fits = true := by
  unfold State.spared at h
  rw [hpc] at h
  simpa [hheld] using h

theorem spared_arith (h : s.spared p a = true) (hpc : (s.conns a.conn).pc = .reading) {line : Str}
    {m : Message} {op : ArithOp} (hline : a.choice = .recv line)
    (hm : decode (cstr line) = .ok m) (htype : m.messageType = op.messageType) :
    (s.conns a.conn).traps p op = false := by
  unfold State.spared at h
  simp only [hpc, hline, hm, List.all_eq_true, decide_eq_true_eq] at h
  exact h op (by cases op <;> simp) htype

/-- Every line read is answered once, but for the last one while it is handled. -/
theorem Boot.answered_run {s₀ : State} {turns : List Turn} (hboot : Boot s₀)
    (hrun : Transition.run (State.step p) s₀ turns = some s) (i : ConnId) :
    (s.conns i).sent.length + (s.conns i).pc.owes = (s.conns i).received.length := by
  refine (Transition.run_invariant (I := fun m => Inv m ∧
    (m.conns i).sent.length + (m.conns i).pc.owes = (m.conns i).received.length) ?_
    ⟨hboot.inv, by rw [hboot.conns]; rfl⟩ hrun).2
  rintro m a m' ⟨hm, hanswered⟩ hstep
  obtain ⟨effect, c', hst⟩ := hm.stepped hstep
  refine ⟨hst.inv hm, ?_⟩
  by_cases hi : i = a.conn
  · subst hi
    rw [hst.self]
    exact hst.moves.answered hanswered
  · rw [hst.other hi]
    exact hanswered

/-- Nothing but a mutex keeps a connection from going on. -/
theorem goes_on (hrunning : s.terminated = false) {i : ConnId}
    (hlive : (s.conns i).pc ≠ .terminated) (p : Platform) :
    (s.conns i).pc = .reading ∨ (s.conns i).pc = .closed ∨ s.Blocked i ∨
      ∃ choice, (s.turn p ⟨i, choice⟩).isSome := by
  have hgo : ∀ choice, s.turn p ⟨i, choice⟩ = (s.conns i).step p s.server choice := fun choice => by
    simp [State.turn, hrunning]
  have hwants : ∀ k, (s.conns i).wants = some k → s.server.owner k ≠ none → s.Blocked i :=
    fun k hk hheld => ⟨k, hk, hheld⟩
  cases hpc : (s.conns i).pc with
  | reading => exact .inl rfl
  | closed => exact .inr (.inl rfl)
  | terminated => exact absurd hpc hlive
  | createLock name =>
      refine .inr (.inr ?_)
      by_cases hfree : s.server.tableLock = none
      · exact .inr ⟨.go, by simp [hgo, Conn.step, Conn.go, hpc, hfree]⟩
      · exact .inl (hwants .catalogue (by simp [Conn.wants, hpc]) hfree)
  | findLock a =>
      refine .inr (.inr ?_)
      by_cases hfree : s.server.tableLock = none
      · exact .inr ⟨.go, by simp [hgo, Conn.step, Conn.go, hpc, hfree]⟩
      · exact .inl (hwants .catalogue (by simp [Conn.wants, hpc]) hfree)
  | guardLock a t =>
      refine .inr (.inr ?_)
      by_cases hfree : (s.server.tables t).tableMutex = none
      · exact .inr ⟨.go, by simp [hgo, Conn.step, Conn.go, hpc, hfree]⟩
      · exact .inl (hwants (.table t) (by simp [Conn.wants, hpc]) hfree)
  | trylock a t =>
      refine .inr (.inr (.inr ⟨.go, ?_⟩))
      by_cases hfree : (s.server.tables t).tableMutex = none
      · simp [hgo, Conn.step, Conn.go, hpc, hfree]
      · simp [hgo, Conn.step, Conn.go, hpc, hfree]
  | createBody name =>
      refine .inr (.inr (.inr ⟨.go, ?_⟩))
      cases hfound : s.server.findTable name with
      | none => simp [hgo, Conn.step, Conn.go, hpc, hfound]
      | some t => simp [hgo, Conn.step, Conn.go, hpc, hfound]
  | guardCall a t =>
      refine .inr (.inr (.inr ⟨.go, ?_⟩))
      cases a with
      | get table key => simp [hgo, Conn.step, Conn.go, hpc]
      | set table key value => simp [hgo, Conn.step, Conn.go, hpc]
  | ending e rest => exact .inr (.inr (.inr (loop_goes_on hrunning (e := e) (by simp [Pc.loop, hpc]))))
  | endingUnlock e t rest =>
      exact .inr (.inr (.inr (loop_goes_on hrunning (e := e) (by simp [Pc.loop, hpc]))))
  | _ => exact .inr (.inr (.inr ⟨.go, by simp [hgo, Conn.step, Conn.go, hpc]⟩))

/-- What holds along a run that is spared. -/
structure Tended (s : State) : Prop where
  inv : Inv s
  conns : ∀ i, (s.conns i).Clean
  tables : ∀ t, (s.server.tables t).Clean
  answered : ∀ i, (s.conns i).sent.length + (s.conns i).pc.owes = (s.conns i).received.length
  running : s.terminated = false ∧ ∀ i, (s.conns i).pc ≠ .terminated

theorem tended_initial : Tended State.initial where
  inv := boot_initial.inv
  conns _ := ⟨nofun, trivial, nofun⟩
  tables _ := .empty []
  answered _ := rfl
  running := ⟨rfl, fun _ => nofun⟩

theorem Tended.step (h : Tended s) (hspared : s.spared p a = true)
    (hstep : s.step p a = some s') : Tended s' := by
  obtain ⟨effect, c', hst⟩ := h.inv.stepped hstep
  have hmoves := hst.moves
  have hrunning : c'.pc ≠ .terminated :=
    hmoves.running (h.conns a.conn) fun line m op hline hm htype => by
      refine spared_arith hspared ?_ hline hm htype
      have hrecv := hmoves
      rw [hline] at hrecv
      cases hrecv with
      | request hpc _ _ _ => exact hpc
  have hclean : c'.Clean :=
    hmoves.clean (h.conns a.conn) h.tables fun _ _ hpc hheld => spared_conflict hspared hpc hheld
  refine ⟨hst.inv h.inv, fun i => ?_, fun t => ?_, fun i => ?_, ?_, fun i => ?_⟩
  · by_cases hi : i = a.conn
    · rw [hi, hst.self]
      exact hclean
    · rw [hst.other hi]
      exact h.conns i
  · rw [hst.server]
    exact apply_clean h.tables (fun _ _ _ he => hmoves.stores (h.conns a.conn).stocked he) t
  · by_cases hi : i = a.conn
    · rw [hi, hst.self]
      exact hmoves.answered (h.answered a.conn)
    · rw [hst.other hi]
      exact h.answered i
  · rw [hst.terminated]
    exact decide_eq_false hrunning
  · by_cases hi : i = a.conn
    · rw [hi, hst.self]
      exact hrunning
    · rw [hst.other hi]
      exact h.running.2 i

theorem Tended.responsive (h : Tended s) (p : Platform) : Responsive p s where
  running := h.running.1
  answered := h.answered
  readable i := (h.conns i).sent
  goesOn i := goes_on h.running.1 (h.running.2 i) p
  nearer _ _ _ hturn hpc := (h.inv.moves hturn).remaining hpc

end System

/--
**Every request gets exactly one readable answer**, and the process goes on, in every
state of every run whose turns are spared.
-/
theorem every_request_answered {p : Platform} {s : State} {turns : List Turn}
    (hspared : Transition.Along (State.step p) (fun s a => s.spared p a = true) State.initial turns)
    (hrun : Transition.run (State.step p) State.initial turns = some s) : Responsive p s :=
  (Transition.along_invariant (fun h hspared hstep => Tended.step h hspared hstep) tended_initial
    hspared hrun).responsive p

/-- Connection 1 is refused the table that connection 0 has in a transaction. -/
def refused (table : Str) : List Turn :=
  [⟨0, .recv (bytes "LOGIN a\n")⟩, ⟨0, .recv (bytes "CREATE " ++ table ++ bytes "\n")⟩, ⟨0, .go⟩,
    ⟨0, .go⟩, ⟨0, .go⟩, ⟨0, .recv (bytes "BEGIN\n")⟩,
    ⟨0, .recv (bytes "GET " ++ table ++ bytes " k\n")⟩, ⟨0, .go⟩, ⟨0, .go⟩, ⟨0, .go⟩, ⟨0, .go⟩,
    ⟨0, .go⟩, ⟨1, .recv (bytes "LOGIN b\n")⟩, ⟨1, .recv (bytes "BEGIN\n")⟩,
    ⟨1, .recv (bytes "GET " ++ table ++ bytes " k\n")⟩, ⟨1, .go⟩, ⟨1, .go⟩, ⟨1, .go⟩, ⟨1, .go⟩,
    ⟨1, .go⟩]

theorem every_request_answered_refused :
    ∃ s, Transition.run (State.step trapping) State.initial (refused (bytes "t")) = some s ∧
      (s.conns 1).sent.length = 3 ∧ Responsive trapping s := by
  have hrefused : (Transition.run (State.step trapping) State.initial (refused (bytes "t"))).map
      (fun s => (s.conns 1).sent.length) = some 3 := by decide +kernel
  have hspared : Transition.Along (State.step trapping) (fun s a => s.spared trapping a = true)
      State.initial (refused (bytes "t")) := by decide +kernel
  obtain ⟨s, hrun, hsent⟩ := Option.map_eq_some_iff.mp hrefused
  exact ⟨s, hrun, hsent, every_request_answered hspared hrun⟩

/-- With a name of 985 letters the text about the refusal cannot be encoded, and nobody
catches that. -/
theorem refused_terminates :
    ¬ ∀ (p : Platform) (turns : List Turn) (s : State),
      Transition.run (State.step p) State.initial turns = some s → Responsive p s := by
  intro h
  have hcrash : (Transition.run (State.step trapping) State.initial (refused (longName 984))).map
      State.terminated = some true := by decide +kernel
  obtain ⟨s, hrun, hs⟩ := Option.map_eq_some_iff.mp hcrash
  cases hs.symm.trans (h trapping _ s hrun).running

end KvServer
