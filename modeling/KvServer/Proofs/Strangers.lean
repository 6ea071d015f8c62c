/-
A client that never logs in is invisible.

All it can get from the server is an answer, so leaving its turns out of a run changes
nothing for anybody else.  It has nothing on its stack, no transaction and no tables.
-/
import KvServer.Proofs.Locking

namespace KvServer

/-! ### Logging in

Without a login the switch is never reached, except by LOGIN and BYE.
-/

/-- A LOGIN that is answered OK. -/
def State.logsIn (s : State) (a : Turn) (s' : State) : Bool :=
  match a.choice with
  | .recv line =>
      match decode (cstr line) with
      | .ok m =>
          m.messageType = .login && (s'.conns a.conn).sent = (s.conns a.conn).sent ++ [okLine]
      | .error _ => false
  | _ => false

/-- The connections that have a LOGIN answered OK in a run. -/
def logins (p : Platform) : State → List Turn → Finset ConnId
  | _, [] => ∅
  | s, a :: rest =>
      match s.step p a with
      | some s' => if s.logsIn a s' then insert a.conn (logins p s' rest) else logins p s' rest
      | none => ∅

/-- What a connection is that has not logged in. -/
structure Conn.Stranger (c : Conn) : Prop where
  loggedIn : c.loggedIn = false
  stack : c.stack.vector = []
  inTransaction : c.inTransaction = false
  lockedTables : c.lockedTables = ∅
  point : c.pc = .reading ∨ c.pc = .closed

section Step

variable {p : Platform} {sv : Server} {c c' : Conn} {ch : Choice} {effect : Effect}

theorem Conn.Stranger.leave (h : c.Stranger) : c.leave = .closed :=
  if_neg (by simp [h.inTransaction])

/-- A stranger is told so, or leaves. -/
theorem Conn.Stranger.answered (h : c.Stranger) (received sent : List Str) {pc : Pc}
    (hpc : pc = .reading ∨ pc = .closed) :
    Conn.Stranger { c with received := received, sent := sent, pc := pc } :=
  ⟨h.loggedIn, h.stack, h.inTransaction, h.lockedTables, hpc⟩

/-- **A line of a stranger** is a LOGIN, or leaves it one. -/
theorem Conn.Stranger.line (h : c.Stranger) (p : Platform) (line : Str) :
    (∀ m, decode (cstr line) = .ok m → m.messageType ≠ .login) ∧ (c.chatWithClient p line).Stranger ∨
      ∃ m, decode (cstr line) = .ok m ∧ m.messageType = .login ∧
        c.chatWithClient p line = { c with
          received := c.received ++ [line], loggedIn := true, sent := c.sent ++ [okLine],
          pc := .reading } := by
  cases hm : decode (cstr line) with
  | error e =>
      obtain ⟨what, resp, -, -, heq⟩ := chatWithClient_error p (c := c) hm
      rw [heq, h.leave]
      exact .inl ⟨nofun, h.answered _ _ (.inr rfl)⟩
  | ok m =>
      by_cases hlogin : m.messageType = .login
      · refine .inr ⟨m, rfl, hlogin, ?_⟩
        rw [chatWithClient_ok p hm]
        simp [Conn.attempt, handleRequest, hlogin, handleLogin_exec, h.loggedIn]
      · refine .inl ⟨fun m' hm' => by rwa [← Except.ok.inj hm'], ?_⟩
        by_cases hbye : m.messageType = .bye
        · rw [chatWithClient_bye p hm hbye, h.leave]
          exact h.answered _ _ (.inr rfl)
        · have hwhat : Text (bytes "User has not logged in") := by decide
          obtain ⟨resp, -, heq⟩ :=
            catchClause_operation (c := { c with received := c.received ++ [line] }) hwhat
          have hattempt : Conn.attempt { c with received := c.received ++ [line] }
              (handleRequest p m) = Conn.catchClause { c with received := c.received ++ [line] }
                (.operation (bytes "User has not logged in")) := by
            simp [Conn.attempt, handleRequest, hlogin, hbye, h.loggedIn]
          rw [chatWithClient_ok p hm, hattempt, heq]
          exact h.answered _ _ (.inl rfl)

/-- **A step of a stranger** leaves the server alone, and it goes on being one unless it
has a LOGIN answered OK. -/
theorem Conn.Stranger.step (h : c.Stranger) (hstep : c.step p sv ch = some (effect, c')) :
    effect = .none ∧ c'.pc ≠ .terminated ∧ (c'.Stranger ∨ c'.loggedIn = true ∧
      ∃ line m, ch = .recv line ∧ decode (cstr line) = .ok m ∧ m.messageType = .login ∧
        c'.sent = c.sent ++ [okLine]) := by
  cases ch with
  | recv line =>
      simp only [Conn.step] at hstep
      split at hstep
      · obtain ⟨rfl, rfl⟩ := Prod.mk.inj (Option.some.inj hstep)
        rcases h.line p line with ⟨-, hstranger⟩ | ⟨m, hm, htype, heq⟩
        · refine ⟨rfl, ?_, .inl hstranger⟩
          rcases hstranger.point with hpc | hpc <;> simp [hpc]
        · rw [heq]
          exact ⟨rfl, by simp, .inr ⟨rfl, line, m, rfl, hm, htype, rfl⟩⟩
      · cases hstep
  | eof =>
      simp only [Conn.step] at hstep
      split at hstep
      · obtain ⟨rfl, rfl⟩ := Prod.mk.inj (Option.some.inj hstep)
        rw [h.leave]
        exact ⟨rfl, by simp, .inl (h.answered c.received c.sent (.inr rfl))⟩
      · cases hstep
  | go => rcases h.point with hpc | hpc <;> simp [Conn.step, Conn.go, hpc] at hstep
  | visit t => rcases h.point with hpc | hpc <;> simp [Conn.step, hpc] at hstep

theorem Served.loggedIn {line : Str} (h : Served p line c c') (hc : c.loggedIn = true) :
    c'.loggedIn = true := by
  cases h with
  | reply hresp htx hlogin hstack => exact hlogin hc
  | _ => exact hc

/-- Nobody logs out. -/
theorem Moves.loggedIn (h : Moves p sv c ch effect c') (hc : c.loggedIn = true) :
    c'.loggedIn = true := by
  cases h with
  | request hpc hpos hlen h => exact h.loggedIn hc
  | _ => exact hc

end Step

/-! ### Runs -/

section System

variable {p : Platform} {s s₀ s' : State} {a : Turn} {turns : List Turn}

/-- Who is not logged in is a stranger. -/
def Strangers (s : State) : Prop :=
  ∀ i, (s.conns i).loggedIn = false → (s.conns i).Stranger

theorem Boot.stranger (h : Boot s₀) (i : ConnId) : (s₀.conns i).Stranger := by
  rw [h.conns]
  exact ⟨rfl, rfl, rfl, rfl, .inl rfl⟩

theorem Boot.strangers (h : Boot s₀) : Strangers s₀ :=
  fun i _ => h.stranger i

theorem Strangers.step (h : Strangers s) (hinv : Inv s) (hstep : s.step p a = some s') :
    Strangers s' := by
  obtain ⟨effect, c', hst⟩ := hinv.stepped hstep
  intro i hi
  by_cases hia : i = a.conn
  · subst hia
    rw [hst.self] at hi ⊢
    cases hin : (s.conns a.conn).loggedIn with
    | true => cases hi.symm.trans (hst.moves.loggedIn hin)
    | false =>
        rcases ((h _ hin).step hst.runs).2.2 with hstranger | ⟨hin', -⟩
        · exact hstranger
        · cases hi.symm.trans hin'
  · rw [hst.other hia] at hi ⊢
    exact h i hi

theorem Boot.strangers_run (hboot : Boot s₀)
    (hrun : Transition.run (State.step p) s₀ turns = some s) : Strangers s :=
  (Transition.run_invariant (I := fun s => Inv s ∧ Strangers s)
    (fun h hstep => ⟨h.1.step hstep, h.2.step h.1 hstep⟩) ⟨hboot.inv, hboot.strangers⟩ hrun).2

/-- Only who is logged in has a transaction. -/
theorem Strangers.loggedIn (h : Strangers s) {i : ConnId} (htx : (s.conns i).inTransaction = true) :
    (s.conns i).loggedIn = true := by
  by_contra hout
  cases htx.symm.trans (h i (Bool.not_eq_true _ ▸ hout)).inTransaction

/-- Only who is logged in has pushed anything. -/
theorem Boot.loggedIn_of_stack (hboot : Boot s₀)
    (hrun : Transition.run (State.step p) s₀ turns = some s) {i : ConnId} {v : Str}
    {rest : List Str} (hstack : (s.conns i).stack.vector = v :: rest) : (s.conns i).loggedIn = true := by
  by_contra hout
  have hstranger := hboot.strangers_run hrun i (Bool.not_eq_true _ ▸ hout)
  cases hstack.symm.trans hstranger.stack

/-- Who has no LOGIN answered OK in a run has none answered on the way. -/
theorem along_logins {kept : Finset ConnId} (hkept : logins p s turns ⊆ kept) :
    Transition.Along (State.step p) (fun s a => a.conn ∉ kept → ∀ s', s.step p a = some s' →
      s.logsIn a s' = false) s turns := by
  induction turns generalizing s with
  | nil => trivial
  | cons a rest ih =>
      refine ⟨fun ha s' hstep => ?_, fun s' hstep => ih (fun i hi => hkept ?_)⟩
      · cases hlogin : s.logsIn a s' with
        | false => rfl
        | true =>
            refine absurd (hkept ?_) ha
            simp [logins, hstep, hlogin]
      · unfold logins
        rw [hstep]
        by_cases hlogin : s.logsIn a s' = true
        · simp [hlogin, hi]
        · simp [hlogin, hi]

/-- A state, and what it would be without the turns of some strangers. -/
structure Without (kept : Finset ConnId) (s t : State) : Prop where
  server : t.server = s.server
  terminated : t.terminated = s.terminated
  conns : ∀ i ∈ kept, t.conns i = s.conns i
  strangers : ∀ i ∉ kept, (s.conns i).Stranger

/-- A turn of one who is kept can be taken without the others, too. -/
theorem Without.keep {kept : Finset ConnId} {t : State} (h : Without kept s t)
    (ha : a.conn ∈ kept) (hstep : s.step p a = some s') :
    ∃ t', t.step p a = some t' ∧ Without kept s' t' := by
  obtain ⟨⟨effect, c'⟩, hturn, rfl⟩ := Option.map_eq_some_iff.mp hstep
  have hturn' : t.turn p a = some (effect, c') := by
    rw [State.turn, h.terminated, h.server, h.conns _ ha]
    exact hturn
  refine ⟨_, Option.map_eq_some_iff.mpr ⟨_, hturn', rfl⟩, ?_, rfl, fun i hi => ?_, fun i hi => ?_⟩
  · rw [h.server]
  · by_cases hia : i = a.conn
    · subst hia
      simp
    · simpa [hia] using h.conns i hi
  · have hia : i ≠ a.conn := fun heq => hi (heq ▸ ha)
    simpa [hia] using h.strangers i hi

/-- A turn of a stranger makes no difference. -/
theorem Without.drop {kept : Finset ConnId} {t : State} (h : Without kept s t)
    (ha : a.conn ∉ kept) (hlogin : s.logsIn a s' = false) (hstep : s.step p a = some s') :
    Without kept s' t := by
  obtain ⟨⟨effect, c'⟩, hturn, rfl⟩ := Option.map_eq_some_iff.mp hstep
  unfold State.turn at hturn
  split at hturn
  · cases hturn
  · rename_i hrunning
    obtain ⟨rfl, hpc, hstranger⟩ := (h.strangers _ ha).step hturn
    refine ⟨h.server, ?_, fun i hi => ?_, fun i hi => ?_⟩
    · rw [h.terminated]
      simpa [hpc] using hrunning
    · have hia : i ≠ a.conn := fun heq => ha (heq ▸ hi)
      simpa [hia] using h.conns i hi
    · by_cases hia : i = a.conn
      · subst hia
        rcases hstranger with hstranger | ⟨-, line, m, hch, hm, htype, hsent⟩
        · simpa using hstranger
        · simp [State.logsIn, hch, hm, htype, hsent] at hlogin
      · simpa [hia] using h.strangers i hi

/--
**A client that never logs in is invisible.**  Without the turns of the connections that
have no LOGIN answered OK, a run comes to the same server and to the same other connections;
and these connections have nothing at any time.
-/
theorem strangers_invisible (hboot : Boot s₀)
    (hrun : Transition.run (State.step p) s₀ turns = some s) :
    (∃ s', Transition.run (State.step p) s₀
        (turns.filter fun a => a.conn ∈ logins p s₀ turns) = some s' ∧
      s'.server = s.server ∧ s'.terminated = s.terminated ∧
      ∀ i ∈ logins p s₀ turns, s'.conns i = s.conns i) ∧
    ∀ before after m, turns = before ++ after →
      Transition.run (State.step p) s₀ before = some m → ∀ i ∉ logins p s₀ turns,
        (m.conns i).stack.vector = [] ∧ (m.conns i).inTransaction = false ∧
          (m.conns i).lockedTables = ∅ := by
  set kept := logins p s₀ turns
  have hlogins : Transition.Along (State.step p) (fun s a => a.conn ∉ kept →
      ∀ s', s.step p a = some s' → s.logsIn a s' = false) s₀ turns := along_logins subset_rfl
  have hstart : Without kept s₀ s₀ := ⟨rfl, rfl, fun _ _ => rfl, fun i _ => hboot.stranger i⟩
  have hfilter : ∀ {as : List Turn} {m : State},
      Transition.Along (State.step p) (fun s a => a.conn ∉ kept → ∀ s', s.step p a = some s' →
        s.logsIn a s' = false) s₀ as →
      Transition.run (State.step p) s₀ as = some m →
      ∃ t, Transition.run (State.step p) s₀ (as.filter fun a => a.conn ∈ kept) = some t ∧
        Without kept m t := fun halong hm =>
    Transition.run_filter
      (fun hw ha hstep => hw.keep (of_decide_eq_true ha) hstep)
      (fun hw hQ ha hstep =>
        hw.drop (of_decide_eq_false ha) (hQ (of_decide_eq_false ha) _ hstep) hstep)
      hstart halong hm
  constructor
  · obtain ⟨t, ht, hw⟩ := hfilter hlogins hrun
    exact ⟨t, ht, hw.server, hw.terminated, hw.conns⟩
  · intro before after m hsplit hm i hi
    have halong := hlogins
    rw [hsplit] at halong
    obtain ⟨t, -, hw⟩ := hfilter halong.left hm
    have hstranger := hw.strangers i hi
    exact ⟨hstranger.stack, hstranger.inTransaction, hstranger.lockedTables⟩

end System

/-- Connection 1 is told to log in, sends what is no request and is shown out, between two
requests of connection 0. -/
def uninvited : List Turn :=
  [⟨1, .recv (bytes "PUSH 7\n")⟩, ⟨0, .recv (bytes "LOGIN a\n")⟩, ⟨1, .recv (bytes "OK\n")⟩,
    ⟨0, .recv (bytes "PUSH 1\n")⟩]

theorem strangers_invisible_uninvited :
    ∃ s s', Transition.run (State.step trapping) State.initial uninvited = some s ∧
      Transition.run (State.step trapping) State.initial
        [⟨0, .recv (bytes "LOGIN a\n")⟩, ⟨0, .recv (bytes "PUSH 1\n")⟩] = some s' ∧
      s'.conns 0 = s.conns 0 ∧ (s.conns 1).stack.vector = [] := by
  obtain ⟨s, hrun⟩ := Option.isSome_iff_exists.mp
    (show (Transition.run (State.step trapping) State.initial uninvited).isSome by decide +kernel)
  have hlogins : logins trapping State.initial uninvited = {0} := by decide +kernel
  have hkept : (uninvited.filter fun a => a.conn ∈ logins trapping State.initial uninvited)
      = [⟨0, .recv (bytes "LOGIN a\n")⟩, ⟨0, .recv (bytes "PUSH 1\n")⟩] := by
    rw [hlogins]
    decide +kernel
  obtain ⟨⟨s', hrun', -, -, hconns⟩, hnothing⟩ := strangers_invisible boot_initial hrun
  rw [hkept] at hrun'
  rw [hlogins] at hconns hnothing
  refine ⟨s, s', hrun, hrun', hconns 0 (by decide), ?_⟩
  exact (hnothing uninvited [] s (List.append_nil _).symm hrun 1 (by decide)).1

end KvServer
