/-
Clients that keep to different tables.

A connection only gets at the tables that its own lines name, so if nobody else names them
nobody else has them locked, or changes what is in them: each connection is undisturbed in
its own tables, whatever the others do, and `Placed.run` says what it comes to.
-/
import KvServer.Proofs.Alone

namespace KvServer

/-! ### The tables that lines name -/

/-- The table a request is about. -/
def Message.tableOf (m : Message) : Option Str :=
  match m.messageType with
  | .create | .get | .set => some m.getTable
  | _ => none

/-- The tables in the CREATE, GET and SET lines among some lines. -/
def tablesIn (lines : List Str) : List Str :=
  lines.filterMap fun line => (decode (cstr line)).toOption.bind Message.tableOf

/-- All that is in some tables. -/
def Scope.ofTables (names : List Str) : Scope := { loc | loc.1 ∈ names }

theorem mem_ofTables {names : List Str} {name : Str} :
    name ∈ (Scope.ofTables names).Names ↔ name ∈ names :=
  ⟨fun ⟨_, h⟩ => h, fun h => ⟨[], h⟩⟩

theorem tablesIn_admits {lines : List Str} {line : Str} (hline : line ∈ lines) :
    (Scope.ofTables (tablesIn lines)).Admits line := by
  intro m hm
  have hname : m.tableOf = some m.getTable → m.getTable ∈ tablesIn lines := fun h =>
    List.mem_filterMap.mpr ⟨line, hline, by rw [hm]; exact h⟩
  refine ⟨fun htype => mem_ofTables.mpr (hname ?_), fun htype => hname ?_⟩
  · simp [Message.tableOf, htype]
  · rcases htype with htype | htype
    · simp [Message.tableOf, htype]
    · simp [Message.tableOf, htype]

/-! ### Connections that keep apart

What a connection locks or writes it has found under a name from its own lines, and two names
are two tables as long as no table has two names.
-/

/-- Each connection is in its own tables, and has locked no other. -/
structure Apart (own : ConnId → List Str) (s : State) : Prop where
  placed : ∀ i, Placed (.ofTables (own i)) i s
  locked : ∀ i t, (s.server.tables t).tableMutex = some i →
    ∃ name ∈ own i, s.server.findTable name = some t

section Apart

variable {p : Platform} {s₀ s s' : State} {a : Turn} {effect : Effect} {c' : Conn}
  {own : ConnId → List Str} {i : ConnId} {turns : List Turn}

theorem Moves.lock_at {sv : Server} {c : Conn} {ch : Choice} {t : TablePtr}
    (h : Moves p sv c ch effect c') (he : effect = .lock t) :
    ∃ x, c.pc = .trylock x t ∨ c.pc = .guardLock x t := by
  cases h with
  | trylock hpc hfree =>
      cases he
      exact ⟨_, .inl hpc⟩
  | guardLock hpc hfree =>
      cases he
      exact ⟨_, .inr hpc⟩
  | visit hpc hmem => cases ‹Ending› <;> cases he
  | _ => cases he

/-- What a connection is about to lock is in its tables. -/
theorem Apart.target (h : Apart own s) {x : Access} {t : TablePtr}
    (hpc : (s.conns i).pc = .trylock x t ∨ (s.conns i).pc = .guardLock x t) :
    ∃ name ∈ own i, s.server.findTable name = some t := by
  have hwithin := (h.placed i).within
  rcases hpc with hpc | hpc
  · rw [hpc] at hwithin
    exact ⟨x.table, mem_ofTables.mp (Access.table_mem hwithin.1), hwithin.2⟩
  · rw [hpc] at hwithin
    exact ⟨x.table, mem_ofTables.mp (Access.table_mem hwithin.1), hwithin.2⟩

/-- A table that a connection makes a call on is one of its own. -/
theorem Apart.called (h : Apart own s) (hst : Stepped p s a effect c' s') {t : TablePtr}
    (ht : effect.call.table = some t) :
    ∃ name ∈ own a.conn, s.server.findTable name = some t := by
  have hinv := (h.placed a.conn).inv
  by_cases hlock : effect = .lock t
  · obtain ⟨x, hpc⟩ := hst.moves.lock_at hlock
    exact h.target hpc
  · exact h.locked a.conn t (hinv.mutex.mpr (hinv.called_held hst.turn ht hlock))

/-- **A step within a connection's tables keeps the others' apart.** -/
theorem Stepped.apart (hst : Stepped p s a effect c' s') (h : Apart own s)
    (hadmits : ∀ line, a.choice = .recv line → (Scope.ofTables (own a.conn)).Admits line) :
    Apart own s' where
  placed i := hst.placed (h.placed i) fun hi => hi ▸ hadmits
  locked i t ht := by
    have hkeeps : (∃ name ∈ own i, s.server.findTable name = some t) →
        ∃ name ∈ own i, s'.server.findTable name = some t := fun ⟨name, hname, hfound⟩ =>
      ⟨name, hname, hst.findTable hfound⟩
    rw [hst.server] at ht
    rcases apply_owner (k := .table t) ht with hold | ⟨rfl, hlock⟩
    · exact hkeeps (h.locked i t hold)
    · obtain ⟨x, hpc⟩ := hst.moves.lock_at (hlock t rfl)
      exact hkeeps (h.target hpc)

/-- One name, one table: two connections cannot reach the same one. -/
theorem Apart.ne (h : Apart own s) {j : ConnId} (hdisjoint : (own i).Disjoint (own j))
    {name other : Str} {t : TablePtr} (hname : name ∈ own i) (hother : other ∈ own j)
    (ht : s.server.findTable name = some t) : s.server.findTable other ≠ some t := by
  intro hother'
  obtain rfl := (h.placed i).distinct name other t ht hother'
  exact hdisjoint hname hother

/-- **The others leave a connection's tables as they are.** -/
theorem Stepped.elsewhere (hst : Stepped p s a effect c' s') (h : Apart own s)
    (hdisjoint : (own i).Disjoint (own a.conn)) :
    s'.server.store (.ofTables (own i)) i = s.server.store (.ofTables (own i)) i := by
  have hinv := (h.placed i).inv
  have hnew : ∀ new, effect = .newTable new → new ∈ own a.conn := by
    rintro new rfl
    have hwithin := (h.placed a.conn).within
    rw [hst.moves.newTable_at rfl] at hwithin
    exact mem_ofTables.mp hwithin
  refine store_congr (fun name hname => ?_) fun name key t hloc hfound => ?_
  · rw [hst.server]
    cases effect with
    | newTable new =>
        have hne : name ≠ new := by
          rintro rfl
          exact hdisjoint (mem_ofTables.mp hname) (hnew name rfl)
        exact AList.lookup_insert_ne hne
    | _ => rfl
  · have hsame : s'.server.tables t = s.server.tables t := by
      rw [hst.server]
      refine apply_table_ne (fun hcall => ?_) fun name _ heq => ?_
      · obtain ⟨other, hother, hother'⟩ := h.called hst hcall
        exact h.ne hdisjoint hloc hother hfound hother'
      · exact Nat.lt_irrefl _ (heq ▸ hinv.found _ t hfound)
    rw [hsame]
    exact ⟨rfl, rfl⟩

theorem Apart.undisturbed (h : Apart own s) (hdisjoint : ∀ j, i ≠ j → (own i).Disjoint (own j))
    (hadmits : ∀ line, a.choice = .recv line → (Scope.ofTables (own a.conn)).Admits line) :
    s.Undisturbed p (.ofTables (own i)) i a := by
  refine ⟨fun hi => ⟨fun line hline => hi ▸ hadmits line hline, fun x t hpc => ?_⟩,
    fun hi s' hstep => ?_⟩
  · cases hmutex : (s.server.tables t).tableMutex with
    | none => rfl
    | some j =>
        have hinv := (h.placed i).inv
        by_cases hj : i = j
        · subst hj
          exact absurd (hinv.mutex.mp hmutex) (hinv.not_held (.inl hpc))
        · obtain ⟨name, hname, hfound⟩ := h.target (.inl hpc)
          obtain ⟨other, hother, hfound'⟩ := h.locked j t hmutex
          exact absurd hfound' (h.ne (hdisjoint j hj) hname hother hfound)
  · obtain ⟨effect, c', hst⟩ := (h.placed i).inv.stepped hstep
    exact hst.elsewhere h (hdisjoint a.conn fun heq => hi heq.symm)

theorem Boot.apart (hboot : Boot s₀) (hdistinct : s₀.server.Distinct) (own : ConnId → List Str) :
    Apart own s₀ where
  placed i :=
    { inv := hboot.inv, distinct := hdistinct
      within := by rw [hboot.conns]; trivial }
  locked i t ht := by cases (hboot.unlocked.2 t).symm.trans ht

/-- Nobody disturbs anybody in a run whose lines name different tables. -/
theorem Boot.undisturbed (hboot : Boot s₀) (hdistinct : s₀.server.Distinct)
    (hrun : Transition.run (State.step p) s₀ turns = some s)
    (hdisjoint : ∀ i j, i ≠ j →
      (tablesIn (s.conns i).received).Disjoint (tablesIn (s.conns j).received)) (i : ConnId) :
    Transition.Along (State.step p)
      (State.Undisturbed p (.ofTables (tablesIn (s.conns i).received)) i) s₀ turns := by
  have hinput : Transition.Along (State.step p) (fun _ a => ∀ line, a.choice = .recv line →
      (Scope.ofTables (tablesIn (s.conns a.conn).received)).Admits line) s₀ turns := by
    have hreceived : ∀ j, (s.conns j).received = (s₀.conns j).received ++ (s.conns j).received := by
      intro j
      rw [hboot.conns]
      rfl
    refine (Transition.along_forall fun j => hboot.inv.input hrun (hreceived j)).mono ?_
    exact fun m a h line hline => tablesIn_admits (h a.conn rfl line hline)
  refine hinput.of_invariant (I := Apart fun j => tablesIn (s.conns j).received)
    (hboot.apart hdistinct _) ?_ fun m a h hadmits => h.undisturbed (hdisjoint i) hadmits
  rintro m a m' h hadmits hstep
  obtain ⟨effect, c', hst⟩ := (h.placed a.conn).inv.stepped hstep
  exact hst.apart h hadmits

/-- A connection at rest, with no request being handled. -/
def State.AtRest (s : State) (i : ConnId) : Prop :=
  (s.conns i).pc = .reading ∨ (s.conns i).pc = .closed

/-- What is required of two runs with the same input, as far as one connection goes. -/
structure SameFor (i : ConnId) (s s' : State) : Prop where
  sent : (s'.conns i).sent = (s.conns i).sent
  stack : (s'.conns i).stack.vector = (s.conns i).stack.vector
  tables : ∀ name ∈ tablesIn (s.conns i).received,
    (s'.server.findTable name).isSome = (s.server.findTable name).isSome
  committed : ∀ name ∈ tablesIn (s.conns i).received, ∀ t t', s.server.findTable name = some t →
    s'.server.findTable name = some t' →
    ∀ key, (s'.server.tables t').keyValue.lookup key = (s.server.tables t).keyValue.lookup key

theorem hangUp_same (σ : Solo) (hung : Bool) :
    (σ.hangUp hung).sent = σ.sent ∧ (σ.hangUp hung).stack = σ.stack ∧
      (σ.hangUp hung).store.found = σ.store.found ∧
      (σ.hangUp hung).store.committed = σ.store.committed := by
  cases hung with
  | false => exact ⟨rfl, rfl, rfl, rfl⟩
  | true =>
      refine ⟨rfl, rfl, ?_⟩
      show (Store.found (if _ then _ else _)) = _ ∧ (Store.committed (if _ then _ else _)) = _
      split <;> exact ⟨rfl, rfl⟩

/-- A connection at rest is where its input has led its session. -/
theorem rests_took {scope : Scope} {σ : Solo} {lines : List Str} {hung : Bool}
    (hrest : s.AtRest i) (h : σ.Took p lines hung (s.settle scope i)) :
    (s.conns i).sent = (σ.run p lines).sent ∧
      (s.conns i).stack.vector = (σ.run p lines).stack ∧
      (s.server.store scope i).found = (σ.run p lines).store.found ∧
      (s.server.store scope i).committed = (σ.run p lines).store.committed ∧
      (σ.run p lines).status ≠ .crashed := by
  obtain ⟨hsent, hstack, hfound, hcommitted⟩ := hangUp_same (σ.run p lines) hung
  rw [← h.eq] at hsent hstack hfound hcommitted
  rcases hrest with hpc | hpc
  · have hlive : (s.settle scope i).status = .live := reading_live hpc
    have hsettle : s.settle scope i = (s.conns i).session (s.server.store scope i) :=
      settle_reading hpc
    have hstatus : (σ.run p lines).status = .live := h.run hlive ▸ hlive
    rw [hsettle] at hsent hstack hfound hcommitted
    exact ⟨hsent, hstack, hfound, hcommitted, by rw [hstatus]; exact nofun⟩
  · have hsettle : s.settle scope i
        = { (s.conns i).session (s.server.store scope i) with status := .closed } := by
      rw [State.settle, Conn.settle, hpc]
    refine ⟨?_, ?_, ?_, ?_, fun hcrashed => ?_⟩
    · rw [← hsent, hsettle]
      rfl
    · rw [← hstack, hsettle]
      rfl
    · rw [← hfound, hsettle]
      rfl
    · rw [← hcommitted, hsettle]
      rfl
    · cases hung with
      | true => cases hcrashed.symm.trans (h.hung_live rfl)
      | false =>
          have hrun : s.settle scope i = σ.run p lines := h.eq
          rw [← hrun, hsettle] at hcrashed
          cases hcrashed

/-- **Alone, a connection gets through the lines that it got through among others.** -/
theorem Boot.alone (hboot : Boot s₀) (hdistinct : s₀.server.Distinct) {lines : List Str}
    {hung : Bool} (hfit : Fit lines) (hrest : s.AtRest i)
    (htook : (s₀.settle (.ofTables (tablesIn lines)) i).Took p lines hung
      (s.settle (.ofTables (tablesIn lines)) i)) :
    ∃ s', s₀.RunsAlone p i lines s' ∧ s'.AtRest i := by
  have hsound := hboot.sound i
  have hplaced : Placed (.ofTables (tablesIn lines)) i s₀ :=
    (hboot.apart hdistinct fun _ => tablesIn lines).placed i
  obtain ⟨s', hcompletes⟩ := hsound.completes p hfit
  obtain ⟨-, -, -, hsettle⟩ := hcompletes.settle hsound hplaced fun line => tablesIn_admits
  obtain ⟨got, rest, hlines, hruns, hrests, hall⟩ := hcompletes
  have hrest_nil : rest = [] := by
    by_contra hne
    -- the session would have been over before the last line was read
    obtain ⟨-, hgot⟩ := hruns.settle hsound hplaced fun line hline =>
      tablesIn_admits (hlines ▸ List.mem_append_left _ hline)
    have hread := htook.read_live (by simp [hlines, hne])
    rw [hlines, List.dropLast_append_of_ne_nil hne] at hread
    have hlive := Solo.run_live _ _ hread
    rw [← hlines, ← hgot] at hlive
    exact hne (hall ((rests_live _ hrests).mp hlive))
  rw [hrest_nil, List.append_nil] at hlines
  refine ⟨s', hlines ▸ hruns, ?_⟩
  obtain ⟨-, -, -, -, hnot_crashed⟩ := rests_took hrest htook
  rcases hrests with hpc | hpc | hpc
  · exact .inl hpc
  · exact .inr hpc
  · refine absurd ?_ hnot_crashed
    rw [← hsettle]
    exact (rests_crashed _ (.inr (.inr hpc))).mpr hpc

/--
**Clients of disjoint tables do not affect each other.**  Whatever lines the connections
have read, as long as no two of them name a common table: one that is at rest has been
answered, and has left its stack and its tables, as in every run of its own on the same lines.
-/
theorem disjoint_clients (hboot : Boot s₀) (hdistinct : s₀.server.Distinct)
    (hrun : Transition.run (State.step p) s₀ turns = some s)
    (hdisjoint : ∀ i j, i ≠ j →
      (tablesIn (s.conns i).received).Disjoint (tablesIn (s.conns j).received))
    (hrest : s.AtRest i) :
    (∃ s', s₀.RunsAlone p i (s.conns i).received s' ∧ s'.AtRest i) ∧
    ∀ alone s', Alone i alone → Transition.run (State.step p) s₀ alone = some s' →
      (s'.conns i).received = (s.conns i).received → s'.AtRest i → SameFor i s s' := by
  have hplaced : Placed (.ofTables (tablesIn (s.conns i).received)) i s₀ :=
    (hboot.apart hdistinct fun _ => tablesIn (s.conns i).received).placed i
  have hnothing : (s₀.conns i).received = [] := by
    rw [hboot.conns]
  obtain ⟨-, lines, hung, hreceived, htook, -⟩ :=
    hplaced.run False (hboot.undisturbed hdistinct hrun hdisjoint i) nofun hrun
  rw [hnothing, List.nil_append] at hreceived
  subst hreceived
  have hfit : Fit (s.conns i).received := hboot.inv.received_fit (by rw [hnothing]; exact nofun) hrun
  refine ⟨hboot.alone hdistinct hfit hrest htook, fun alone s' halone hrun' hreceived' hrest' => ?_⟩
  have hu := hboot.inv.undisturbed (halone.unhindered hboot.inv (hboot.sound i).isOpen) hrun'
    (show _ = _ ++ (s.conns i).received by rw [hnothing, List.nil_append, hreceived'])
    fun line => tablesIn_admits
  obtain ⟨-, lines, hung', hlines, htook', -⟩ := hplaced.run False hu nofun hrun'
  rw [hnothing, List.nil_append, hreceived'] at hlines
  subst hlines
  obtain ⟨hsent, hstack, hfound, hcommitted, -⟩ := rests_took hrest htook
  obtain ⟨hsent', hstack', hfound', hcommitted', -⟩ := rests_took hrest' htook'
  refine ⟨hsent'.trans hsent.symm, hstack'.trans hstack.symm, fun name hname => ?_,
    fun name hname t t' ht ht' key => ?_⟩
  · have hnames := mem_ofTables.mpr hname
    have hsame := congrFun (hfound'.trans hfound.symm) name
    rwa [store_found hnames, store_found hnames] at hsame
  · have hloc : (name, key) ∈ Scope.ofTables (tablesIn (s.conns i).received) := hname
    have hsame := congrFun₂ (hcommitted'.trans hcommitted.symm) name key
    rwa [store_committed hloc ht', store_committed hloc ht] at hsame

end Apart

/-- Connection 1 has a transaction on a table `u` while connection 0 stores 1 in a table `t`. -/
def neighbours : List Turn :=
  [⟨0, .recv (bytes "LOGIN a\n")⟩, ⟨1, .recv (bytes "LOGIN b\n")⟩, ⟨1, .recv (bytes "CREATE u\n")⟩,
    ⟨1, .go⟩, ⟨1, .go⟩, ⟨1, .go⟩, ⟨0, .recv (bytes "CREATE t\n")⟩, ⟨1, .recv (bytes "BEGIN\n")⟩,
    ⟨0, .go⟩, ⟨0, .go⟩, ⟨0, .go⟩, ⟨1, .recv (bytes "GET u k\n")⟩, ⟨1, .go⟩, ⟨1, .go⟩, ⟨1, .go⟩,
    ⟨0, .recv (bytes "PUSH 1\n")⟩, ⟨1, .go⟩, ⟨0, .recv (bytes "SET t k\n")⟩, ⟨0, .go⟩, ⟨0, .go⟩,
    ⟨0, .go⟩, ⟨0, .go⟩, ⟨0, .go⟩, ⟨0, .go⟩, ⟨0, .go⟩]

theorem disjoint_clients_neighbours :
    ∃ s s', Transition.run (State.step trapping) State.initial neighbours = some s ∧
      State.initial.RunsAlone trapping 0 (s.conns 0).received s' ∧ SameFor 0 s s' := by
  have hstate : (Transition.run (State.step trapping) State.initial neighbours).map (fun s =>
      decide ((s.conns 0).pc = .reading ∧ tablesIn (s.conns 0).received = [bytes "t", bytes "t"] ∧
        tablesIn (s.conns 1).received = [bytes "u", bytes "u"])) = some true := by decide +kernel
  obtain ⟨s, hrun, hs⟩ := Option.map_eq_some_iff.mp hstate
  obtain ⟨hpc, hzero, hone⟩ := of_decide_eq_true hs
  have hothers : ∀ i, i ≠ 0 → i ≠ 1 → tablesIn (s.conns i).received = [] := by
    intro i hi hi'
    have huntouched := run_untouched hrun (i := i) fun a ha => by
      have hconn : a.conn = 0 ∨ a.conn = 1 := by
        revert a
        unfold neighbours
        decide
      rcases hconn with hconn | hconn
      · rwa [hconn]
      · rwa [hconn]
    rw [huntouched]
    rfl
  have happart : [bytes "t", bytes "t"].Disjoint [bytes "u", bytes "u"] :=
    List.disjoint_left.mpr (by decide)
  have hdisjoint : ∀ i j, i ≠ j →
      (tablesIn (s.conns i).received).Disjoint (tablesIn (s.conns j).received) := by
    intro i j hne
    by_cases hi : i = 0 ∨ i = 1
    · by_cases hj : j = 0 ∨ j = 1
      · rcases hi with rfl | rfl <;> rcases hj with rfl | rfl
        · exact absurd rfl hne
        · rw [hzero, hone]
          exact happart
        · rw [hzero, hone]
          exact happart.symm
        · exact absurd rfl hne
      · rw [hothers j (mt .inl hj) (mt .inr hj)]
        exact List.disjoint_nil_right _
    · rw [hothers i (mt .inl hi) (mt .inr hi)]
      exact List.disjoint_nil_left _
  obtain ⟨⟨s', halone, hrest⟩, hsame⟩ :=
    disjoint_clients boot_initial distinct_initial hrun hdisjoint (i := 0) (.inl hpc)
  obtain ⟨turns, hturns, -, hrun', hreceived⟩ := id halone
  exact ⟨s, s', hrun, halone, hsame turns s' hturns hrun' hreceived hrest⟩

end KvServer
