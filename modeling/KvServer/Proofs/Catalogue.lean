/-
Tables are created once and for good.

A CREATE is at work under `table_lock` from its look-up to its answer, and nobody else
creates a table meanwhile; that is why a name is created once (`Registered.once`), and
since a name stays with its table, `locked_tables` may as well be a set of names.
-/
import KvServer.Proofs.Creates
import KvServer.Proofs.Scope

namespace KvServer

/-! ### The catalogue along a run

Between the look-up of a CREATE and its answer the table is made, and whoever made it is the
only one with `table_lock`; so for a moment there is a name whose CREATE is not acknowledged
yet, and never more than one.
-/

structure Registered (s : State) : Prop where
  inv : Inv s
  distinct : s.server.Distinct
  counted : ∀ i, (s.conns i).sent.length + (s.conns i).pc.owes = (s.conns i).received.length
  onCreate : ∀ i, (s.conns i).OnCreate
  within : ∀ i, (s.conns i).pc.Within Set.univ s.server
  /-- every table is in the catalogue, under its name -/
  named : ∀ t, t < s.server.allocated → s.server.findTable (s.server.tables t).name = some t
  identifier : ∀ name t, s.server.findTable name = some t → Identifier name
  answered : ∀ i k name resp, (s.conns i).Answered k name resp → resp = okLine ∨ Fails resp
  created : ∀ i k name, (s.conns i).Answered k name okLine → ∃ t, s.server.findTable name = some t
  once : ∀ i j k l name, (s.conns i).Answered k name okLine → (s.conns j).Answered l name okLine →
    i = j ∧ k = l
  /-- a table that has been created and not yet acknowledged -/
  pending : ∀ i name, (s.conns i).pc = .createUnlock (.ok ()) → (s.conns i).Asks name →
    (∃ t, s.server.findTable name = some t) ∧ ∀ j k, ¬ (s.conns j).Answered k name okLine

section System

variable {p : Platform} {s s' : State} {a : Turn} {effect : Effect} {c' : Conn}

/-- A table keeps its name. -/
theorem apply_name {sv : Server} {i : ConnId} (hnew : ∀ name, effect ≠ .newTable name) :
    (fun t => ((sv.apply i effect).tables t).name) = fun t => (sv.tables t).name := by
  cases effect with
  | newTable name => exact absurd rfl (hnew name)
  | lock _ | unlock _ | set _ _ _ | commitChanges _ | rollbackChanges _ =>
      simp only [Server.apply]
      exact modifyTable_keep Table.name (by intro _; rfl)
  | _ => rfl

theorem Stepped.named (hst : Stepped p s a effect c' s')
    (hnamed : ∀ t, t < s.server.allocated → s.server.findTable (s.server.tables t).name = some t)
    (t : TablePtr) (ht : t < s'.server.allocated) :
    s'.server.findTable (s'.server.tables t).name = some t := by
  have hserver := hst.server
  by_cases hnew : ∃ name, effect = .newTable name
  · obtain ⟨name, rfl⟩ := hnew
    by_cases hlast : t = s.server.allocated
    · subst hlast
      rw [hserver]
      show (s.server.setOfTable.insert name _).lookup
        (Function.update s.server.tables s.server.allocated { name := name } _).name = _
      rw [Function.update_self, AList.lookup_insert]
    · have hlt : t < s.server.allocated := by
        rw [hserver] at ht
        exact Nat.lt_of_le_of_ne (Nat.le_of_lt_succ ht) hlast
      have hsame : s'.server.tables t = s.server.tables t := by
        rw [hserver]
        exact Function.update_of_ne hlast _ _
      rw [hsame]
      exact hst.findTable (hnamed t hlt)
  · have hnew : ∀ name, effect ≠ .newTable name := fun name he => hnew ⟨name, he⟩
    have hsame : (s'.server.tables t).name = (s.server.tables t).name := by
      rw [hserver]
      exact congrFun (apply_name hnew) t
    have hlt : t < s.server.allocated := by
      rw [hserver] at ht
      cases effect with
      | newTable name => exact absurd rfl (hnew name)
      | _ => exact ht
    rw [hsame]
    exact hst.findTable (hnamed t hlt)

namespace Registered

theorem answered_new (h : Registered s) (hst : Stepped p s a effect c' s') {i : ConnId} {k : Nat}
    {name resp : Str} (hans : (s'.conns i).Answered k name resp) :
    (s.conns i).Answered k name resp ∨ i = a.conn ∧ (s'.conns i).Asks name ∧
      k + 1 = (s'.conns i).received.length ∧
      (Fails resp ∨ resp = okLine ∧ (s.conns i).pc = .createUnlock (.ok ()) ∧
        (s'.conns i).received = (s.conns i).received) := by
  by_cases hi : i = a.conn
  · subst hi
    rw [hst.self] at hans ⊢
    rcases hans.new hst.moves hst.runs (h.onCreate _) (h.counted _) with hold | hnew
    · exact .inl hold
    · exact .inr ⟨rfl, hnew⟩
  · rw [hst.other hi] at hans
    exact .inl hans

/-- Two connections are not both answering a CREATE. -/
theorem unlock_unique (h : Registered s) {i j : ConnId} {r r' : Except Exn Unit}
    (hi : (s.conns i).pc = .createUnlock r) (hj : (s.conns j).pc = .createUnlock r') : i = j :=
  h.inv.catalogue.unique (k := ()) (by simp [Conn.holdsCatalogue, hi])
    (by simp [Conn.holdsCatalogue, hj])

/-- A new OK to a CREATE is to one that has been created and not acknowledged. -/
theorem created_new (h : Registered s) (hst : Stepped p s a effect c' s') {i : ConnId} {k : Nat}
    {name : Str} (hans : (s'.conns i).Answered k name okLine) :
    (s.conns i).Answered k name okLine ∨ i = a.conn ∧ k + 1 = (s'.conns i).received.length ∧
      (s'.conns i).received = (s.conns i).received ∧
      (s.conns i).pc = .createUnlock (.ok ()) ∧ (s.conns i).Asks name := by
  rcases h.answered_new hst hans with hold | ⟨hi, ⟨line, hline, hcreates⟩, hk, hkind⟩
  · exact .inl hold
  · rcases hkind with hfails | ⟨-, hpc, hreceived⟩
    · exact absurd hfails not_fails_ok
    · exact .inr ⟨hi, hk, hreceived, hpc, line, hreceived ▸ hline, hcreates⟩

theorem step_pending (h : Registered s) (hst : Stepped p s a effect c' s') {i : ConnId} {name : Str}
    (hpc : (s'.conns i).pc = .createUnlock (.ok ())) (hasks : (s'.conns i).Asks name) :
    (∃ t, s'.server.findTable name = some t) ∧ ∀ j k, ¬ (s'.conns j).Answered k name okLine := by
  by_cases hi : i = a.conn
  · subst hi
    rw [hst.self] at hpc hasks
    obtain ⟨new, hat, rfl, hnew, hreceived⟩ := hst.moves.creates hpc
    have hname : name = new := by
      have honCreate := h.onCreate a.conn
      rw [Conn.OnCreate, hat] at honCreate
      obtain ⟨line, hline, hcreates⟩ := hasks
      exact Conn.Asks.unique ⟨line, hreceived ▸ hline, hcreates⟩ honCreate
    subst hname
    refine ⟨⟨s.server.allocated, ?_⟩, fun j k hans => ?_⟩
    · rw [hst.server]
      exact AList.lookup_insert _
    · rcases h.created_new hst hans with hold | ⟨rfl, -, -, hunlock, -⟩
      · obtain ⟨t, ht⟩ := h.created j k name hold
        cases hnew.symm.trans ht
      · cases hat.symm.trans hunlock
  · rw [hst.other hi] at hpc hasks
    obtain ⟨⟨t, ht⟩, hnone⟩ := h.pending i name hpc hasks
    refine ⟨⟨t, hst.findTable ht⟩, fun j k hans => ?_⟩
    rcases h.created_new hst hans with hold | ⟨rfl, -, -, hunlock, -⟩
    · exact hnone j k hold
    · exact hi (h.unlock_unique hpc hunlock)

theorem step_once (h : Registered s) (hst : Stepped p s a effect c' s') {i j : ConnId} {k l : Nat}
    {name : Str} (hi : (s'.conns i).Answered k name okLine)
    (hj : (s'.conns j).Answered l name okLine) : i = j ∧ k = l := by
  rcases h.created_new hst hi with hold | ⟨rfl, hk, -, hunlock, hasks⟩
  · rcases h.created_new hst hj with hold' | ⟨rfl, -, -, hunlock, hasks⟩
    · exact h.once i j k l name hold hold'
    · exact absurd hold ((h.pending _ name hunlock hasks).2 i k)
  · rcases h.created_new hst hj with hold' | ⟨rfl, hl, -, -, -⟩
    · exact absurd hold' ((h.pending _ name hunlock hasks).2 j l)
    · exact ⟨rfl, by omega⟩

/-- **One turn keeps the catalogue in order.** -/
theorem step (h : Registered s) (hstep : s.step p a = some s') : Registered s' := by
  obtain ⟨effect, c', hst⟩ := h.inv.stepped hstep
  refine ⟨hst.inv h.inv, hst.distinct h.inv h.distinct, ?counted, ?onCreate, ?within,
    hst.named h.named, ?identifier, ?answered, ?created, fun _ _ _ _ _ => h.step_once hst,
    fun _ _ => h.step_pending hst⟩
  case counted =>
    intro i
    by_cases hi : i = a.conn
    · subst hi
      rw [hst.self]
      exact hst.moves.answered (h.counted _)
    · rw [hst.other hi]
      exact h.counted i
  case onCreate =>
    intro i
    by_cases hi : i = a.conn
    · subst hi
      rw [hst.self]
      exact hst.moves.onCreate (h.onCreate _)
    · rw [hst.other hi]
      exact h.onCreate i
  case within =>
    intro i
    by_cases hi : i = a.conn
    · subst hi
      rw [hst.self, hst.server]
      exact hst.moves.within (h.within _) fun _ _ _ _ => ⟨fun _ => ⟨[], trivial⟩, fun _ => trivial⟩
    · exact hst.within_other h.inv hi (h.within i)
  case identifier =>
    intro name t hfound
    rw [hst.server] at hfound
    rcases apply_findTable hfound with hold | ⟨-, rfl⟩
    · exact h.identifier name t hold
    · have honCreate := h.onCreate a.conn
      rw [Conn.OnCreate, hst.moves.newTable_at rfl] at honCreate
      obtain ⟨line, -, hcreates⟩ := honCreate
      exact hcreates.identifier
  case answered =>
    intro i k name resp hans
    rcases h.answered_new hst hans with hold | ⟨-, -, -, hfails | ⟨hok, -⟩⟩
    · exact h.answered i k name resp hold
    · exact .inr hfails
    · exact .inl hok
  case created =>
    intro i k name hans
    rcases h.created_new hst hans with hold | ⟨-, -, -, hunlock, hasks⟩
    · obtain ⟨t, ht⟩ := h.created i k name hold
      exact ⟨t, hst.findTable ht⟩
    · obtain ⟨⟨t, ht⟩, -⟩ := h.pending i name hunlock hasks
      exact ⟨t, hst.findTable ht⟩

end Registered

theorem registered_initial : Registered State.initial where
  inv := boot_initial.inv
  distinct := distinct_initial
  counted _ := rfl
  onCreate _ := onCreate_idle rfl
  within _ := trivial
  named _ := nofun
  identifier _ _ := nofun
  answered _ _ _ _ := fun ⟨_, hline, _⟩ => by cases hline
  created _ _ _ := fun ⟨_, hline, _⟩ => by cases hline
  once _ _ _ _ _ := fun ⟨_, hline, _⟩ => by cases hline
  pending _ _ := nofun

/-! ### A table that is there

From the moment a table exists every CREATE of its name fails, except that the one which made
it may still have its OK to come.
-/

/-- What has become of the CREATEs of a name, in a run from a state that has a table of it. -/
structure Late (s₀ : State) (name : Str) (t : TablePtr) (s : State) : Prop where
  registered : Registered s
  found : s.server.findTable name = some t
  refused : ∀ i k resp, (s₀.conns i).received.length ≤ k → (s.conns i).Answered k name resp →
    Fails resp
  /-- An OK to come is to a request that had been read. -/
  early : ∀ i, (s.conns i).pc = .createUnlock (.ok ()) → (s.conns i).Asks name →
    (s.conns i).received.length ≤ (s₀.conns i).received.length

variable {s₀ : State} {name : Str} {t : TablePtr}

theorem Registered.late (h : Registered s) (ht : s.server.findTable name = some t) :
    Late s name t s where
  registered := h
  found := ht
  refused i k _ hk := fun ⟨_, hline, _⟩ => by
    rw [List.getElem?_eq_none hk] at hline
    cases hline
  early _ _ _ := Nat.le_refl _

theorem Late.step (h : Late s₀ name t s) (hstep : s.step p a = some s') : Late s₀ name t s' := by
  obtain ⟨effect, c', hst⟩ := h.registered.inv.stepped hstep
  refine ⟨h.registered.step hstep, hst.findTable h.found, fun i k resp hk hans => ?_,
    fun i hpc hasks => ?_⟩
  · rcases h.registered.answered_new hst hans with
      hold | ⟨rfl, ⟨line, hline, hcreates⟩, hlast, hfails | ⟨-, hpc, hreceived⟩⟩
    · exact h.refused i k resp hk hold
    · exact hfails
    · have hearly := h.early _ hpc ⟨line, hreceived ▸ hline, hcreates⟩
      rw [hreceived] at hlast
      omega
  · by_cases hi : i = a.conn
    · subst hi
      rw [hst.self] at hpc hasks
      obtain ⟨new, hat, -, hnew, hreceived⟩ := hst.moves.creates hpc
      have honCreate := h.registered.onCreate a.conn
      rw [Conn.OnCreate, hat] at honCreate
      obtain ⟨line, hline, hcreates⟩ := hasks
      obtain rfl : name = new := Conn.Asks.unique ⟨line, hreceived ▸ hline, hcreates⟩ honCreate
      cases hnew.symm.trans h.found
    · rw [hst.other hi] at hpc hasks ⊢
      exact h.early i hpc hasks

/-- The turn is one of a CREATE: of reading it, or of what follows up to its answer. -/
def State.Creating (s s' : State) (i : ConnId) : Prop :=
  (s.conns i).sent.length < (s'.conns i).received.length ∧ ∃ name, (s'.conns i).Asks name

/-- A CREATE leaves every table there is as it was. -/
theorem Registered.untouched (h : Registered s) (hst : Stepped p s a effect c' s')
    (hcreating : s.Creating s' a.conn) (ht : t < s.server.allocated) :
    s'.server.tables t = s.server.tables t := by
  obtain ⟨hpending, name, hasks⟩ := hcreating
  rw [hst.self] at hpending hasks
  have hnone := hst.moves.create_call hasks (h.onCreate _) hpending (h.counted _)
  rw [hst.server]
  exact apply_table_ne (by rw [hnone]; exact nofun) fun _ _ => Nat.ne_of_lt ht

/-! ### The names of the locked tables

The source keeps `Table *`s in `locked_tables`. A record of the names under which they were
looked up is as large, because each table has one name for good.
-/

/-- The name by which a step locks a table for its transaction. -/
def Conn.locksName (c : Conn) (effect : Effect) : List Str :=
  match c.pc, effect with
  | .trylock x _, .lock _ => [x.table]
  | _, _ => []

/-- The names by which each connection has locked tables in its transaction. -/
def noteNames (p : Platform) (s : State) (a : Turn) (_ : State) (names : ConnId → List Str) :
    ConnId → List Str :=
  match s.turn p a with
  | none => names
  | some (effect, c') => Function.update names a.conn
      (if c'.inTransaction then names a.conn ++ (s.conns a.conn).locksName effect else [])

theorem Moves.locksName {sv : Server} {c : Conn} {ch : Choice} (h : Moves p sv c ch effect c')
    (hin : c'.inTransaction = true) :
    c.locksName effect = [] ∧ c'.lockedTables = c.lockedTables ∨
      ∃ x t, c.pc = .trylock x t ∧ c.locksName effect = [x.table] ∧
        c'.lockedTables = insert t c.lockedTables := by
  unfold Conn.locksName
  cases h with
  | request hpc hpos hlen h =>
      rw [hpc]
      cases h <;> exact .inl ⟨rfl, rfl⟩
  | trylock hpc hfree =>
      rw [hpc]
      exact .inr ⟨_, _, rfl, rfl, rfl⟩
  | finishCommit hpc => cases hin
  | finishAbort hpc hline => cases hin
  | finishCrash hpc hline => cases hin
  | _ =>
      rw [‹c.pc = _›]
      exact .inl ⟨rfl, rfl⟩

/-- Some tables and the names they are found by. -/
structure Names (sv : Server) (names : List Str) (tables : Finset TablePtr) : Prop where
  ofTable : ∀ t ∈ tables, ∃ name ∈ names, sv.findTable name = some t
  ofName : ∀ name ∈ names, ∃ t ∈ tables, sv.findTable name = some t

theorem Names.empty (sv : Server) : Names sv [] ∅ :=
  ⟨fun t ht => absurd ht (Finset.notMem_empty t), nofun⟩

theorem Names.stepped {names : List Str} {tables : Finset TablePtr}
    (h : Names s.server names tables) (hst : Stepped p s a effect c' s') :
    Names s'.server names tables where
  ofTable t ht := by
    obtain ⟨name, hname, hfound⟩ := h.ofTable t ht
    exact ⟨name, hname, hst.findTable hfound⟩
  ofName name hname := by
    obtain ⟨t, ht, hfound⟩ := h.ofName name hname
    exact ⟨t, ht, hst.findTable hfound⟩

theorem Names.insert {sv : Server} {names : List Str} {tables : Finset TablePtr}
    (h : Names sv names tables) (hfound : sv.findTable name = some t) :
    Names sv (names ++ [name]) (insert t tables) where
  ofTable u hu := by
    rcases Finset.mem_insert.mp hu with rfl | hu
    · exact ⟨name, List.mem_append_right _ (List.mem_singleton_self name), hfound⟩
    · obtain ⟨other, hother, hold⟩ := h.ofTable u hu
      exact ⟨other, List.mem_append_left _ hother, hold⟩
  ofName other hother := by
    rcases List.mem_append.mp hother with hother | hother
    · obtain ⟨u, hu, hold⟩ := h.ofName other hother
      exact ⟨u, Finset.mem_insert_of_mem hu, hold⟩
    · obtain rfl := List.mem_singleton.mp hother
      exact ⟨t, Finset.mem_insert_self _ _, hfound⟩

/-- Every connection's record names the tables it has locked. -/
structure Named (names : ConnId → List Str) (s : State) : Prop where
  registered : Registered s
  locked : ∀ i, Names s.server (names i) (s.conns i).lockedTables

theorem Named.step {names names' : ConnId → List Str} (h : Named names s)
    (hrecorded : Transition.recorded (State.step p) (noteNames p) (s, names) a = some (s', names')) :
    Named names' s' := by
  obtain ⟨hstep, rfl⟩ := Transition.recorded_eq_some.mp hrecorded
  obtain ⟨effect, c', hst⟩ := h.registered.inv.stepped hstep
  refine ⟨h.registered.step hstep, fun i => ?_⟩
  rw [noteNames, hst.turn]
  dsimp only
  by_cases hi : i = a.conn
  · subst hi
    have hwf := (hst.inv h.registered.inv).wf a.conn
    have hold := (h.locked a.conn).stepped hst
    rw [hst.self] at hwf ⊢
    rw [Function.update_self]
    cases hin : c'.inTransaction with
    | false =>
        -- the transaction is over, or there was none
        rw [hwf.idle hin]
        exact .empty _
    | true =>
        rw [if_pos rfl]
        rcases hst.moves.locksName hin with ⟨hnone, hlocked⟩ | ⟨x, t, hpc, hone, hlocked⟩
        · rw [hnone, hlocked, List.append_nil]
          exact hold
        · have hwithin := h.registered.within a.conn
          rw [hpc] at hwithin
          rw [hone, hlocked]
          exact hold.insert (hst.findTable hwithin.2)
  · rw [hst.other hi, Function.update_of_ne hi]
    exact (h.locked i).stepped hst

theorem named_initial : Named (fun _ => []) State.initial :=
  ⟨registered_initial, fun _ => .empty _⟩

/-! ### What holds of the catalogue -/

/-- What is required of the catalogue in one state; `names` are those by which each connection has
locked tables in its transaction. -/
structure Catalogued (names : ConnId → List Str) (s : State) : Prop where
  /-- At most one CREATE of a name has been answered with OK, -/
  once : ∀ i j k l name, (s.conns i).Answered k name okLine → (s.conns j).Answered l name okLine →
    i = j ∧ k = l
  /-- every other with FAILED, -/
  answered : ∀ i k name resp, (s.conns i).Answered k name resp → resp = okLine ∨ Fails resp
  /-- and the one with OK has made a table. -/
  created : ∀ i k name, (s.conns i).Answered k name okLine → ∃ t, s.server.findTable name = some t
  /-- Different names are different tables. -/
  distinct : s.server.Distinct
  /-- A locked table is the one its name stands for, -/
  locked : ∀ i t, t ∈ (s.conns i).lockedTables →
    s.server.findTable (s.server.tables t).name = some t
  /-- and a table is locked if it has been locked by its name. -/
  names : ∀ i name t, s.server.findTable name = some t →
    (t ∈ (s.conns i).lockedTables ↔ name ∈ names i)
  identifier : ∀ name t, s.server.findTable name = some t → Identifier name

/-- What is required of a table that `s` has under a name, in a later state `s'`. -/
structure KeptAs (p : Platform) (s s' : State) (name : Str) (t : TablePtr) : Prop where
  found : s'.server.findTable name = some t
  /-- A CREATE of the name that was read after `s` is answered with FAILED, -/
  refused : ∀ i k resp, (s.conns i).received.length ≤ k → (s'.conns i).Answered k name resp →
    Fails resp
  /-- and no turn of a CREATE changes what is in the table or its mutex. -/
  untouched : ∀ a s'', s'.step p a = some s'' → s'.Creating s'' a.conn →
    s''.server.tables t = s'.server.tables t
  /-- Whoever looks the name up gets the table. -/
  resolved : ∀ a s'' x, s'.step p a = some s'' → (s'.conns a.conn).pc = .findBody x →
    x.table = name → (s''.conns a.conn).pc = .findUnlock x (some t)

theorem Named.catalogued {names : ConnId → List Str} (h : Named names s) : Catalogued names s where
  once := h.registered.once
  answered := h.registered.answered
  created := h.registered.created
  distinct := h.registered.distinct
  locked i t ht := by
    obtain ⟨name, -, hfound⟩ := (h.locked i).ofTable t ht
    exact h.registered.named t (h.registered.inv.found name t hfound)
  names i name t hfound := by
    constructor
    · intro ht
      obtain ⟨other, hother, hfound'⟩ := (h.locked i).ofTable t ht
      rwa [h.registered.distinct name other t hfound hfound']
    · intro hname
      obtain ⟨u, hu, hfound'⟩ := (h.locked i).ofName name hname
      rwa [Option.some.inj (hfound.symm.trans hfound')]
  identifier := h.registered.identifier

theorem Late.keptAs (h : Late s₀ name t s) : KeptAs p s₀ s name t where
  found := h.found
  refused := h.refused
  untouched a s'' hstep hcreating := by
    obtain ⟨effect, c', hst⟩ := h.registered.inv.stepped hstep
    exact h.registered.untouched hst hcreating (h.registered.inv.found name t h.found)
  resolved a s'' x hstep hpc hx := by
    obtain ⟨effect, c', hst⟩ := h.registered.inv.stepped hstep
    have hfound := h.found
    rw [← hx] at hfound
    rw [hst.self]
    have hmoves := hst.moves
    generalize s.conns a.conn = c at hmoves hpc
    generalize a.choice = ch at hmoves
    cases hmoves with
    | findBody hat =>
        obtain rfl := Pc.findBody.inj (hpc.symm.trans hat)
        rw [← hfound]
    | _ => cases hpc.symm.trans ‹c.pc = _›

/-- **Tables are created once and for good.**  In every state that is reached the catalogue is in
order, and every table it has is kept under its name in every state after it. -/
theorem created_for_good {p : Platform} {s s' : State} {names : ConnId → List Str}
    {turns more : List Turn}
    (hrun : Transition.run (Transition.recorded (State.step p) (noteNames p))
      (State.initial, fun _ => []) turns = some (s, names))
    (hmore : Transition.run (State.step p) s more = some s') :
    Catalogued names s ∧
      ∀ name t, s.server.findTable name = some t → KeptAs p s s' name t := by
  have hnamed : Named names s :=
    Transition.run_invariant (I := fun x : State × (ConnId → List Str) => Named x.2 x.1)
      (fun {x a x'} => Named.step) named_initial hrun
  refine ⟨hnamed.catalogued, fun name t ht => ?_⟩
  have hlate : Late s name t s' :=
    Transition.run_invariant Late.step (hnamed.registered.late ht) hmore
  exact hlate.keptAs

end System

/-- Connection 0 creates a table and locks it in a transaction, -/
def created : List Turn :=
  [⟨0, .recv (bytes "LOGIN a\n")⟩, ⟨0, .recv (bytes "CREATE t\n")⟩, ⟨0, .go⟩, ⟨0, .go⟩, ⟨0, .go⟩,
    ⟨0, .recv (bytes "BEGIN\n")⟩, ⟨0, .recv (bytes "GET t k\n")⟩, ⟨0, .go⟩, ⟨0, .go⟩, ⟨0, .go⟩,
    ⟨0, .go⟩, ⟨0, .go⟩]

/-- and connection 1 asks for the table again. -/
def createdAgain : List Turn :=
  [⟨1, .recv (bytes "LOGIN b\n")⟩, ⟨1, .recv (bytes "CREATE t\n")⟩, ⟨1, .go⟩, ⟨1, .go⟩, ⟨1, .go⟩]

theorem created_for_good_again :
    ∃ s names s', Transition.run (Transition.recorded (State.step trapping) (noteNames trapping))
        (State.initial, fun _ => []) created = some (s, names) ∧
      Transition.run (State.step trapping) s createdAgain = some s' ∧
      names 0 = [bytes "t"] ∧ (s'.conns 1).sent.length = 2 ∧
      Catalogued names s ∧ KeptAs trapping s s' (bytes "t") 0 := by
  have hends : ((Transition.run (Transition.recorded (State.step trapping) (noteNames trapping))
      (State.initial, fun _ => []) created).bind fun x =>
        (Transition.run (State.step trapping) x.1 createdAgain).map fun s' =>
          decide (x.1.server.findTable (bytes "t") = some 0 ∧ x.2 0 = [bytes "t"] ∧
            (s'.conns 1).sent.length = 2)) = some true := by decide +kernel
  obtain ⟨⟨s, names⟩, hrun, hx⟩ := Option.bind_eq_some_iff.mp hends
  obtain ⟨s', hmore, hx⟩ := Option.map_eq_some_iff.mp hx
  obtain ⟨hfound, hnames, hsent⟩ := of_decide_eq_true hx
  obtain ⟨hcatalogued, hkept⟩ := created_for_good hrun hmore
  exact ⟨s, names, s', hrun, hmore, hnames, hsent, hcatalogued, hkept _ 0 hfound⟩

end KvServer
