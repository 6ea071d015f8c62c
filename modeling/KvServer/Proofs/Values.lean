/-
Every value the server holds can be sent back.

A value comes in with a PUSH or out of the arithmetic, and goes from stack to table and
table to stack from then on.  Whatever else happens in a run, it is a `Storable` one
wherever it is, so TOP always has an answer.
-/
import KvServer.Proofs.Lines
import KvServer.Proofs.Strangers

namespace KvServer

/-! ### What is stored

The values in a table have to fit into a line, those not committed yet as well. The name of a
table that a request carries along has only to be printable: whether a FAILED line with it in it
fits is another matter.
-/

/-- The names and values a GET or SET carries along. -/
def Access.Clean : Access → Prop
  | .get table _ => Printable table
  | .set table _ value => Printable table ∧ Storable value

theorem Access.Clean.printable {a : Access} (h : a.Clean) : Printable a.table := by
  cases a with
  | get table key => exact h
  | set table key value => exact h.1

structure Table.Clean (table : Table) : Prop where
  committed : ∀ key v, table.keyValue.lookup key = some v → Storable v
  pending : ∀ key v, table.keyValueTemp.lookup key = some v → Storable v

namespace Table.Clean

variable {table : Table}

theorem empty (name : Str) : Table.Clean { name := name } :=
  ⟨nofun, nofun⟩

theorem mutex (h : table.Clean) (owner : Option ConnId) :
    Table.Clean { table with tableMutex := owner } :=
  ⟨h.committed, h.pending⟩

theorem visible (h : table.Clean) {key v : Str} (hv : table.visible key = some v) : Storable v := by
  unfold Table.visible at hv
  rcases Option.or_eq_some_iff.mp hv with hv | ⟨-, hv⟩
  · exact h.pending key v hv
  · exact h.committed key v hv

theorem get (h : table.Clean) {key v : Str} (hv : table.get key = .ok v) : Storable v :=
  h.visible (get_eq_ok.mp hv)

theorem set (h : table.Clean) (key : Str) {value : Str} (hvalue : Storable value) :
    (table.set key value).Clean where
  committed := h.committed
  pending k v hv := by
    by_cases hk : k = key
    · subst hk
      obtain rfl : value = v := by simpa [Table.set] using hv
      exact hvalue
    · refine h.pending k v ?_
      rwa [Table.set, AList.lookup_insert_ne hk] at hv

theorem commitChanges (h : table.Clean) : table.commitChanges.Clean where
  committed key v hv := by
    rw [commitChanges_lookup] at hv
    exact h.visible hv
  pending key v hv := by cases hv

theorem rollbackChanges (h : table.Clean) : table.rollbackChanges.Clean where
  committed := h.committed
  pending key v hv := by cases hv

end Table.Clean

/-- What holds of every table still does when one is modified. -/
theorem modifyTable_forall {P : Table → Prop} {sv : Server} {t : TablePtr} {f : Table → Table}
    (h : ∀ u, P (sv.tables u)) (hf : P (f (sv.tables t))) (u : TablePtr) :
    P ((sv.modifyTable t f).tables u) := by
  show P (Function.update sv.tables t (f (sv.tables t)) u)
  by_cases hu : u = t
  · subst hu
    rwa [Function.update_self]
  · rw [Function.update_of_ne hu]
    exact h u

theorem apply_clean {sv : Server} {i : ConnId} {effect : Effect}
    (h : ∀ t, (sv.tables t).Clean)
    (hset : ∀ t key value, effect = .set t key value → Storable value) (t : TablePtr) :
    ((sv.apply i effect).tables t).Clean := by
  cases effect with
  | newTable name =>
      by_cases ht : t = sv.allocated
      · subst ht
        simpa [Server.apply, Server.newTable] using Table.Clean.empty name
      · simpa [Server.apply, Server.newTable, ht] using h t
  | lock u =>
      rw [Server.apply]
      refine modifyTable_forall h ?_ t
      exact (h u).mutex (some i)
  | unlock u =>
      rw [Server.apply]
      refine modifyTable_forall h ?_ t
      exact (h u).mutex none
  | set u key value =>
      rw [Server.apply]
      refine modifyTable_forall h ?_ t
      exact (h u).set key (hset u key value rfl)
  | commitChanges u => exact modifyTable_forall h (h u).commitChanges t
  | rollbackChanges u => exact modifyTable_forall h (h u).rollbackChanges t
  | _ => exact h t

/-! ### Values on their way

Between stack and table a value is in the point of a SET or in the pending map of its table.
-/

/-- The GET or SET a connection is at. -/
def Pc.access : Pc → Option Access
  | .findLock a | .findBody a | .findUnlock a _ => some a
  | .trylock a _ | .call a _ => some a
  | .guardLock a _ | .guardCall a _ => some a
  | _ => none

def Access.key : Access → Str
  | .get _ key => key
  | .set _ key _ => key

/-- The GET or SET that a message asks for. -/
inductive Access.Asked (m : Message) (c : Conn) : Access → Prop
  | get (htype : m.messageType = .get) : Asked m c (.get m.getTable m.getKey)
  | set {value : Str} (htype : m.messageType = .set) (hvalue : value ∈ c.stack.vector) :
      Asked m c (.set m.getTable m.getKey value)

/-- All that a connection has is storable. -/
structure Conn.Stocked (c : Conn) : Prop where
  stack : ∀ v ∈ c.stack.vector, Storable v
  access : ∀ a, c.pc.access = some a → a.Clean

section Step

variable {p : Platform} {sv : Server} {c c' : Conn} {ch : Choice} {effect : Effect}

theorem leave_access (c : Conn) : c.leave.access = none := by
  unfold Conn.leave
  split <;> rfl

theorem Access.Asked.clean {line : Str} {m : Message} {a : Access} (h : a.Asked m c)
    (hm : decode (cstr line) = .ok m) (hlen : line.length ≤ maxEncodedLen - 1)
    (hstack : ∀ v ∈ c.stack.vector, Storable v) : a.Clean ∧ Storable a.key := by
  cases h with
  | get htype => exact ⟨printable_table hm (.inl htype), storable_key hm (.inl htype) hlen⟩
  | set htype hvalue =>
      exact ⟨⟨printable_table hm (.inr htype), hstack _ hvalue⟩, storable_key hm (.inr htype) hlen⟩

theorem Served.access {line : Str} {a : Access} (h : Served p line c c')
    (ha : c'.pc.access = some a) : ∃ m, decode (cstr line) = .ok m ∧ a.Asked m c := by
  cases h with
  | get hm htype =>
      cases ha
      exact ⟨_, hm, .get htype⟩
  | set hm htype hstack =>
      cases ha
      exact ⟨_, hm, .set htype (by simp [hstack])⟩
  | leave hresp hleft => cases (leave_access c).symm.trans ha
  | _ => cases ha

/-- A GET or SET is the one that was read. -/
theorem Moves.access {a : Access} (h : Moves p sv c ch effect c') (ha : c'.pc.access = some a) :
    c.pc.access = some a ∨ ∃ line m, ch = .recv line ∧ line.length ≤ maxEncodedLen - 1 ∧
      decode (cstr line) = .ok m ∧ a.Asked m c := by
  cases h with
  | request hpc hpos hlen h =>
      obtain ⟨m, hm, hasked⟩ := h.access ha
      refine .inr ⟨_, m, rfl, hlen, hm, ?_⟩
      cases hasked with
      | get htype => exact .get htype
      | set htype hvalue => exact .set htype hvalue
  | eof hpc => cases (leave_access c).symm.trans ha
  | findLock hpc hfree => exact .inl ((congrArg Pc.access hpc).trans ha)
  | findBody hpc => exact .inl ((congrArg Pc.access hpc).trans ha)
  | foundNew hpc htx ht => exact .inl ((congrArg Pc.access hpc).trans ha)
  | foundLocked hpc htx ht => exact .inl ((congrArg Pc.access hpc).trans ha)
  | foundAuto hpc htx => exact .inl ((congrArg Pc.access hpc).trans ha)
  | trylock hpc hfree => exact .inl ((congrArg Pc.access hpc).trans ha)
  | guardLock hpc hfree => exact .inl ((congrArg Pc.access hpc).trans ha)
  | _ => cases ha

theorem Served.stack {line : Str} {v : Str} (h : Served p line c c') (hv : v ∈ c'.stack.vector) :
    v ∈ c.stack.vector ∨ ∃ m, decode (cstr line) = .ok m ∧ Pushed m v := by
  cases h with
  | reply hresp htx hlogin hstack => exact hstack v hv
  | set hm htype hstack => exact .inl (by simp [hstack, hv])
  | trap hm htype htrap hstack => exact .inl (hstack v hv)
  | _ => exact .inl hv

/-- **A step stores only what can be stored.** -/
theorem Moves.stocked (h : Moves p sv c ch effect c') (hc : c.Stocked)
    (hsv : ∀ t, (sv.tables t).Clean) : c'.Stocked := by
  refine ⟨fun v hv => ?_, fun a ha => ?_⟩
  · have hcons : ∀ {t : TablePtr} {key value : Str}, (sv.tables t).get key = .ok value →
        v ∈ (c.stack.push value).vector → Storable v := by
      intro t key value hget hv
      rcases List.mem_cons.mp hv with rfl | hv
      · exact (hsv t).get hget
      · exact hc.stack v hv
    cases h with
    | request hpc hpos hlen h =>
        rcases h.stack hv with hv | ⟨m, hm, ⟨htype, rfl⟩ | ⟨n, hn, rfl⟩⟩
        · exact hc.stack v hv
        · exact storable_push hm htype hlen
        · exact storable_toString hn
    | callGet hpc hget => exact hcons hget hv
    | guardGet hpc hget => exact hcons hget hv
    | _ => exact hc.stack v hv
  · rcases h.access ha with hold | ⟨line, m, -, hlen, hm, hasked⟩
    · exact hc.access a hold
    · exact (hasked.clean hm hlen hc.stack).1

/-- What is SET was on its way. -/
theorem Moves.sets (h : Moves p sv c ch effect c') {t : TablePtr} {key value : Str}
    (he : effect = .set t key value) : ∃ table, c.pc.access = some (.set table key value) := by
  cases h with
  | callSet hpc =>
      cases he
      exact ⟨_, congrArg Pc.access hpc⟩
  | guardSet hpc =>
      cases he
      exact ⟨_, congrArg Pc.access hpc⟩
  | visit hpc ht => cases ‹Ending› <;> cases he
  | _ => cases he

theorem Moves.stores (h : Moves p sv c ch effect c') (hc : c.Stocked) {t : TablePtr}
    {key value : Str} (he : effect = .set t key value) : Storable value := by
  obtain ⟨table, haccess⟩ := h.sets he
  have hclean : Printable table ∧ Storable value := hc.access _ haccess
  exact hclean.2

/-- A key only gets into a table with a SET. -/
theorem apply_key {i : ConnId} {t : TablePtr} {key : Str}
    (h : ((sv.apply i effect).tables t).visible key ≠ none) :
    (sv.tables t).visible key ≠ none ∨ ∃ value, effect = .set t key value := by
  have hmodify : ∀ {u : TablePtr} {f : Table → Table},
      ((sv.modifyTable u f).tables t).visible key ≠ none →
      ((f (sv.tables u)).visible key ≠ none → (sv.tables u).visible key ≠ none) →
      (sv.tables t).visible key ≠ none := by
    intro u f hvisible hf
    by_cases ht : t = u
    · subst ht
      exact hf (by simpa [Server.modifyTable] using hvisible)
    · simpa [Server.modifyTable, ht] using hvisible
  cases effect with
  | newTable name =>
      by_cases ht : t = sv.allocated
      · subst ht
        simp [Server.apply, Server.newTable, Table.visible] at h
      · exact .inl (by simpa [Server.apply, Server.newTable, ht] using h)
  | lock u =>
      refine .inl (hmodify (f := fun table => { table with tableMutex := some i }) (u := u) h ?_)
      exact id
  | unlock u =>
      refine .inl (hmodify (f := fun table => { table with tableMutex := none }) (u := u) h ?_)
      exact id
  | set u k value =>
      by_cases hset : t = u ∧ key = k
      · obtain ⟨rfl, rfl⟩ := hset
        exact .inr ⟨value, rfl⟩
      · refine .inl ?_
        by_cases ht : t = u
        · subst ht
          have hk : key ≠ k := fun hk => hset ⟨rfl, hk⟩
          simpa [Server.apply, Server.modifyTable, Table.visible_set, hk] using h
        · simpa [Server.apply, Server.modifyTable, ht] using h
  | commitChanges u =>
      exact .inl (hmodify h fun hv => by rwa [Table.commitChanges_visible] at hv)
  | rollbackChanges u =>
      refine .inl (hmodify h fun hv => ?_)
      rw [Table.visible_of_clean rfl] at hv
      simp only [Table.visible, ne_eq, Option.or_eq_none_iff, not_and]
      exact fun _ => hv
  | _ => exact .inl h

end Step

/-! ### Runs -/

/-- All that anybody has is storable. -/
structure Stored (s : State) : Prop where
  inv : Inv s
  conns : ∀ i, (s.conns i).Stocked
  tables : ∀ t, (s.server.tables t).Clean
  carried : ∀ i a, (s.conns i).pc.access = some a → Storable a.key
  keys : ∀ t key, (s.server.tables t).visible key ≠ none → Storable key

section System

variable {p : Platform} {s s' : State} {a : Turn} {turns : List Turn}

theorem stored_initial : Stored State.initial where
  inv := boot_initial.inv
  conns _ := ⟨nofun, nofun⟩
  tables _ := .empty []
  carried _ _ := nofun
  keys _ _ h := absurd rfl h

theorem Stored.step (h : Stored s) (hstep : s.step p a = some s') : Stored s' := by
  obtain ⟨effect, c', hst⟩ := h.inv.stepped hstep
  refine ⟨hst.inv h.inv, fun i => ?_, fun t => ?_, fun i x hx => ?_, fun t key hkey => ?_⟩
  · by_cases hi : i = a.conn
    · rw [hi, hst.self]
      exact hst.moves.stocked (h.conns a.conn) h.tables
    · rw [hst.other hi]
      exact h.conns i
  · rw [hst.server]
    exact apply_clean h.tables (fun _ _ _ he => hst.moves.stores (h.conns a.conn) he) t
  · by_cases hi : i = a.conn
    · rw [hi, hst.self] at hx
      rcases hst.moves.access hx with hold | ⟨line, m, -, hlen, hm, hasked⟩
      · exact h.carried _ x hold
      · exact (hasked.clean hm hlen (h.conns a.conn).stack).2
    · rw [hst.other hi] at hx
      exact h.carried i x hx
  · rw [hst.server] at hkey
    rcases apply_key hkey with hold | ⟨value, he⟩
    · exact h.keys t key hold
    · obtain ⟨table, haccess⟩ := hst.moves.sets he
      exact h.carried a.conn _ haccess

theorem stored_run (hrun : Transition.run (State.step p) State.initial turns = some s) :
    Stored s :=
  Transition.run_invariant Stored.step stored_initial hrun

/-- A string somewhere in the server: on a stack, or in one of the two maps of a table. -/
inductive State.Has (s : State) (v : Str) : Prop
  | stack {i : ConnId} (h : v ∈ (s.conns i).stack.vector)
  | committed {t : TablePtr} {key : Str} (h : (s.server.tables t).keyValue.lookup key = some v)
  | pending {t : TablePtr} {key : Str} (h : (s.server.tables t).keyValueTemp.lookup key = some v)
  | key {t : TablePtr} (h : v ∈ (s.server.tables t).keyValue ∨ v ∈ (s.server.tables t).keyValueTemp)

theorem Stored.has (h : Stored s) {v : Str} (hv : s.Has v) : Storable v := by
  cases hv with
  | @stack i hv => exact (h.conns i).stack v hv
  | @committed t key hv => exact (h.tables t).committed key v hv
  | @pending t key hv => exact (h.tables t).pending key v hv
  | @key t hv =>
      refine h.keys t v ?_
      simp only [Table.visible, ne_eq, Option.or_eq_none_iff, AList.lookup_eq_none, not_and_or,
        not_not]
      exact hv.symm

/-- TOP sends what is on top, and leaves it there. -/
theorem top_line {c : Conn} {line value resp : Str} {rest : List Str} {m : Message}
    (hin : c.loggedIn = true) (hstack : c.stack.vector = value :: rest)
    (hm : decode (cstr line) = .ok m) (htype : m.messageType = .top)
    (hresp : encode { messageType := .data, args := [value] } = .ok resp) :
    c.chatWithClient p line = { c with
      received := c.received ++ [line], sent := c.sent ++ [resp], pc := .reading } := by
  rw [chatWithClient_ok p hm]
  simp [Conn.attempt, handleRequest, htype, hin, handleTop_exec, hstack, hresp]

/--
**Every value the server holds can be sent back.**  TOP on a stack with something on it
leaves it there and sends it in a line that a client reads and decodes to just that.
-/
theorem values_sendable (hrun : Transition.run (State.step p) State.initial turns = some s) :
    (∀ v, s.Has v → v ≠ [] ∧ (∀ c ∈ v, isSpace c = false) ∧ nul ∉ v ∧ v.length ≤ 1017) ∧
    ∀ i value rest line m, s.terminated = false → (s.conns i).pc = .reading →
      (s.conns i).stack.vector = value :: rest → 0 < line.length → line.length ≤ 1023 →
      decode (cstr line) = .ok m → m.messageType = .top →
      ∃ s' resp, s.step p ⟨i, .recv line⟩ = some s' ∧
        (s'.conns i).stack = (s.conns i).stack ∧ (s'.conns i).sent = (s.conns i).sent ++ [resp] ∧
        resp.length ≤ 1023 ∧
        ∀ more buf, Receives resp more buf { messageType := .data, args := [value] } := by
  have hstored := stored_run hrun
  constructor
  · intro v hv
    have hstorable := hstored.has hv
    have hlen := hstorable.length
    unfold maxEncodedLen at hlen
    exact ⟨hstorable.value.nonempty, hstorable.value.noSpace, hstorable.noNul, by omega⟩
  · intro i value rest line m hrunning hpc hstack hpos hlen hm htype
    have hstorable : Storable value := hstored.has (.stack (i := i) (by simp [hstack]))
    obtain ⟨resp, hresp⟩ := hstorable.data
    have hin := boot_initial.loggedIn_of_stack hrun hstack
    have htop := top_line (p := p) hin hstack hm htype hresp
    obtain ⟨s', hstep, hconn⟩ := step_recv p hrunning hpc hpos hlen
    obtain ⟨hfits, hreceives⟩ := hstorable.receives hresp
    rw [htop] at hconn
    exact ⟨s', resp, hstep, by rw [hconn], by rw [hconn], hfits, hreceives⟩

end System

theorem values_sendable_pushed :
    ∃ s s' resp, Transition.run (State.step trapping) State.initial
        [⟨0, .recv (bytes "LOGIN a\n")⟩, ⟨0, .recv (bytes "PUSH 7\n")⟩] = some s ∧
      s.step trapping ⟨0, .recv (bytes "TOP\n")⟩ = some s' ∧
      (s'.conns 0).sent = (s.conns 0).sent ++ [resp] ∧
      Receives resp [] [] { messageType := .data, args := [bytes "7"] } := by
  have hpushed : (Transition.run (State.step trapping) State.initial
      [⟨0, .recv (bytes "LOGIN a\n")⟩, ⟨0, .recv (bytes "PUSH 7\n")⟩]).map
        (fun s => (s.terminated, (s.conns 0).pc, (s.conns 0).stack.vector))
          = some (false, .reading, [bytes "7"]) := by decide +kernel
  obtain ⟨s, hrun, hs⟩ := Option.map_eq_some_iff.mp hpushed
  obtain ⟨hrunning, hpc, hstack⟩ : s.terminated = false ∧ (s.conns 0).pc = .reading ∧
      (s.conns 0).stack.vector = [bytes "7"] := by simpa using hs
  obtain ⟨s', resp, hstep, -, hsent, -, hreceives⟩ := (values_sendable hrun).2 0 (bytes "7") []
    (bytes "TOP\n") { messageType := .top } hrunning hpc hstack (by decide) (by decide)
    (by decide +kernel) rfl
  exact ⟨s, s', resp, hrun, hstep, hsent, hreceives [] []⟩

end KvServer
