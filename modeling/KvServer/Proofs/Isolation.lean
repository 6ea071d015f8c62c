/-
A transaction does what its lines do to a client alone with the tables as they are now.

Other connections may do what they like between the requests of a transaction, short of making it
fail.  The history says what its GETs have found and its SETs have written; a client alone with any
store that would give the same answers is led through the same replies by the same lines
(`Isolated`), and the store of this moment is one that does.
-/
import KvServer.Proofs.Counter
import KvServer.Proofs.Scope
import KvServer.Proofs.Snapshots

namespace KvServer

/-! ### Stores by the catalogue

The store that a client alone is given has to answer as the tables did during the run. What
the history has read and written decides that; the rest of the store is free.
-/

/-- The store that has `σ` committed and the writes among `ops` pending, under the names that
`cat` has for the tables. -/
def catalogued (cat : Str → Option TablePtr) (σ : TablePtr × Str → Option Str) (ops : Ops) :
    Store where
  found name := (cat name).isSome
  committed name key := (cat name).bind fun t => σ (t, key)
  pending name key := (cat name).bind fun t => Replay.final (fun _ => none) ops (t, key)

section Catalogued

variable {cat : Str → Option TablePtr} {σ : TablePtr × Str → Option Str} {ops : Ops}
  {name key value : Str} {t : TablePtr}

theorem catalogued_visible (hname : cat name = some t) :
    (catalogued cat σ ops).visible name key = Replay.final σ ops (t, key) := by
  rw [Replay.final_eq_or]
  simp [Store.visible, catalogued, hname]

theorem catalogued_read (result : Option Str) :
    catalogued cat σ (ops ++ [.read (t, key) result]) = catalogued cat σ ops := by
  unfold catalogued
  congr 1
  funext other k
  simp only [Replay.final_append]
  rfl

theorem catalogued_write (hdistinct : ∀ other, cat other = some t → other = name)
    (hname : cat name = some t) :
    catalogued cat σ (ops ++ [.write (t, key) value])
      = (catalogued cat σ ops).write name key value := by
  unfold catalogued Store.write
  congr 1
  funext other k
  simp only [Replay.final_append]
  show (cat other).bind (fun u => Function.update (Replay.final _ ops) (t, key) (some value) (u, k)) = _
  by_cases hother : other = name
  · subst hother
    rw [Function.update_self, hname]
    show Function.update (Replay.final _ ops) (t, key) (some value) (t, k) = _
    by_cases hk : k = key
    · subst hk
      rw [Function.update_self, Function.update_self]
    · rw [Function.update_of_ne hk, Function.update_of_ne (by simp [hk]), Option.bind_some]
  · rw [Function.update_of_ne hother]
    refine Option.bind_congr fun u hu => Function.update_of_ne ?_ ..
    rintro heq
    obtain rfl : u = t := congrArg Prod.fst heq
    exact hother (hdistinct other hu)

end Catalogued

/-! ### Steps inside a transaction, on any store

So these lemmas do not speak of the tables of this moment but of any store that agrees with
what the step has found.
-/

section Settles

variable {c c' : Conn} {sv : Server} {st st' : Store} {effect : Effect} {t : TablePtr}

theorem findBody_settles {a : Access} {found : Option TablePtr} (hpc : c.pc = .findBody a)
    (hfound : st.found a.table = found.isSome) :
    { c with pc := .findUnlock a found }.settle st = c.settle st := by
  rw [Conn.settle.eq_1 c, hpc]
  show _ = Solo.access _ a
  rw [Solo.access, show (c.session st).store.found a.table = found.isSome from hfound]
  rfl

theorem trylock_settles {a : Access} (hpc : c.pc = .trylock a t) :
    (c.attempt (afterTrylock a t true)).settle st = c.settle st := by
  rw [Conn.settle.eq_1 c, hpc, attempt_settle]
  simp [afterTrylock, Conn.settle, Conn.session]

/-- A GET that finds in the store what is in the table. -/
theorem callGet_settles {name key : Str} (hpc : c.pc = .call (.get name key) t)
    (hvisible : st.visible name key = (sv.tables t).visible key) :
    (c.attempt (afterCall (.get name key) (sv.tables t))).settle st = c.settle st := by
  have hsees : (c.session st).store.visible name key = (sv.tables t).visible key := hvisible
  rw [Conn.settle.eq_1 c, hpc, attempt_settle]
  show _ = (c.session st).get name key
  rw [Solo.get, hsees]
  simp only [afterCall, ConnM.exec_bind, ConnM.exec_ofExcept]
  cases hget : (sv.tables t).get key with
  | ok value =>
      rw [Table.get_eq_ok.mp hget]
      simp [Conn.settle, Conn.session, Solo.ok, ValueStack.push]
  | error e =>
      obtain rfl := Table.get_error_text hget
      rw [Table.get_eq_error hget]
      rfl

theorem callSet_settles {name key value : Str} (hpc : c.pc = .call (.set name key value) t)
    (htx : c.inTransaction = true) (hwrite : st' = st.write name key value) :
    (c.attempt (afterCall (.set name key value) (sv.tables t))).settle st' = c.settle st := by
  rw [Conn.settle.eq_1 c, hpc, attempt_settle, hwrite]
  show _ = (c.session st).set name key value
  simp [afterCall, Conn.settle, Conn.session, Solo.ok, Solo.set, htx]

end Settles

/-! ### Lines that ask for certain tables

Look-ups in the catalogue are not in the history. A line that asks only for tables that are
there from BEGIN on finds them whenever it looks.
-/

/-- A line that creates no table, and asks for none but the named ones. -/
def Confined (names : Set Str) (line : Str) : Prop :=
  ∀ m, decode (cstr line) = .ok m → m.messageType ≠ .create ∧
    (m.messageType = .get ∨ m.messageType = .set → m.getTable ∈ names)

instance {names : Set Str} [DecidablePred (· ∈ names)] {line : Str} : Decidable (Confined names line) :=
  match hdecode : decode (cstr line) with
  | .ok m => decidable_of_iff (m.messageType ≠ .create ∧
      (m.messageType = .get ∨ m.messageType = .set → m.getTable ∈ names))
      ⟨fun h _ hm => Except.ok.inj (hdecode.symm.trans hm) ▸ h, fun h => h m hdecode⟩
  | .error _ => .isTrue fun _ hm => by cases hdecode.symm.trans hm

/-- The same of a point, with what has been found. -/
def Pc.Confined (names : Set Str) (cat : Str → Option TablePtr) : Pc → Prop
  | .createLock _ | .createBody _ | .createUnlock _ => False
  | .findLock a | .findBody a => a.table ∈ names
  | .findUnlock a found => cat a.table = found
  | .trylock a t | .call a t => cat a.table = some t
  | _ => True

section Step

variable {p : Platform} {names : Set Str} {cat : Str → Option TablePtr} {sv : Server}
  {c c' : Conn} {ch : Choice} {effect : Effect} {ops : Ops} {line : Str}
  {σ : TablePtr × Str → Option Str}

/-- A connection that is on its way out runs no transaction. -/
theorem Conn.Running.not_leave {c c' : Conn} (h : c'.Running) (hpc : c'.pc = c.leave)
    (htx : c'.inTransaction = c.inTransaction) : False := by
  obtain ⟨hopen, hloop, hclosed⟩ := h
  rw [hpc, Conn.leave, if_pos (htx.symm.trans hopen)] at hloop
  cases hloop

theorem Served.confined (h : Served p line c c') (hline : KvServer.Confined names line)
    (hopen : c'.Running) : c'.pc.Confined names cat := by
  cases h with
  | reply hresp htx hlogin hstack => trivial
  | create hm htype => exact absurd htype (hline _ hm).1
  | get hm htype => exact (hline _ hm).2 (.inl htype)
  | set hm htype hstack => exact (hline _ hm).2 (.inr htype)
  | leave hresp hleft => exact (hopen.not_leave rfl rfl).elim
  | _ => trivial

/-- What a step inside a transaction makes of the session, on any store that gives the answers of
the history. -/
structure Isolates (p : Platform) (names : Set Str) (cat : Str → Option TablePtr) (c : Conn)
    (ch : Choice) (c' : Conn) (ops ops' : Ops) : Prop where
  within : c'.pc.Confined names cat
  grows : ∀ σ, Replay.Agrees σ ops' → Replay.Agrees σ ops
  replays : ∀ σ, Replay.Agrees σ ops' →
    (c.settle (catalogued cat σ ops)).run p ch.received = c'.settle (catalogued cat σ ops')

/-- A step that makes no call on a table, and keeps what the request comes to. -/
theorem Isolates.same (hwithin : c'.pc.Confined names cat) (hreceived : ch.received = [])
    (hsettle : ∀ st, (∀ name, st.found name = (cat name).isSome) → c'.settle st = c.settle st) :
    Isolates p names cat c ch c' ops ops where
  within := hwithin
  grows _ h := h
  replays σ _ := by
    rw [hreceived]
    exact (hsettle (catalogued cat σ ops) fun _ => rfl).symm

/-- **A step inside a transaction.** -/
theorem Moves.isolates (h : Moves p sv c ch effect c') (hstep : c.step p sv ch = some (effect, c'))
    (hwf : c.WF) (hopen : c.Running) (hopen' : c'.Running) (hwithin : c.pc.Confined names cat)
    (hnames : ∀ name ∈ names, sv.findTable name = cat name)
    (hdistinct : ∀ name other t, cat name = some t → cat other = some t → other = name)
    (hline : ∀ line ∈ ch.received, KvServer.Confined names line) :
    Isolates p names cat c ch c' ops
      (opsNext (fun u => (sv.tables u).visible) ops (c.call ch effect)) := by
  have hpoint := hwf.point
  have htx : c.inTransaction = true := hopen.1
  unfold Conn.PointOk at hpoint
  cases h with
  | @request line _ hpc hpos hlen h =>
      have hcall : opsNext (fun u => (sv.tables u).visible) ops (c.call (.recv line) .none) = ops := by
        rw [opsNext_recv]
        exact if_pos htx
      rw [hcall]
      refine ⟨h.confined (hline line (List.mem_singleton_self _)) hopen', fun _ h => h, fun σ _ => ?_⟩
      obtain rfl : c' = c.chatWithClient p line := by
        simp only [Conn.step] at hstep
        split at hstep
        · exact (Prod.mk.inj (Option.some.inj hstep)).2.symm
        · cases hstep
      rw [line_settle, settle_reading hpc]
      exact Solo.run_cons rfl line []
  | eof hpc => exact (hopen'.not_leave rfl rfl).elim
  | findLock hpc hfree =>
      rw [hpc] at hwithin
      refine .same hwithin rfl fun st _ => ?_
      rw [Conn.settle.eq_1 c, hpc]
      rfl
  | @findBody a hpc =>
      rw [hpc] at hwithin
      have hfound := hnames _ hwithin
      exact .same hfound.symm rfl fun st hst => findBody_settles hpc (by rw [hst, hfound])
  | notFound hpc hresp =>
      simp only [Conn.step, Conn.go, hpc, Option.some.injEq, Prod.mk.injEq] at hstep
      refine .same trivial rfl fun st _ => ?_
      rw [← hstep.2]
      exact findUnlock_settle hpc
  | foundNew hpc htx ht =>
      simp only [Conn.step, Conn.go, hpc, Option.some.injEq, Prod.mk.injEq] at hstep
      rw [hpc] at hwithin
      refine .same hwithin rfl fun st _ => ?_
      rw [← hstep.2]
      exact findUnlock_settle hpc
  | foundLocked hpc htx ht =>
      simp only [Conn.step, Conn.go, hpc, Option.some.injEq, Prod.mk.injEq] at hstep
      rw [hpc] at hwithin
      refine .same hwithin rfl fun st _ => ?_
      rw [← hstep.2]
      exact findUnlock_settle hpc
  | foundAuto hpc hout => cases htx.symm.trans hout
  | trylock hpc hfree =>
      simp only [Conn.step, Conn.go, hpc, if_pos hfree, Option.some.injEq, Prod.mk.injEq] at hstep
      rw [hpc] at hwithin
      refine .same hwithin rfl fun st _ => ?_
      rw [← hstep.2]
      exact trylock_settles hpc
  | @callGet name key value t hpc hget =>
      simp only [Conn.step, Conn.go, hpc, Option.some.injEq, Prod.mk.injEq] at hstep
      rw [hpc] at hwithin
      refine ⟨trivial, fun _ h => (Replay.agrees_append.mp h).1, fun σ hagrees => ?_⟩
      obtain ⟨-, hread, -⟩ := Replay.agrees_append.mp hagrees
      rw [← hstep.2, show opsNext _ ops _ = ops ++ [.read (t, key) _] from rfl, catalogued_read]
      exact (callGet_settles hpc ((catalogued_visible hwithin).trans hread)).symm
  | @callGetFail name key resp t e hpc hget hresp =>
      simp only [Conn.step, Conn.go, hpc, Option.some.injEq, Prod.mk.injEq] at hstep
      rw [hpc] at hwithin
      refine ⟨trivial, fun _ h => (Replay.agrees_append.mp h).1, fun σ hagrees => ?_⟩
      obtain ⟨-, hread, -⟩ := Replay.agrees_append.mp hagrees
      rw [← hstep.2, show opsNext _ ops _ = ops ++ [.read (t, key) _] from rfl, catalogued_read]
      exact (callGet_settles hpc ((catalogued_visible hwithin).trans hread)).symm
  | @callSet name key value t hpc =>
      simp only [Conn.step, Conn.go, hpc, Option.some.injEq, Prod.mk.injEq] at hstep
      rw [hpc] at hwithin
      refine ⟨trivial, fun _ h => (Replay.agrees_append.mp h).1, fun σ _ => ?_⟩
      rw [← hstep.2]
      exact (callSet_settles hpc htx (catalogued_write
        (fun other hother => hdistinct name other t hwithin hother) hwithin)).symm
  | conflict hpc hheld => cases hopen'.2.1
  | createLock hpc | createExists hpc | createNew hpc | createUnlock hpc =>
      rw [hpc] at hwithin
      exact hwithin.elim
  | guardLock hpc | guardGet hpc | guardGetFail hpc | guardSet hpc | guardCommit hpc =>
      rw [hpc] at hpoint
      cases htx.symm.trans hpoint
  | guardUnlock hpc hresp =>
      rw [hpc] at hpoint
      cases htx.symm.trans hpoint.1
  | visit hpc | release hpc | finishCommit hpc | finishAbort hpc | finishCrash hpc
    | finishDestroy hpc =>
      have hloop := hopen.2.1
      rw [hpc] at hloop
      cases hloop

end Step

/-! ### Since BEGIN

The invariant of a transaction: its lines so far lead a client alone from its BEGIN to where
it is now, on every store that agrees with its history.
-/

/-- How far a transaction has got that began at `c₀`: what it has read comes to the same on any
store that gives the answers it has had. -/
structure Isolated (p : Platform) (names : Set Str) (cat : Str → Option TablePtr) (c₀ c : Conn)
    (ops : Ops) : Prop where
  within : c.pc.Confined names cat
  replays : ∃ lines, c.received = c₀.received ++ lines ∧ ∀ σ, Replay.Agrees σ ops →
    (c₀.session (catalogued cat σ [])).run p lines = c.settle (catalogued cat σ ops)

theorem Isolated.step {p : Platform} {names : Set Str} {cat : Str → Option TablePtr}
    {c₀ c c' : Conn} {ch : Choice} {ops ops' : Ops} (h : Isolated p names cat c₀ c ops)
    (hstep : Isolates p names cat c ch c' ops ops')
    (hreceived : c'.received = c.received ++ ch.received) : Isolated p names cat c₀ c' ops' := by
  obtain ⟨lines, hlines, hreplays⟩ := h.replays
  refine ⟨hstep.within, lines ++ ch.received, ?_, fun σ hagrees => ?_⟩
  · rw [hreceived, hlines, List.append_assoc]
  · rw [Solo.run_append, hreplays σ (hstep.grows σ hagrees)]
    exact hstep.replays σ hagrees

/-- Connection `i` is in a transaction, and asks for none but the named tables. -/
def State.Transacts (names : Set Str) (i : ConnId) (s : State) (a : Turn) : Prop :=
  (s.conns i).Running ∧ (a.conn = i → ∀ line ∈ a.choice.received, Confined names line)

instance {names : Set Str} [DecidablePred (· ∈ names)] {i : ConnId} {s : State} {a : Turn} :
    Decidable (s.Transacts names i a) :=
  inferInstanceAs (Decidable (_ ∧ _))

section System

variable {p : Platform} {names : Set Str} {cat : Str → Option TablePtr} {i : ConnId} {c₀ : Conn}
  {s₀ s₁ s₂ s s' : State} {h h' : History} {a : Turn} {turns : List Turn}
  {σ : TablePtr × Str → Option Str}

/-- **A turn keeps it so**, whoever's it is. -/
theorem Isolated.turn (hi : Isolated p names cat c₀ (s.conns i) (h.session i).ops)
    (hr : Recorded σ s h) (htransacts : s.Transacts names i a)
    (hnames : ∀ name ∈ names, s.server.findTable name = cat name)
    (hdistinct : ∀ name other t, cat name = some t → cat other = some t → other = name)
    (hstep : Transition.recorded (State.step p) (noteHistory p) (s, h) a = some (s', h'))
    (hrunning : (s'.conns i).Running) :
    Isolated p names cat c₀ (s'.conns i) (h'.session i).ops := by
  obtain ⟨hturn, rfl⟩ := Transition.recorded_eq_some.mp hstep
  obtain ⟨effect, c', hst⟩ := hr.inv.stepped hturn
  rw [hst.history]
  by_cases hia : a.conn = i
  · subst hia
    have hview : s'.abs.view a.conn = .inside (s'.conns a.conn).lockedTables :=
      ((hst.inv hr.inv).wf a.conn).running_iff.mp hrunning
    rw [TwoPhase.note_session_self, TwoPhase.ends_of_inside hview, if_neg (by simp),
      note_ops hst.tells]
    rw [hst.self] at hrunning ⊢
    exact hi.step (hst.moves.isolates hst.runs (hr.inv.wf _) htransacts.1 hrunning hi.within hnames
      hdistinct (htransacts.2 rfl)) hst.moves.received
  · have hne : i ≠ a.conn := fun heq => hia heq.symm
    rw [TwoPhase.note_session_other hne, hst.other hne]
    exact hi

theorem Inv.found_along (hinv : Inv s₂) (hrun : Transition.run (State.step p) s₂ turns = some s)
    {name : Str} {t : TablePtr} (ht : s₂.server.findTable name = some t) :
    s.server.findTable name = some t := by
  refine (Transition.run_invariant (I := fun m => Inv m ∧ m.server.findTable name = some t) ?_
    ⟨hinv, ht⟩ hrun).2
  rintro m a m' ⟨hm, hfound⟩ hstep
  obtain ⟨effect, c', hst⟩ := hm.stepped hstep
  exact ⟨hst.inv hm, hst.findTable hfound⟩

/-- A name that means the same before and after a run meant the same in between. -/
theorem Inv.names_along (hinv : Inv s₂) (hrun : Transition.run (State.step p) s₂ turns = some s)
    (hnames : ∀ name ∈ names, s.server.findTable name = s₂.server.findTable name) :
    Transition.Along (State.step p)
      (fun m _ => ∀ name ∈ names, m.server.findTable name = s.server.findTable name) s₂ turns := by
  refine (Transition.along_reaches hrun).of_invariant
    (I := fun m => Inv m ∧ ∀ name t, s₂.server.findTable name = some t →
      m.server.findTable name = some t) ⟨hinv, fun _ _ h => h⟩ ?_ ?_
  · rintro m a m' ⟨hm, hfound⟩ - hstep
    obtain ⟨effect, c', hst⟩ := hm.stepped hstep
    exact ⟨hst.inv hm, fun name t ht => hst.findTable (hfound name t ht)⟩
  · rintro m a ⟨hm, hfound⟩ ⟨rest, hrest⟩ name hname
    rw [hnames name hname]
    cases hbefore : s₂.server.findTable name with
    | some t => exact hfound name t hbefore
    | none =>
        cases hm' : m.server.findTable name with
        | none => rfl
        | some t =>
            have hlate := hm.found_along hrest hm'
            rw [hnames name hname, hbefore] at hlate
            cases hlate

/-- The turn that begins a transaction. -/
theorem Recorded.begins (hr : Recorded σ s h) (hout : (s.conns i).inTransaction = false)
    (hin : (s'.conns i).inTransaction = true)
    (hstep : Transition.recorded (State.step p) (noteHistory p) (s, h) a = some (s', h')) :
    (s'.conns i).pc = .reading ∧ (h'.session i).ops = [] := by
  obtain ⟨hturn, rfl⟩ := Transition.recorded_eq_some.mp hstep
  obtain ⟨effect, c', hst⟩ := hr.inv.stepped hturn
  obtain rfl : a.conn = i := by
    by_contra hia
    rw [hst.other fun heq => hia heq.symm, hout] at hin
    cases hin
  rw [hst.self] at hin ⊢
  have hmoves := hst.moves
  obtain ⟨line, hch, hpc⟩ : ∃ line, a.choice = .recv line ∧ c'.pc = .reading := by
    generalize a.choice = ch at hmoves
    cases hmoves with
    | @request line _ hpc hpos hlen h =>
        refine ⟨line, rfl, ?_⟩
        cases h with
        | reply hresp htx hlogin hstack => rfl
        | _ => cases hout.symm.trans hin
    | finishCommit | finishAbort | finishCrash => cases hin
    | _ => cases hout.symm.trans hin
  refine ⟨hpc, ?_⟩
  have hcall : s.call a effect = .arrive := by
    unfold State.call Conn.call
    rw [hch]
    exact if_neg (by simp [hout])
  rw [hst.history, TwoPhase.note_session_self, hcall]
  split <;> rfl

end System

/-! ### The tables at a moment

The store of this moment agrees with the history of an open transaction, since nobody else has
written to the tables it has locked.
-/

/-- What counts: what is committed, with what COMMITs under way have decided on. -/
def State.current (s : State) : Store where
  found name := (s.server.findTable name).isSome
  committed name key := (s.server.findTable name).bind fun t => s.abs.logical t key
  pending _ _ := none

/-- The same, with what connection `i` has written. -/
def State.seen (s : State) (i : ConnId) : Store :=
  { s.current with
    pending := fun name key =>
      (s.server.findTable name).bind fun t => (s.server.tables t).written i key }

section Moment

variable {p : Platform} {names : Set Str} {i : ConnId} {s₀ s₁ s₂ s s' : State} {h h' : History}
  {a : Turn} {before turns : List Turn} {line : Str} {σ : TablePtr × Str → Option Str}

theorem current_eq (s : State) : s.current = catalogued s.server.findTable s.abs.data [] := by
  unfold State.current catalogued
  congr 1
  funext name key
  cases s.server.findTable name <;> rfl

theorem Watched.seen_eq (hw : Watched σ s h) (hrunning : (s.conns i).Running) :
    s.seen i = catalogued s.server.findTable s.abs.data (h.session i).ops := by
  have hview := hw.recorded.view_inside hrunning
  refine Store.ext rfl rfl (funext₂ fun name key => Option.bind_congr fun t _ => ?_)
  unfold Table.written
  by_cases ht : t ∈ (s.conns i).lockedTables
  · have hmutex : (s.server.tables t).tableMutex = some i :=
      hw.recorded.inv.mutex.mpr (by rw [show (s.conns i).view = _ from hview]; exact ht)
    rw [if_pos hmutex]
    exact hw.own i _ hview t ht key
  · have hmutex : (s.server.tables t).tableMutex ≠ some i := fun hmutex => by
      have hheld := hw.recorded.inv.mutex.mp hmutex
      rw [show (s.conns i).view = _ from hview] at hheld
      exact ht hheld
    rw [if_neg hmutex]
    exact ((hw.recorded.sessions.inside i _ hview).outside ht (fun _ => none) key).symm

/-- Connection `i` has been in one transaction from `s₂`, right after its BEGIN, to `s`. -/
structure Within (p : Platform) (names : Set Str) (i : ConnId) (s₁ : State) (a : Turn) (s₂ : State)
    (turns : List Turn) (s : State) : Prop where
  out : (s₁.conns i).inTransaction = false
  begins : s₁.step p a = some s₂
  entered : (s₂.conns i).inTransaction = true
  run : Transition.run (State.step p) s₂ turns = some s
  transacts : Transition.Along (State.step p) (State.Transacts names i) s₂ turns
  running : (s.conns i).Running
  /-- The tables it asks for are those of the moment of its BEGIN. -/
  names : ∀ name ∈ names, s.server.findTable name = s₂.server.findTable name

/-- How far the transaction has got. -/
theorem Within.isolated (hw : Within p names i s₁ a s₂ turns s) (hboot : Boot s₀)
    (hdistinct : s₀.server.Distinct) (hbefore : Transition.run (State.step p) s₀ before = some s₁) :
    ∃ h, Watched s₀.committed s h ∧
      Isolated p names s.server.findTable (s₂.conns i) (s.conns i) (h.session i).ops := by
  obtain ⟨h₁, hrun₁⟩ : ∃ h₁, Transition.run
      (Transition.recorded (State.step p) (noteHistory p)) (s₀, {}) before = some (s₁, h₁) :=
    Transition.exists_recorded ({} : History) hbefore
  have hwatched₁ := hboot.watched_run hrun₁
  have hstep : Transition.recorded (State.step p) (noteHistory p) (s₁, h₁) a
      = some (s₂, noteHistory p s₁ a s₂ h₁) := Transition.recorded_eq_some.mpr ⟨hw.begins, rfl⟩
  have hwatched₂ := hwatched₁.step hstep
  obtain ⟨hpc, hops⟩ := hwatched₁.recorded.begins hw.out hw.entered hstep
  obtain ⟨h, hrun⟩ : ∃ h, Transition.run (Transition.recorded (State.step p) (noteHistory p))
      (s₂, noteHistory p s₁ a s₂ h₁) turns = some (s, h) :=
    Transition.exists_recorded (noteHistory p s₁ a s₂ h₁) hw.run
  have hwhole : Transition.run (State.step p) s₀ (before ++ a :: turns) = some s :=
    Transition.run_append_eq_some.mpr
      ⟨s₁, hbefore, Transition.run_cons_eq_some.mpr ⟨s₂, hw.begins, hw.run⟩⟩
  have hfinal := hboot.distinct_run hdistinct hwhole
  have hbase : Isolated p names s.server.findTable (s₂.conns i) (s₂.conns i)
      ((noteHistory p s₁ a s₂ h₁).session i).ops := by
    refine ⟨by rw [hpc]; trivial, [], (List.append_nil _).symm, fun σ _ => ?_⟩
    rw [hops, settle_reading hpc]
    rfl
  have halong := (hw.transacts.and
    ((hw.transacts.mono fun _ _ h => h.1).next hw.run hw.running)).and
      (hwatched₂.recorded.inv.names_along hw.run hw.names)
  refine ⟨h, Transition.along_invariant (I := fun x : State × History => Watched s₀.committed x.1 x.2 ∧
    Isolated p names s.server.findTable (s₂.conns i) (x.1.conns i) (x.2.session i).ops) ?_
    ⟨hwatched₂, hbase⟩ (Transition.along_recorded halong) hrun⟩
  rintro ⟨m, k⟩ b ⟨m', k'⟩ ⟨hm, hi⟩ ⟨⟨htransacts, hnext⟩, hnames⟩ hb
  exact ⟨hm.step hb, hi.turn hm.recorded htransacts hnames
    (fun name other t hname hother => hfinal other name t hother hname) hb
    (hnext m' (Transition.recorded_eq_some.mp hb).1)⟩

/--
**A transaction is isolated.**  At any moment between its BEGIN and its COMMIT, whatever the other
connections have been doing in between, its requests have come to what they come to for a client
alone that sends them all now: the answers, the stack and what it is about to write.
-/
theorem transaction_isolated (hboot : Boot s₀) (hdistinct : s₀.server.Distinct)
    (hbefore : Transition.run (State.step p) s₀ before = some s₁)
    (hw : Within p names i s₁ a s₂ turns s) :
    ∃ lines, (s.conns i).received = (s₂.conns i).received ++ lines ∧
      (s.conns i).settle (s.seen i) = ((s₂.conns i).session s.current).run p lines := by
  obtain ⟨h, hwatched, hisolated⟩ := hw.isolated hboot hdistinct hbefore
  obtain ⟨lines, hlines, hreplays⟩ := hisolated.replays
  have hview := hwatched.recorded.view_inside hw.running
  refine ⟨lines, hlines, ?_⟩
  rw [current_eq, hreplays _ (hwatched.recorded.sessions.inside i _ hview).agrees,
    hwatched.seen_eq hw.running]

/-- The turn that reads COMMIT. -/
theorem Stepped.commits {effect : Effect} {c' : Conn} (hst : Stepped p s a effect c' s')
    (hrunning : (s.conns a.conn).Running)
    (hcommits : c'.pc.loop = some .commit) :
    ∃ line, a.choice = .recv line ∧ (s.conns a.conn).pc = .reading ∧ effect = .none ∧
      c' = (s.conns a.conn).chatWithClient p line ∧
      c'.pc = .ending .commit (s.conns a.conn).lockedTables ∧
      c'.lockedTables = (s.conns a.conn).lockedTables := by
  have hloop := hrunning.2.1
  have hruns := hst.runs
  have hmoves := hst.moves
  generalize a.choice = ch at hmoves hruns
  cases hmoves with
  | @request line _ hpc hpos hlen h =>
      simp only [Conn.step, if_pos (And.intro hpc (And.intro hpos hlen)), Option.some.injEq,
        Prod.mk.injEq] at hruns
      refine ⟨line, rfl, hpc, rfl, hruns.2.symm, ?_⟩
      cases h with
      | commit hm htype htx => exact ⟨rfl, rfl⟩
      | leave hresp hleft =>
          simp only [Conn.leave] at hcommits
          split at hcommits <;> cases hcommits
      | _ => cases hcommits
  | eof hpc =>
      simp only [Conn.leave] at hcommits
      split at hcommits <;> cases hcommits
  | visit hpc | release hpc =>
      rw [hpc] at hloop
      cases hloop
  | _ => cases hcommits

/-- At the COMMIT, what the transaction's requests come to is what counts from then on. -/
theorem Within.takes_effect (hboot : Boot s₀) (hdistinct : s₀.server.Distinct)
    (hbefore : Transition.run (State.step p) s₀ before = some s₁)
    (hw : Within p names i s₁ a s₂ turns s) {b : Turn} (hb : b.conn = i)
    (hstep : s.step p b = some s') (hcommits : (s'.conns i).pc.loop = some .commit) :
    ∃ lines st, (s'.conns i).received = (s₂.conns i).received ++ lines ∧
      ((s₂.conns i).session s.current).run p lines = (s'.conns i).settle st ∧
      s'.current = st.commit ∧ (s'.conns i).pc = .ending .commit (s.conns i).lockedTables := by
  subst hb
  obtain ⟨h, hwatched, hisolated⟩ := hw.isolated hboot hdistinct hbefore
  obtain ⟨lines, hlines, hreplays⟩ := hisolated.replays
  have hinv := hwatched.recorded.inv
  have hview := hwatched.recorded.view_inside hw.running
  have hops := hwatched.recorded.sessions.inside b.conn _ hview
  obtain ⟨effect, c', hst⟩ := hinv.stepped hstep
  rw [hst.self] at hcommits ⊢
  obtain ⟨line, hch, hpc, rfl, hc', hpc', hlocked⟩ := hst.commits hw.running hcommits
  have hreceived := hst.moves.received
  rw [hch] at hreceived
  refine ⟨lines ++ [line], catalogued s.server.findTable s.abs.data (h.session b.conn).ops,
    by rw [hreceived, hlines, List.append_assoc]; rfl, ?_, ?_, hpc'⟩
  · rw [Solo.run_append, current_eq s, hreplays _ hops.agrees, settle_reading hpc,
      Solo.run_cons rfl]
    show Solo.line p _ line = _
    rw [← line_settle, ← hc']
  -- the data that counts afterwards
  · have hview' : s'.abs.view b.conn = .ending true (s.conns b.conn).lockedTables
        (s.conns b.conn).lockedTables := by
      show (s'.conns b.conn).view = _
      rw [hst.self, Conn.view, hpc', hlocked]
      rfl
    have hlogical := (hst.refines hinv).logical_commit hinv.protocol hview hview'
    have hfind : ∀ name, s'.server.findTable name = s.server.findTable name := fun name => by
      rw [hst.server]
      rfl
    refine Store.ext (funext fun name => congrArg Option.isSome (hfind name))
      (funext₂ fun name key => ?_) rfl
    show (s'.server.findTable name).bind _ = Store.visible _ name key
    rw [hfind]
    cases hname : s.server.findTable name with
    | none => simp [Store.visible, catalogued, hname]
    | some t =>
        rw [catalogued_visible hname, Option.bind_some, hlogical t]
        by_cases ht : t ∈ (s.conns b.conn).lockedTables
        · rw [if_pos ht, hops.final t ht key]
        · rw [if_neg ht]
          exact (hops.outside ht s.abs.data key).symm

/--
**A transaction takes effect at once**, when its COMMIT is read: the tables count from then on as
a client alone leaves them that sends all its requests, from BEGIN to COMMIT, at this moment.
-/
theorem transaction_atomic (hboot : Boot s₀) (hdistinct : s₀.server.Distinct)
    (hbefore : Transition.run (State.step p) s₀ before = some s₁)
    (hw : Within p names i s₁ a s₂ turns s) {b : Turn} (hb : b.conn = i)
    (hstep : s.step p b = some s') (hcommits : (s'.conns i).pc.loop = some .commit) :
    ∃ lines, (s'.conns i).received = (s₂.conns i).received ++ lines ∧
      ((s₂.conns i).session s.current).run p lines
        = { (s'.conns i).session s'.current with inTransaction := false }.ok := by
  obtain ⟨lines, st, hlines, hrun, hcurrent, hpc⟩ :=
    hw.takes_effect hboot hdistinct hbefore hb hstep hcommits
  refine ⟨lines, hlines, ?_⟩
  rw [hrun, Conn.settle.eq_1, hpc, hcurrent]
  rfl

end Moment

/-- Connection 0 writes a key of its table in a transaction and reads it back, while connection 1
makes another table. -/
def shared : List Turn :=
  [⟨0, .recv (bytes "PUSH 7\n")⟩, ⟨1, .recv (bytes "LOGIN b\n")⟩, ⟨0, .recv (bytes "SET t k\n")⟩,
    ⟨0, .go⟩, ⟨0, .go⟩, ⟨0, .go⟩, ⟨1, .recv (bytes "CREATE u\n")⟩, ⟨0, .go⟩, ⟨1, .go⟩, ⟨1, .go⟩,
    ⟨0, .go⟩, ⟨0, .recv (bytes "GET t k\n")⟩, ⟨1, .go⟩, ⟨0, .go⟩, ⟨0, .go⟩, ⟨0, .go⟩, ⟨0, .go⟩]

theorem shared_within :
    ∃ s₁ s₂ s s', Transition.run (State.step ⟨fun _ _ _ => none⟩) State.initial (rereads.take 5)
        = some s₁ ∧
      Within ⟨fun _ _ _ => none⟩ {bytes "t"} 0 s₁ ⟨0, .recv (bytes "BEGIN\n")⟩ s₂ shared s ∧
      s.step ⟨fun _ _ _ => none⟩ ⟨0, .recv (bytes "COMMIT\n")⟩ = some s' ∧
      (s'.conns 0).pc.loop = some .commit := by
  have hdone : ((Transition.run (State.step ⟨fun _ _ _ => none⟩) State.initial
      (rereads.take 5)).bind fun s₁ =>
        (s₁.step ⟨fun _ _ _ => none⟩ ⟨0, .recv (bytes "BEGIN\n")⟩).bind fun s₂ =>
        (Transition.run (State.step ⟨fun _ _ _ => none⟩) s₂ shared).bind fun s =>
        (s.step ⟨fun _ _ _ => none⟩ ⟨0, .recv (bytes "COMMIT\n")⟩).map fun s' =>
          decide ((s₁.conns 0).inTransaction = false ∧ (s₂.conns 0).inTransaction = true ∧
            Transition.Along (State.step ⟨fun _ _ _ => none⟩)
              (State.Transacts {bytes "t"} 0) s₂ shared ∧
            (s.conns 0).Running ∧
            s.server.findTable (bytes "t") = s₂.server.findTable (bytes "t") ∧
            (s'.conns 0).pc.loop = some .commit)) = some true := by
    decide +kernel
  obtain ⟨s₁, hbefore, hrest⟩ := Option.bind_eq_some_iff.mp hdone
  obtain ⟨s₂, hbegins, hrest⟩ := Option.bind_eq_some_iff.mp hrest
  obtain ⟨s, hrun, hrest⟩ := Option.bind_eq_some_iff.mp hrest
  obtain ⟨s', hcommit, hrest⟩ := Option.map_eq_some_iff.mp hrest
  obtain ⟨hout, hin, halong, hrunning, hname, hloop⟩ := of_decide_eq_true hrest
  refine ⟨s₁, s₂, s, s', hbefore, ⟨hout, hbegins, hin, hrun, halong, hrunning, ?_⟩, hcommit, hloop⟩
  rintro name rfl
  exact hname

theorem transaction_isolated_shared :
    ∃ (s s₂ : State) (lines : List Str), (s.conns 0).received = (s₂.conns 0).received ++ lines ∧
      (s.conns 0).settle (s.seen 0)
        = ((s₂.conns 0).session s.current).run ⟨fun _ _ _ => none⟩ lines := by
  obtain ⟨s₁, s₂, s, s', hbefore, hw, -⟩ := shared_within
  obtain ⟨lines, hlines, hsettle⟩ :=
    transaction_isolated boot_initial distinct_initial hbefore hw
  exact ⟨s, s₂, lines, hlines, hsettle⟩

theorem transaction_atomic_shared :
    ∃ (s₂ s s' : State) (lines : List Str), (s'.conns 0).received = (s₂.conns 0).received ++ lines ∧
      ((s₂.conns 0).session s.current).run ⟨fun _ _ _ => none⟩ lines
        = { (s'.conns 0).session s'.current with inTransaction := false }.ok := by
  obtain ⟨s₁, s₂, s, s', hbefore, hw, hcommit, hloop⟩ := shared_within
  obtain ⟨lines, hlines, hrun⟩ :=
    transaction_atomic boot_initial distinct_initial hbefore hw rfl hcommit hloop
  exact ⟨s₂, s, s', lines, hlines, hrun⟩

end KvServer
