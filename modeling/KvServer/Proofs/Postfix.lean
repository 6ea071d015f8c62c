/-
Evaluating an expression on the server.

The postorder of an expression leaves its value on top of whatever was on the stack: by
induction on the expression, since the operands of an operation are then the two topmost
values, the right one first.  An operation is written back as `to_string` spells it, and
`stoi` reads that like any other spelling.
-/
import KvServer.Proofs.Alone
import KvServer.Spec.Expr

namespace KvServer

section Session

variable {p : Platform} {σ : Solo} {sees : Str → Str → Option Str} {e : Expr} {v : Int}
  {lines : List Str}

/-- The tables show what `sees` says, as far as it goes. -/
def Store.Shows (st : Store) (sees : Str → Str → Option Str) (scope : Scope) : Prop :=
  ∀ name key text, (name, key) ∈ scope → sees name key = some text →
    st.found name = true ∧ st.visible name key = some text

/-- Lines that decode to these requests. -/
def Asks (lines : List Str) (ms : List Message) : Prop :=
  lines.map (fun line => decode (cstr line)) = ms.map .ok

/-- A value on top, and an OK for each request. -/
def Solo.leaves (σ : Solo) (text : Str) (n : Nat) : Solo :=
  { σ with stack := text :: σ.stack, sent := σ.sent ++ List.replicate n okLine }

theorem Asks.one {m : Message} (h : Asks lines [m]) :
    ∃ line, lines = [line] ∧ decode (cstr line) = .ok m := by
  obtain ⟨line, rfl, hm⟩ := List.map_eq_singleton_iff.mp h
  exact ⟨line, rfl, hm⟩

theorem Asks.split {ms ms' : List Message} (h : Asks lines (ms ++ ms')) :
    ∃ lines₁ lines₂, lines = lines₁ ++ lines₂ ∧ Asks lines₁ ms ∧ Asks lines₂ ms' := by
  unfold Asks at h
  rw [List.map_append] at h
  obtain ⟨lines₁, lines₂, rfl, h₁, h₂⟩ := List.map_eq_append_iff.mp h
  exact ⟨lines₁, lines₂, rfl, h₁, h₂⟩

/-- An operation on two values. -/
theorem op_leaves {o : ArithOp} {line left right : Str} {l r : Int} {rest : List Str}
    (hin : σ.loggedIn = true) (hm : decode (cstr line) = .ok { messageType := o.messageType })
    (hstack : σ.stack = right :: left :: rest) (hl : stoi left = .ok l) (hr : stoi right = .ok r)
    (hdiv : ¬ (o = .div ∧ r = 0)) (hv : InInt (o.exact l r)) :
    σ.line p line = { σ with stack := toString (o.exact l r) :: rest, sent := σ.sent ++ [okLine] } := by
  have hrequest : σ.line p line = σ.arithmetic p o := by
    rw [Solo.line, hm]
    cases o <;> simp [Solo.request, ArithOp.messageType, hin]
  have hresult : Solo.result p o left right = .ok (o.exact l r) := by
    simp [Solo.result, operandValue, hl, hr, hdiv, arith, hv]
  rw [hrequest, Solo.arithmetic, hstack]
  simp only [hresult]
  rfl

/-- **The postorder leaves the value.** -/
theorem postorder_leaves (he : e.Evaluates sees v) (hlive : σ.status = .live)
    (hin : σ.loggedIn = true) (hshows : σ.store.Shows sees e.cells)
    (hlines : Asks lines e.postorder) :
    σ.run p lines = σ.leaves (e.spelling sees v) lines.length := by
  induction he generalizing σ lines with
  | lit htext hv =>
      obtain ⟨line, rfl, hm⟩ := hlines.one
      simp [Solo.run, hlive, Solo.line, hm, Solo.request, hin, Solo.ok, Solo.leaves, Expr.spelling,
        Message.getValue]
  | cell hsees htext hv =>
      obtain ⟨line, rfl, hm⟩ := hlines.one
      obtain ⟨hfound, hvisible⟩ := hshows _ _ _ (Set.mem_singleton _) hsees
      simp [Solo.run, hlive, Solo.line, hm, Solo.request, hin, Message.getTable, Message.getKey,
        Solo.access,
        Access.table, hfound, Solo.reach, Solo.get, hvisible, Solo.ok, Solo.leaves, Expr.spelling,
        hsees]
  | @op o left right l r hleft hright hdiv hv ihleft ihright =>
      obtain ⟨operands, last, rfl, hoperands, hlast⟩ := Asks.split hlines
      obtain ⟨lines₁, lines₂, rfl, h₁, h₂⟩ := hoperands.split
      obtain ⟨line, rfl, hm⟩ := hlast.one
      have hafter₁ := ihleft hlive hin (fun _ _ _ hloc => hshows _ _ _ (.inl hloc)) h₁
      have hafter₂ := ihright
        (show (σ.leaves (left.spelling sees l) lines₁.length).status = .live from hlive) hin
        (fun _ _ _ hloc => hshows _ _ _ (.inr hloc)) h₂
      rw [Solo.run_append, Solo.run_append, hafter₁, hafter₂]
      rw [Solo.run_cons (by exact hlive), op_leaves (by exact hin) hm (by rfl)
        (stoi_spells hleft.spells hleft.inInt) (stoi_spells hright.spells hright.inInt) hdiv hv]
      simp [Solo.run, Solo.leaves, Expr.spelling, ← List.replicate_append_replicate]

theorem postorder_types {m : Message} (h : m ∈ e.postorder) :
    (∃ text, m = { messageType := .push, args := [text] }) ∨
      (∃ table key, m = { messageType := .get, args := [table, key] } ∧ (table, key) ∈ e.cells) ∨
      ∃ o : ArithOp, m = { messageType := o.messageType } := by
  induction e with
  | lit text =>
      obtain rfl := List.mem_singleton.mp h
      exact .inl ⟨text, rfl⟩
  | cell table key =>
      obtain rfl := List.mem_singleton.mp h
      exact .inr (.inl ⟨table, key, rfl, rfl⟩)
  | op o left right ihleft ihright =>
      rcases List.mem_append.mp h with h | h
      · rcases List.mem_append.mp h with h | h
        · rcases ihleft h with h | ⟨table, key, hm, hloc⟩ | h
          · exact .inl h
          · exact .inr (.inl ⟨table, key, hm, .inl hloc⟩)
          · exact .inr (.inr h)
        · rcases ihright h with h | ⟨table, key, hm, hloc⟩ | h
          · exact .inl h
          · exact .inr (.inl ⟨table, key, hm, .inr hloc⟩)
          · exact .inr (.inr h)
      · exact .inr (.inr ⟨o, List.mem_singleton.mp h⟩)

theorem Asks.mem {line : Str} {ms : List Message} (h : Asks lines ms) (hline : line ∈ lines) :
    ∃ m ∈ ms, decode (cstr line) = .ok m := by
  have hmem : decode (cstr line) ∈ ms.map .ok :=
    h ▸ List.mem_map.mpr ⟨line, hline, rfl⟩
  obtain ⟨m, hm, heq⟩ := List.mem_map.mp hmem
  exact ⟨m, hm, heq.symm⟩

theorem postorder_admits (hlines : Asks lines e.postorder) :
    ∀ line ∈ lines, Scope.Admits e.cells line := by
  intro line hline m' hm'
  obtain ⟨m, hmem, hm⟩ := hlines.mem hline
  obtain rfl := Except.ok.inj (hm.symm.trans hm')
  rcases postorder_types hmem with ⟨text, rfl⟩ | ⟨table, key, rfl, hloc⟩ | ⟨o, rfl⟩
  · exact ⟨nofun, nofun⟩
  · exact ⟨nofun, fun _ => hloc⟩
  · cases o <;> exact ⟨nofun, nofun⟩

end Session

/-! ### Nothing is written

The requests of an expression read tables and push, so no turn of the connection changes a
table, and the values of the cells stay what they are.
-/

/-- The catalogue and the tables are the same, but for who has them locked. -/
structure Server.SameTables (sv sv' : Server) : Prop where
  catalogue : sv'.setOfTable = sv.setOfTable
  committed : ∀ t, (sv'.tables t).keyValue = (sv.tables t).keyValue
  pending : ∀ t, (sv'.tables t).keyValueTemp = (sv.tables t).keyValueTemp

/-- A connection that has nothing to write. -/
def Pc.Reads : Pc → Prop
  | .findLock a | .findBody a | .findUnlock a _ => ∃ table key, a = .get table key
  | .trylock a _ | .call a _ | .guardLock a _ | .guardCall a _ => ∃ table key, a = .get table key
  | .reading | .guardUnlock _ _ | .terminated => True
  | _ => False

section Reads

variable {p : Platform} {sv : Server} {c c' : Conn} {ch : Choice} {effect : Effect}

theorem Server.SameTables.refl (sv : Server) : sv.SameTables sv := ⟨rfl, fun _ => rfl, fun _ => rfl⟩

theorem sameTables_mutex (t : TablePtr) (owner : Option ConnId) :
    sv.SameTables (sv.modifyTable t fun table => { table with tableMutex := owner }) where
  catalogue := rfl
  committed u := by
    by_cases hu : u = t
    · simp [Server.modifyTable, hu]
    · simp [Server.modifyTable, hu]
  pending u := by
    by_cases hu : u = t
    · simp [Server.modifyTable, hu]
    · simp [Server.modifyTable, hu]

/-- A request that changes no table, and no transaction. -/
def Message.Plain (m : Message) : Prop :=
  m.messageType ≠ .create ∧ m.messageType ≠ .set ∧ m.messageType ≠ .begin ∧ m.messageType ≠ .commit

theorem Served.reads {line : Str} (h : Served p line c c')
    (hplain : ∃ m, decode (cstr line) = .ok m ∧ m.Plain) (hstays : c'.pc.gone = false) :
    c'.pc.Reads := by
  obtain ⟨m, hm, hcreate, hset, hbegin, hcommit⟩ := hplain
  have hsame : ∀ {m' : Message}, decode (cstr line) = .ok m' → m' = m := fun hm' =>
    Except.ok.inj (hm'.symm.trans hm)
  cases h with
  | reply hresp htx hlogin hstack => trivial
  | create hm' htype => exact absurd (hsame hm' ▸ htype) hcreate
  | get hm' htype => exact ⟨_, _, rfl⟩
  | set hm' htype hstack => exact absurd (hsame hm' ▸ htype) hset
  | commit hm' htype htx => exact absurd (hsame hm' ▸ htype) hcommit
  | nested hm' htype htx => exact absurd (hsame hm' ▸ htype) hbegin
  | leave hresp hleft => cases (leave_gone c).symm.trans hstays
  | trap hm' htype htrap hstack => trivial

/-- **It writes nothing and goes on reading**, if no `trylock` fails and it does not hang up. -/
theorem Moves.reads (h : Moves p sv c ch effect c') (hc : c.pc.Reads)
    (hfree : ∀ x t, c.pc = .trylock x t → (sv.tables t).tableMutex = none)
    (hplain : ∀ line, ch = .recv line → ∃ m, decode (cstr line) = .ok m ∧ m.Plain)
    (hstays : c'.pc.gone = false) (i : ConnId) :
    c'.pc.Reads ∧ sv.SameTables (sv.apply i effect) := by
  cases h with
  | request hpc hpos hlen h => exact ⟨h.reads (hplain _ rfl) hstays, .refl sv⟩
  | eof hpc => cases (leave_gone c).symm.trans hstays
  | findLock hpc _ =>
      rw [hpc] at hc
      exact ⟨hc, rfl, fun _ => rfl, fun _ => rfl⟩
  | findBody hpc =>
      rw [hpc] at hc
      exact ⟨hc, .refl sv⟩
  | notFound hpc hresp => exact ⟨trivial, rfl, fun _ => rfl, fun _ => rfl⟩
  | foundNew hpc _ _ =>
      rw [hpc] at hc
      exact ⟨hc, rfl, fun _ => rfl, fun _ => rfl⟩
  | foundLocked hpc _ _ =>
      rw [hpc] at hc
      exact ⟨hc, rfl, fun _ => rfl, fun _ => rfl⟩
  | foundAuto hpc _ =>
      rw [hpc] at hc
      exact ⟨hc, rfl, fun _ => rfl, fun _ => rfl⟩
  | trylock hpc _ =>
      rw [hpc] at hc
      exact ⟨hc, sameTables_mutex _ _⟩
  | conflict hpc hheld => exact absurd (hfree _ _ hpc) hheld
  | guardLock hpc _ =>
      rw [hpc] at hc
      exact ⟨hc, sameTables_mutex _ _⟩
  | callGet hpc hget => exact ⟨trivial, .refl sv⟩
  | callGetFail hpc hget hresp => exact ⟨trivial, .refl sv⟩
  | guardGet hpc hget => exact ⟨trivial, .refl sv⟩
  | guardGetFail hpc hwhat hget => exact ⟨trivial, .refl sv⟩
  | guardUnlock hpc hresp => exact ⟨trivial, sameTables_mutex _ _⟩
  | callSet hpc =>
      rw [hpc] at hc
      obtain ⟨_, _, hget⟩ := hc
      cases hget
  | guardSet hpc =>
      rw [hpc] at hc
      obtain ⟨_, _, hget⟩ := hc
      cases hget
  | _ =>
      -- creating, committing, or in a loop over the locked tables
      rw [‹c.pc = _›] at hc
      exact absurd hc id

end Reads

section System

variable {p : Platform} {s₀ s s' : State} {i : ConnId} {turns : List Turn} {lines : List Str}
  {e : Expr} {v : Int} {scope : Scope}

theorem postorder_plain (hlines : Asks lines e.postorder) {line : Str} (hline : line ∈ lines) :
    ∃ m, decode (cstr line) = .ok m ∧ m.Plain := by
  obtain ⟨m, hmem, hm⟩ := hlines.mem hline
  refine ⟨m, hm, ?_⟩
  rcases postorder_types hmem with ⟨text, rfl⟩ | ⟨table, key, rfl, -⟩ | ⟨o, rfl⟩
  · exact ⟨nofun, nofun, nofun, nofun⟩
  · exact ⟨nofun, nofun, nofun, nofun⟩
  · cases o <;> exact ⟨nofun, nofun, nofun, nofun⟩

/-- No turn of the connection changes a table. -/
theorem Inv.sameTables (h : Inv s) (hreads : (s.conns i).pc.Reads)
    (hu : Transition.Along (State.step p) (State.Unhindered p scope i) s turns)
    (hrun : Transition.run (State.step p) s turns = some s')
    (hreceived : (s'.conns i).received = (s.conns i).received ++ lines)
    (hpc' : (s'.conns i).pc = .reading)
    (hplain : ∀ line ∈ lines, ∃ m, decode (cstr line) = .ok m ∧ m.Plain) :
    Transition.Along (State.step p)
      (fun m a => a.conn = i → ∀ m', m.step p a = some m' → m.server.SameTables m'.server)
      s turns := by
  have hreading : ∀ {m a m'}, Inv m → (m.conns i).pc.Reads → a.conn = i →
      ((m.Unhindered p scope i a ∧ (a.conn = i → ∀ line, a.choice = .recv line → line ∈ lines)) ∧
        ∀ m', m.step p a = some m' → (m'.conns i).pc.gone = false) → m.step p a = some m' →
      (m'.conns i).pc.Reads ∧ m.server.SameTables m'.server := by
    rintro m a m' hm hr rfl ⟨⟨hfree, hinput⟩, hstays⟩ hstep
    obtain ⟨effect, c', hst⟩ := hm.stepped hstep
    have hgone := hstays m' hstep
    rw [hst.self] at hgone ⊢
    rw [hst.server]
    exact hst.moves.reads hr (hfree.1 rfl) (fun line hline => hplain line (hinput rfl line hline))
      hgone a.conn
  refine ((hu.and (h.input hrun hreceived)).and (h.stays_along hrun hpc')).of_invariant
    (I := fun m => Inv m ∧ (m.conns i).pc.Reads) ⟨h, hreads⟩ ?_ ?_
  · rintro m a m' ⟨hm, hr⟩ hQ hstep
    refine ⟨hm.step hstep, ?_⟩
    by_cases hi : a.conn = i
    · exact (hreading hm hr hi hQ hstep).1
    · obtain ⟨effect, c', hst⟩ := hm.stepped hstep
      rw [hst.other fun heq => hi heq.symm]
      exact hr
  · rintro m a ⟨hm, hr⟩ hQ hi m' hstep
    exact (hreading hm hr hi hQ hstep).2

theorem store_shows (sv : Server) (scope : Scope) (i : ConnId) :
    (sv.store scope i).Shows (sv.sees i) scope := by
  intro name key text hloc hsees
  refine ⟨?_, (store_sees hloc).trans hsees⟩
  obtain ⟨t, hname, -⟩ := Option.bind_eq_some_iff.mp hsees
  rw [store_found ⟨key, hloc⟩, hname]
  rfl

/-- What is required once an expression with `n` requests has been evaluated. -/
structure Leaves (sees : Str → Str → Option Str) (e : Expr) (v : Int) (n : Nat) (c c' : Conn) :
    Prop where
  stack : c'.stack.vector = e.spelling sees v :: c.stack.vector
  spells : Spells (e.spelling sees v) v
  sent : c'.sent = c.sent ++ List.replicate n okLine

theorem settled_leaves (he : e.Evaluates (s.server.sees i) v) (hin : (s.conns i).loggedIn = true)
    (hlines : Asks lines e.postorder) :
    ((s.conns i).session (s.server.store e.cells i)).run p lines
      = ((s.conns i).session (s.server.store e.cells i)).leaves
          (e.spelling (s.server.sees i) v) lines.length :=
  postorder_leaves he rfl hin (store_shows _ _ _) hlines

/--
**The postorder of an expression evaluates it**, over any stack, by any turns of the
connection and of others that do not get in its way; and the turns of the connection alone
are enough, if nobody else has a mutex.
-/
theorem postfix_evaluates {before : List Turn} (hboot : Boot s₀) (hdistinct : s₀.server.Distinct)
    (hbefore : Transition.run (State.step p) s₀ before = some s) (hpc : (s.conns i).pc = .reading)
    (hin : (s.conns i).loggedIn = true) (he : e.Evaluates (s.server.sees i) v)
    (hlines : Asks lines e.postorder) :
    (∀ turns s', Transition.Along (State.step p) (State.Unhindered p e.cells i) s turns →
      Transition.run (State.step p) s turns = some s' →
      (s'.conns i).received = (s.conns i).received ++ lines → (s'.conns i).pc = .reading →
      Leaves (s.server.sees i) e v lines.length (s.conns i) (s'.conns i) ∧
        Transition.Along (State.step p)
          (fun m a => a.conn = i → ∀ m', m.step p a = some m' → m.server.SameTables m'.server)
          s turns) ∧
    (s.terminated = false → s.Open i → Fit lines →
      ∃ s', s.RunsAlone p i lines s' ∧ (s'.conns i).pc = .reading) := by
  have hinv := hboot.inv_run hbefore
  have hplaced : Placed e.cells i s :=
    { inv := hinv, distinct := hboot.distinct_run hdistinct hbefore, within := by rw [hpc]; trivial }
  have hsettle : s.settle e.cells i = (s.conns i).session (s.server.store e.cells i) :=
    settle_reading hpc
  refine ⟨fun turns s' hu hrun hreceived hpc' => ⟨?_, ?_⟩, fun hrunning hopen hfit => ?_⟩
  · have hundisturbed := hinv.undisturbed hu hrun hreceived (postorder_admits hlines)
    obtain ⟨-, lines', hung, hreceived', htook, -⟩ := hplaced.run False hundisturbed nofun hrun
    obtain rfl := List.append_cancel_left (hreceived.symm.trans hreceived')
    have hafter := htook.run (reading_live hpc')
    rw [hsettle, settled_leaves he hin hlines] at hafter
    have hend : (s'.conns i).session (s'.server.store e.cells i) = _ :=
      (settle_reading hpc').symm.trans hafter
    exact ⟨congrArg Solo.stack hend, he.spells, congrArg Solo.sent hend⟩
  · exact hinv.sameTables (by rw [hpc]; trivial) hu hrun hreceived hpc' fun line hline =>
      postorder_plain hlines hline
  · have hsound : s.Sound i := ⟨hinv, hopen, by simp [hrunning, hpc]⟩
    obtain ⟨s', hcompletes⟩ := hsound.completes p hfit
    obtain ⟨-, -, hrests, hend⟩ := hcompletes.settle hsound hplaced (postorder_admits hlines)
    rw [hsettle, settled_leaves he hin hlines] at hend
    have hlive : (s'.settle e.cells i).status = .live := congrArg Solo.status hend
    have hpc' := (rests_live _ hrests).mp hlive
    exact ⟨s', hcompletes.received hpc', hpc'⟩

end System

/-- Connection 0 has stored 5 under `k`. -/
def stored : List Turn :=
  [⟨0, .recv (bytes "LOGIN a\n")⟩, ⟨0, .recv (bytes "CREATE t\n")⟩, ⟨0, .go⟩, ⟨0, .go⟩, ⟨0, .go⟩,
    ⟨0, .recv (bytes "PUSH 5\n")⟩, ⟨0, .recv (bytes "SET t k\n")⟩, ⟨0, .go⟩, ⟨0, .go⟩, ⟨0, .go⟩,
    ⟨0, .go⟩, ⟨0, .go⟩, ⟨0, .go⟩, ⟨0, .go⟩]

/-- The requests for `5 - 2`. -/
def subtraction : List Str := [bytes "GET t k\n", bytes "PUSH 2\n", bytes "SUB\n"]

theorem postfix_evaluates_sub :
    ∃ s s', Transition.run (State.step trapping) State.initial stored = some s ∧
      s.RunsAlone trapping 0 subtraction s' ∧ (s'.conns 0).stack.vector = [bytes "3"] := by
  have hstate : (Transition.run (State.step trapping) State.initial stored).map (fun s =>
      decide (s.terminated = false ∧ (s.conns 0).pc = .reading ∧ (s.conns 0).loggedIn = true ∧
        (s.conns 0).stack.vector = [] ∧ s.server.sees 0 (bytes "t") (bytes "k") = some (bytes "5")))
        = some true := by decide +kernel
  obtain ⟨s, hbefore, hs⟩ := Option.map_eq_some_iff.mp hstate
  obtain ⟨hrunning, hpc, hin, hstack, hsees⟩ := of_decide_eq_true hs
  have htwo : Spells (bytes "2") 2 := spells_toString 2
  have hfive : Spells (bytes "5") 5 := spells_toString 5
  have he : (Expr.op .sub (.cell (bytes "t") (bytes "k")) (.lit (bytes "2"))).Evaluates
      (s.server.sees 0) (ArithOp.sub.exact 5 2) :=
    .op (.cell hsees hfive (by decide)) (.lit htwo (by decide)) (by decide) (by decide)
  have hlines : Asks subtraction
      (Expr.op .sub (.cell (bytes "t") (bytes "k")) (.lit (bytes "2"))).postorder := by
    unfold Asks
    decide +kernel
  have hopen : s.Open 0 :=
    (State.RunsAlone.sound ⟨stored, by unfold Alone; decide, by decide, hbefore, rfl⟩
      (boot_initial.sound 0)).isOpen
  obtain ⟨hresult, hfinishes⟩ :=
    postfix_evaluates boot_initial distinct_initial hbefore hpc hin he hlines
  obtain ⟨s', hruns, hpc'⟩ := hfinishes hrunning hopen (by unfold Fit; decide)
  obtain ⟨turns, halone, -, hrun, hreceived⟩ := id hruns
  obtain ⟨hleaves, -⟩ := hresult turns s'
    (halone.unhindered (boot_initial.inv_run hbefore) hopen) hrun hreceived hpc'
  refine ⟨s, s', hbefore, hruns, ?_⟩
  rw [hleaves.stack, hstack]
  show [toString 3] = _
  decide +kernel

end KvServer
