/-
The SETs of a transaction that have been acknowledged.

A `Book` is kept beside a run for one connection: the SETs of its transaction that have been
answered OK, each with the value that was on top of the stack when it was received, and the
committed map of each table when the transaction locked it and when `commit_changes` had
returned.  `Book.Right` is the invariant that ties it to the tables.
-/
import KvServer.Proofs.Endings
import KvServer.Proofs.Lines
import KvServer.Proofs.Scope
import KvServer.Proofs.Values

namespace KvServer

/-! ### The book of a connection

The book is told of three things: a line that is received, a call that is made, an answer that
is sent. It looks at the stack when a SET is received and never again, since what is written
later is the value from there.
-/

/-- A SET with the value it takes from the stack. -/
structure Write where
  table : Str
  key : Str
  value : Str
  deriving DecidableEq

/-- The SET in a line of input, with what is on top of the stack. -/
def Conn.asks (c : Conn) (line : Str) : Option Write :=
  match decode (cstr line), c.stack.getTop with
  | .ok m, .ok value =>
      if m.messageType = .set then some { table := m.getTable, key := m.getKey, value := value }
      else none
  | _, _ => none

def Server.committed (sv : Server) (t : TablePtr) (key : Str) : Option Str :=
  (sv.tables t).keyValue.lookup key

structure Book where
  /-- the state in which the last request was received -/
  receipt : State
  /-- the SET in it -/
  asked : Option Write := none
  /-- the SETs of the transaction that have been answered OK, oldest first -/
  acknowledged : List Write := []
  /-- what was committed in a table when the connection last locked it -/
  locked : TablePtr → Str → Option Str := fun _ _ => none
  /-- and since then, when `commit_changes` returned -/
  installed : TablePtr → Option (Str → Option Str) := fun _ => none

namespace Book

/-- A request is received. -/
def receive (b : Book) (s : State) (i : ConnId) : Choice → Book
  | .recv line => { b with receipt := s, asked := (s.conns i).asks line }
  | _ => b

/-- A call is made. -/
def call (b : Book) (sv sv' : Server) (effect : Effect) : Book :=
  { b with
    locked :=
      match effect with
      | .lock t => Function.update b.locked t (sv.committed t)
      | _ => b.locked
    installed :=
      match effect with
      | .lock t => Function.update b.installed t none
      | .commitChanges t => Function.update b.installed t (some (sv'.committed t))
      | _ => b.installed }

/-- A request is answered, or not. -/
def reply (b : Book) (c c' : Conn) : Book :=
  { b with
    acknowledged :=
      if c'.inTransaction then
        if c'.sent = c.sent ++ [okLine] then b.acknowledged ++ b.asked.toList
        else b.acknowledged
      else [] }

/-- What the transaction is to leave in a table: what it found there, with the acknowledged
SETs in their order. -/
def outcome (b : Book) (sv : Server) (t : TablePtr) : Str → Option Str :=
  b.acknowledged.foldl
    (fun m w => if sv.findTable w.table = some t then Function.update m w.key (some w.value) else m)
    (b.locked t)

end Book

/-- The book of connection `i` after a turn. -/
def noteBook (p : Platform) (i : ConnId) (s : State) (a : Turn) (s' : State) (b : Book) : Book :=
  if a.conn = i then
    match s.turn p a with
    | some (effect, c') =>
        ((b.receive s i a.choice).call s.server s'.server effect).reply (s.conns i) c'
    | none => b
  else b

section Book

variable {b b' : Book} {sv sv' : Server} {t : TablePtr} {c c' : Conn} {effect : Effect}

theorem outcome_congr (hack : b'.acknowledged = b.acknowledged) (hlocked : b'.locked t = b.locked t)
    (hfound : ∀ w ∈ b.acknowledged, sv'.findTable w.table = sv.findTable w.table) :
    b'.outcome sv' t = b.outcome sv t := by
  unfold Book.outcome
  rw [hack, hlocked]
  exact List.foldl_ext _ _ _ fun m w hw => by rw [hfound w hw]

theorem outcome_concat {w : Write} (hack : b'.acknowledged = b.acknowledged ++ [w])
    (hlocked : b'.locked = b.locked) :
    b'.outcome sv t
      = if sv.findTable w.table = some t then
          Function.update (b.outcome sv t) w.key (some w.value)
        else b.outcome sv t := by
  unfold Book.outcome
  rw [hack, hlocked, List.foldl_append]
  rfl

/-- A table nothing has been written to. -/
theorem outcome_locked (h : ∀ w ∈ b.acknowledged, sv.findTable w.table ≠ some t) :
    b.outcome sv t = b.locked t := by
  have hnone : b.outcome sv t = b.acknowledged.foldl (fun m _ => m) (b.locked t) :=
    List.foldl_ext _ _ _ fun m w hw => if_neg (h w hw)
  rw [hnone, List.foldl_fixed]

theorem reply_same (htx : c'.inTransaction = true)
    (h : b.asked = none ∨ c'.sent ≠ c.sent ++ [okLine]) :
    (b.reply c c').acknowledged = b.acknowledged := by
  show (if c'.inTransaction then _ else _) = _
  rw [if_pos htx]
  split
  · rename_i hsent
    rw [h.resolve_right (not_not_intro hsent)]
    exact List.append_nil _
  · rfl

theorem reply_ok {w : Write} (htx : c'.inTransaction = true) (hasked : b.asked = some w)
    (hsent : c'.sent = c.sent ++ [okLine]) :
    (b.reply c c').acknowledged = b.acknowledged ++ [w] := by
  show (if c'.inTransaction then _ else _) = _
  rw [if_pos htx, if_pos hsent, hasked]
  rfl

theorem reply_outside (htx : c'.inTransaction = false) : (b.reply c c').acknowledged = [] := by
  simp [Book.reply, htx]

end Book

/-! ### A SET is received

Which value a SET will write is settled here: it is taken from the stack before the table is
looked for.
-/

section Asks

variable {p : Platform} {c c' : Conn} {line : Str} {w : Write}

theorem asks_eq_some : c.asks line = some w ↔ ∃ m value rest, decode (cstr line) = .ok m ∧
    m.messageType = .set ∧ c.stack.vector = value :: rest ∧
      w = { table := m.getTable, key := m.getKey, value := value } := by
  unfold Conn.asks ValueStack.getTop
  cases hm : decode (cstr line) with
  | error e => simp
  | ok m =>
      cases hstack : c.stack.vector with
      | nil => simp [throw, throwThe, MonadExceptOf.throw]
      | cons top rest =>
          by_cases htype : m.messageType = .set
          · simp [htype, pure, Except.pure, eq_comm]
          · simp [htype, pure, Except.pure]

/-- **A SET is refused at once, or on its way.** -/
theorem asks_line (h : c.asks line = some w) :
    (∃ resp, isFailedLine resp = true ∧ c.chatWithClient p line = { c with
      received := c.received ++ [line], sent := c.sent ++ [resp], pc := .reading }) ∨
    ∃ rest, c.chatWithClient p line = { c with
      received := c.received ++ [line], stack := { vector := rest },
      pc := .findLock (.set w.table w.key w.value) } := by
  obtain ⟨m, value, rest, hm, htype, hstack, rfl⟩ := asks_eq_some.mp h
  rw [chatWithClient_ok p hm]
  set c' : Conn := { c with received := c.received ++ [line] } with hc'
  cases hin : c.loggedIn with
  | false =>
      have hwhat : Text (bytes "User has not logged in") := by decide
      obtain ⟨resp, hresp, heq⟩ := catchClause_operation (c := c') hwhat
      have hattempt : c'.attempt (handleRequest p m)
          = c'.catchClause (.operation (bytes "User has not logged in")) := by
        simp [Conn.attempt, handleRequest, htype, hin, c']
      exact .inl ⟨resp, hresp.isFailed, hattempt.trans (heq.trans (by rw [hc', ← hin]))⟩
  | true =>
      have hset : (handleRequest p m).exec c' = (handleSet m).exec c' := by
        simp [handleRequest, htype, hin, c']
      refine .inr ⟨rest, ?_⟩
      unfold Conn.attempt
      rw [hset, handleSet_exec, hc', ← hin]
      simp only [hstack]

end Asks

/-! ### The book is right

In a transaction what is visible in a locked table is the outcome by the book. Most steps
neither write nor acknowledge; the lemmas are for the few that do, and for the steps of
others.
-/

/-- A request is being handled, and its transaction not on its way out. -/
def Pc.handles : Pc → Bool
  | .reading | .ending _ _ | .endingUnlock _ _ _ | .closed | .terminated => false
  | _ => true

/-- The SET on whose way a connection is. -/
def Pc.asks (pc : Pc) : Option Write :=
  match pc.access with
  | some (.set table key value) => some { table := table, key := key, value := value }
  | _ => none

structure Book.Right (b : Book) (i : ConnId) (s : State) : Prop where
  outside : (s.conns i).inTransaction = false → b.acknowledged = []
  asked : (s.conns i).inTransaction = true → (s.conns i).pc.handles = true →
    b.asked = (s.conns i).pc.asks
  /-- What has been acknowledged is in tables that are locked. -/
  known : ∀ w ∈ b.acknowledged, ∃ t ∈ (s.conns i).lockedTables,
    s.server.findTable w.table = some t
  /-- What has not been committed or rolled back is the transaction's outcome to be, -/
  undecided : (s.conns i).inTransaction = true → ∀ t ∈ (s.conns i).view.dirty,
    s.abs.committed t = b.locked t ∧ s.abs.visible t = b.outcome s.server t
  /-- and what has been committed was. -/
  decided : (s.conns i).pc.loop = some .commit → ∀ t ∈ (s.conns i).lockedTables,
    t ∉ (s.conns i).view.dirty → b.installed t = some (b.outcome s.server t)

section Right

variable {p : Platform} {s s' : State} {a : Turn} {effect : Effect} {c' : Conn} {b b' : Book}
  {i : ConnId}

theorem dirty_inside {c : Conn} (h : c.Plain) (htx : c.inTransaction = true) :
    c.view.dirty = c.lockedTables := by
  rw [h, if_pos htx]
  rfl

theorem outcome_found (h : b.Right i s) (hst : Stepped p s a effect c' s') {t : TablePtr}
    (hack : b'.acknowledged = b.acknowledged) (hlocked : b'.locked t = b.locked t) :
    b'.outcome s'.server t = b.outcome s.server t := by
  refine outcome_congr hack hlocked fun w hw => ?_
  obtain ⟨u, -, hfound⟩ := h.known w hw
  rw [hfound, hst.findTable hfound]

/-- A call that writes nothing leaves all tables as they are. -/
theorem Stepped.abs_same (hst : Stepped p s a effect c' s') (h : Inv s)
    (hcall : effect.call.alters = false) (t : TablePtr) :
    s'.abs.committed t = s.abs.committed t ∧ s'.abs.visible t = s.abs.visible t := by
  have hstep := hst.refines h
  have hcall' : (s.call a effect).alters = false := by
    unfold State.call
    rcases hst.moves.call_cases with heq | ⟨-, heq⟩
    · rw [heq]
      exact hcall
    · rw [heq]
      rfl
  exact ⟨(hstep.same hcall' t).1, hstep.same_visible hcall' t⟩

/-- Others leave the tables of a transaction alone. -/
theorem Book.Right.other (h : b.Right i s) (hst : Stepped p s a effect c' s') (hinv : Inv s)
    (hi : i ≠ a.conn) : b.Right i s' := by
  have hconn := hst.other hi
  have houtcome : ∀ t, b.outcome s'.server t = b.outcome s.server t := fun t =>
    outcome_found h hst rfl rfl
  refine ⟨?_, ?_, fun w hw => ?_, fun htx t ht => ?_, fun hloop t ht hnot => ?_⟩
  · rw [hconn]
    exact h.outside
  · rw [hconn]
    exact h.asked
  · rw [hconn]
    obtain ⟨t, ht, hfound⟩ := h.known w hw
    exact ⟨t, ht, hst.findTable hfound⟩
  · rw [hconn] at htx ht
    obtain ⟨-, hc, hp⟩ := (hst.refines hinv).frame hinv.protocol hi (TwoPhase.View.dirty_subset _ ht)
    rw [hc, TwoPhase.visible_congr hc hp, houtcome]
    exact h.undecided htx t ht
  · rw [hconn] at hloop ht hnot
    rw [houtcome]
    exact h.decided hloop t ht hnot

/-- Outside a transaction there is nothing to account for, or at its beginning. -/
theorem Book.right_empty (hlocked : (s.conns i).lockedTables = ∅) (hack : b.acknowledged = [])
    (hbegin : (s.conns i).inTransaction = true → (s.conns i).pc = .reading) : b.Right i s where
  outside _ := hack
  asked htx hhandles := by
    rw [hbegin htx] at hhandles
    cases hhandles
  known w hw := by
    rw [hack] at hw
    cases hw
  undecided htx t ht := by
    rw [dirty_inside (Conn.plain_reading (hbegin htx)) htx, hlocked] at ht
    cases ht
  decided _ t ht := by
    rw [hlocked] at ht
    cases ht

/-- A step of a transaction that writes nothing and acknowledges no SET. -/
theorem Book.Right.keep (h : b.Right a.conn s) (hst : Stepped p s a effect c' s')
    (htx : c'.inTransaction = (s.conns a.conn).inTransaction)
    (hlocked : c'.lockedTables = (s.conns a.conn).lockedTables)
    (hack : b'.acknowledged = b.acknowledged) (hbase : b'.locked = b.locked)
    (hasked : c'.pc.handles = true → b'.asked = c'.pc.asks)
    (hdirty : ∀ t ∈ c'.view.dirty, t ∈ (s.conns a.conn).view.dirty ∧
      s'.abs.committed t = s.abs.committed t ∧ s'.abs.visible t = s.abs.visible t)
    (hdecided : c'.pc.loop = some .commit → ∀ t ∈ c'.lockedTables, t ∉ c'.view.dirty →
      b'.installed t = some (b.outcome s.server t)) : b'.Right a.conn s' := by
  have houtcome : ∀ t, b'.outcome s'.server t = b.outcome s.server t := fun t =>
    outcome_found h hst hack (congrFun hbase t)
  have hself := hst.self
  refine ⟨fun hout => ?_, fun _ hhandles => ?_, fun w hw => ?_, fun hin t ht => ?_,
    fun hloop t ht hnot => ?_⟩
  · rw [hself, htx] at hout
    rw [hack]
    exact h.outside hout
  · rw [hself] at hhandles ⊢
    exact hasked hhandles
  · rw [hself, hlocked]
    obtain ⟨t, ht, hfound⟩ := h.known w (hack ▸ hw)
    exact ⟨t, ht, hst.findTable hfound⟩
  · rw [hself] at hin ht
    obtain ⟨hbefore, hc, hv⟩ := hdirty t ht
    rw [hc, hv, hbase, houtcome]
    exact h.undecided (htx ▸ hin) t hbefore
  · rw [hself] at hloop ht hnot
    rw [houtcome]
    exact hdecided hloop t ht hnot

theorem asked_idle {pc : Pc} {asked : Option Write} (h : pc.handles = false) :
    pc.handles = true → asked = pc.asks := by
  intro hhandles
  cases h.symm.trans hhandles

/-- The same, within the handling of a request. -/
theorem Book.Right.quiet (h : b.Right a.conn s) (hst : Stepped p s a effect c' s') (hinv : Inv s)
    (hplain : (s.conns a.conn).Plain) (hplain' : c'.Plain) (hloop : c'.pc.loop = none)
    (htx : (s.conns a.conn).inTransaction = true)
    (hsame : c'.inTransaction = (s.conns a.conn).inTransaction ∧
      c'.lockedTables = (s.conns a.conn).lockedTables)
    (hcall : effect.call.alters = false) (hack : b'.acknowledged = b.acknowledged)
    (hbase : b'.locked = b.locked)
    (hasked : c'.pc.handles = true → b'.asked = c'.pc.asks) : b'.Right a.conn s' := by
  refine h.keep hst hsame.1 hsame.2 hack hbase hasked (fun t ht => ?_) fun hcommit => ?_
  · rw [dirty_inside hplain' (hsame.1.trans htx), hsame.2, ← dirty_inside hplain htx] at ht
    exact ⟨ht, hst.abs_same hinv hcall t⟩
  · cases hloop.symm.trans hcommit

/-- A transaction comes to one of the loops, with all its tables. -/
theorem Book.Right.ends (h : b.Right a.conn s) (hst : Stepped p s a .none c' s') (hinv : Inv s)
    (hplain : (s.conns a.conn).Plain) (htx : (s.conns a.conn).inTransaction = true) {e : Ending}
    (hpc : c'.pc = .ending e (s.conns a.conn).lockedTables)
    (hsame : c'.inTransaction = (s.conns a.conn).inTransaction ∧
      c'.lockedTables = (s.conns a.conn).lockedTables)
    (hack : b'.acknowledged = b.acknowledged) (hbase : b'.locked = b.locked) :
    b'.Right a.conn s' := by
  have hdirty : c'.view.dirty = (s.conns a.conn).lockedTables := by
    simp [Conn.view, hpc, TwoPhase.View.dirty]
  refine h.keep hst hsame.1 hsame.2 hack hbase (fun hhandles => ?_) (fun t ht => ?_)
    fun _ t ht hnot => ?_
  · rw [hpc] at hhandles
    cases hhandles
  · rw [hdirty, ← dirty_inside hplain htx] at ht
    exact ⟨ht, hst.abs_same hinv rfl t⟩
  · rw [hdirty, ← hsame.2] at hnot
    exact absurd ht hnot

theorem not_answered {c : Conn} (hsent : c'.sent = c.sent) : c'.sent ≠ c.sent ++ [okLine] := by
  rw [hsent]
  exact fun heq => List.cons_ne_nil _ _ (List.append_right_eq_self.mp heq.symm)

/-- A request is received in a transaction, or begins one. -/
theorem Book.Right.request {i : ConnId} {line : Str} (h : b.Right i s)
    (hst : Stepped p s ⟨i, .recv line⟩ .none c' s') (hinv : Inv s)
    (hpc : (s.conns i).pc = .reading) (hchat : c' = (s.conns i).chatWithClient p line)
    (htx : c'.inTransaction = true) :
    (((b.receive s i (.recv line)).call s.server s'.server .none).reply (s.conns i) c').Right i s' := by
  have hplain := Conn.plain_reading hpc
  have hack : (s.conns i).asks line = none ∨ c'.sent ≠ (s.conns i).sent ++ [okLine] →
      (((b.receive s i (.recv line)).call s.server s'.server .none).reply (s.conns i)
        c').acknowledged = b.acknowledged :=
    reply_same (b := (b.receive s i (.recv line)).call s.server s'.server .none) (c := s.conns i) htx
  cases hasks : (s.conns i).asks line with
  | some w =>
      rcases asks_line (p := p) hasks with ⟨resp, hfailed, heq⟩ | ⟨rest, heq⟩
      · obtain rfl := hchat.trans heq
        exact h.quiet hst hinv hplain rfl rfl htx ⟨rfl, rfl⟩ rfl
          (hack (.inr (answered_failed hfailed rfl))) rfl (asked_idle rfl)
      · obtain rfl := hchat.trans heq
        exact h.quiet hst hinv hplain rfl rfl htx ⟨rfl, rfl⟩ rfl
          (hack (.inr (not_answered rfl))) rfl fun _ => hasks
  | none =>
      have hserved := served p line (s.conns i)
      rw [← hchat] at hserved
      specialize hack (.inl hasks)
      cases hserved with
      | reply hresp hflag hlogin hstack =>
          rcases hflag with rfl | ⟨hout, rfl⟩
          · exact h.quiet hst hinv hplain rfl rfl htx ⟨rfl, rfl⟩ rfl hack rfl (asked_idle rfl)
          · -- BEGIN
            refine Book.right_empty ?_ (hack.trans (h.outside hout)) fun _ => by rw [hst.self]
            rw [hst.self]
            exact (hinv.wf i).idle hout
      | create hm htype =>
          exact h.quiet hst hinv hplain rfl rfl htx ⟨rfl, rfl⟩ rfl hack rfl fun _ => hasks
      | get hm htype =>
          exact h.quiet hst hinv hplain rfl rfl htx ⟨rfl, rfl⟩ rfl hack rfl fun _ => hasks
      | set hm htype hstack =>
          cases hasks.symm.trans (asks_eq_some.mpr ⟨_, _, _, hm, htype, hstack, rfl⟩)
      | commit hm htype hin => exact h.ends hst hinv hplain htx rfl ⟨rfl, rfl⟩ hack rfl
      | nested hm htype hin => exact h.ends hst hinv hplain htx rfl ⟨rfl, rfl⟩ hack rfl
      | leave hresp hleft => exact h.ends hst hinv hplain htx (if_pos htx) ⟨rfl, rfl⟩ hack rfl
      | trap hm htype htrap =>
          exact h.quiet hst hinv hplain rfl rfl htx ⟨rfl, rfl⟩ rfl hack rfl (asked_idle rfl)

/-- A table is locked, and has nothing pending. -/
theorem Book.Right.locks {i : ConnId} {x : Access} {t : TablePtr} (h : b.Right i s)
    (hst : Stepped p s ⟨i, .go⟩ (.lock t) { s.conns i with
      lockedTables := insert t (s.conns i).lockedTables, pc := .call x t } s') (hinv : Inv s)
    (hpc : (s.conns i).pc = .trylock x t) (hfree : (s.server.tables t).tableMutex = none)
    (hack : b'.acknowledged = b.acknowledged) (hasked : b'.asked = b.asked)
    (hbase : b'.locked = Function.update b.locked t (s.server.committed t)) : b'.Right i s' := by
  have hpoint := (hinv.wf i).point
  unfold Conn.PointOk at hpoint
  rw [hpc] at hpoint
  obtain ⟨htx, hnot⟩ := hpoint
  have hself : s'.conns i = _ := hst.self
  have hplain : (s.conns i).Plain := by simp [Conn.Plain, Conn.view, hpc]
  have hsame := hst.abs_same hinv rfl
  -- nothing has been acknowledged in the new table
  have hnone : ∀ w ∈ b.acknowledged, s.server.findTable w.table ≠ some t := by
    intro w hw hfound
    obtain ⟨u, hu, hfound'⟩ := h.known w hw
    exact hnot (Option.some.inj (hfound.symm.trans hfound') ▸ hu)
  refine ⟨fun hout => ?_, fun _ _ => ?_, fun w hw => ?_, fun _ u hu => ?_, fun hloop => ?_⟩
  · rw [hself] at hout
    cases htx.symm.trans hout
  · rw [hself, hasked, h.asked htx (by rw [hpc]; rfl), hpc]
    rfl
  · rw [hself]
    obtain ⟨u, hu, hfound⟩ := h.known w (hack ▸ hw)
    exact ⟨u, Finset.mem_insert_of_mem hu, hst.findTable hfound⟩
  · rw [hself] at hu
    have hu : u ∈ insert t (s.conns i).lockedTables := by
      simpa [Conn.view, htx, TwoPhase.View.dirty] using hu
    rw [(hsame u).1, (hsame u).2, hbase]
    by_cases hut : u = t
    · subst hut
      have hfound : ∀ w ∈ b'.acknowledged, s'.server.findTable w.table ≠ some u := by
        intro w hw hw'
        obtain ⟨v, -, hold⟩ := h.known w (hack ▸ hw)
        exact hnone w (hack ▸ hw) (hold.trans ((hst.findTable hold).symm.trans hw'))
      rw [outcome_locked hfound, hbase, Function.update_self]
      exact ⟨rfl, TwoPhase.visible_of_clean (hinv.protocol.clean_free hfree)⟩
    · have hold := Finset.mem_of_mem_insert_of_ne hu hut
      rw [outcome_found h hst hack (by rw [hbase, Function.update_of_ne hut]),
        Function.update_of_ne hut]
      exact h.undecided htx u (by rwa [dirty_inside hplain htx])
  · rw [hself] at hloop
    cases hloop

/-- **A SET is carried out as it is acknowledged.** -/
theorem Book.Right.sets {i : ConnId} {name key value : Str} {t : TablePtr} (h : b.Right i s)
    (hst : Stepped p s ⟨i, .go⟩ (.set t key value) { s.conns i with
      sent := (s.conns i).sent ++ [okLine], pc := .reading } s') (hinv : Inv s)
    (hpc : (s.conns i).pc = .call (.set name key value) t)
    (hfound : s.server.findTable name = some t)
    (hack : b'.acknowledged = b.acknowledged ++ [{ table := name, key := key, value := value }])
    (hbase : b'.locked = b.locked) : b'.Right i s' := by
  have hpoint := (hinv.wf i).point
  unfold Conn.PointOk at hpoint
  rw [hpc] at hpoint
  obtain ⟨htx, hmem⟩ := hpoint
  have hself : s'.conns i = _ := hst.self
  have hplain : (s.conns i).Plain := by simp [Conn.Plain, Conn.view, hpc]
  have hstep := hst.refines hinv
  obtain ⟨hc, hp⟩ := hstep.set_eq
  have houtcome : ∀ u, b'.outcome s'.server u
      = if u = t then Function.update (b.outcome s.server u) key (some value)
        else b.outcome s.server u := by
    intro u
    rw [outcome_concat hack hbase, outcome_found h hst rfl rfl, hst.findTable hfound]
    simp only [Option.some.injEq, eq_comm]
  refine ⟨fun hout => ?_, fun _ hhandles => ?_, fun w hw => ?_, fun _ u hu => ?_, fun hloop => ?_⟩
  · rw [hself] at hout
    cases htx.symm.trans hout
  · rw [hself] at hhandles
    cases hhandles
  · rw [hself]
    rcases List.mem_append.mp (hack ▸ hw) with hold | hnew
    · obtain ⟨u, hu, hfound'⟩ := h.known w hold
      exact ⟨u, hu, hst.findTable hfound'⟩
    · obtain rfl := List.mem_singleton.mp hnew
      exact ⟨t, hmem, hst.findTable hfound⟩
  · have hafter : (s'.conns i).view.dirty = (s.conns i).lockedTables := by
      rw [hself]
      exact dirty_inside (Conn.plain_reading rfl) htx
    rw [hafter] at hu
    obtain ⟨hcommitted, hvisible⟩ := h.undecided htx u (by rwa [dirty_inside hplain htx])
    rw [houtcome, hbase, ← hcommitted, ← hvisible]
    refine ⟨congrFun hc u, ?_⟩
    by_cases hut : u = t
    · subst hut
      rw [if_pos rfl]
      funext k
      rw [TwoPhase.State.visible, hp, hc]
      by_cases hk : k = key
      · subst hk
        rw [Function.update_self, Function.update_self]
        rfl
      · rw [Function.update_of_ne hk, Function.update_of_ne hk]
        rfl
    · rw [if_neg hut]
      obtain ⟨-, hc', hp'⟩ := hstep.table_ne (t := u) fun heq => hut (Option.some.inj heq).symm
      exact TwoPhase.visible_congr hc' hp'
  · rw [hself] at hloop
    cases hloop

/-- **COMMIT installs the outcome**; any other loop leaves it to be. -/
theorem Book.Right.visit {i : ConnId} {e : Ending} {rest : Finset TablePtr} {t : TablePtr}
    (h : b.Right i s) (hst : Stepped p s ⟨i, .visit t⟩ (e.effect t) { s.conns i with
      pc := .endingUnlock e t (rest.erase t) } s') (hinv : Inv s)
    (hpc : (s.conns i).pc = .ending e rest) (ht : t ∈ rest)
    (hack : b'.acknowledged = b.acknowledged) (hbase : b'.locked = b.locked)
    (hinstalled : b'.installed = if e = .commit then
      Function.update b.installed t (some (s'.server.committed t)) else b.installed) :
    b'.Right i s' := by
  have hpoint := (hinv.wf i).point
  unfold Conn.PointOk at hpoint
  rw [hpc] at hpoint
  have hstep := hst.refines hinv
  have hcall : s.call ⟨i, .visit t⟩ (e.effect t) = .settle t e.commits := Ending.effect_call e t
  have hdirty : (s.conns i).view.dirty = rest := by simp [Conn.view, hpc, TwoPhase.View.dirty]
  refine h.keep hst rfl rfl hack hbase (asked_idle rfl) (fun u hu => ?_) fun hloop u hu hnot => ?_
  · obtain ⟨hne, hu⟩ := Finset.mem_erase.mp (by simpa [Conn.view, TwoPhase.View.dirty] using hu)
    have hother : (s.call ⟨i, .visit t⟩ (e.effect t)).table ≠ some u := by
      rw [hcall]
      cases e.commits <;> exact fun heq => hne (Option.some.inj heq).symm
    obtain ⟨-, hc, hp⟩ := hstep.table_ne hother
    exact ⟨hdirty ▸ hu, hc, TwoPhase.visible_congr hc hp⟩
  · obtain rfl := Option.some.inj hloop
    rw [hinstalled, if_pos rfl]
    by_cases hut : u = t
    · subst hut
      rw [Function.update_self]
      have hpublish : TwoPhase.Step s.abs i (.publish u) s'.abs := hstep
      exact congrArg some (hpublish.publish_eq.1.trans (h.undecided hpoint.1 u (hdirty ▸ ht)).2)
    · rw [Function.update_of_ne hut]
      refine h.decided (by rw [hpc]; rfl) u hu fun hmem => hnot ?_
      rw [hdirty] at hmem
      simpa [Conn.view, TwoPhase.View.dirty, hut] using hmem

theorem noteBook_self (hst : Stepped p s a effect c' s') :
    noteBook p a.conn s a s' b
      = ((b.receive s a.conn a.choice).call s.server s'.server effect).reply (s.conns a.conn) c' := by
  unfold noteBook
  rw [if_pos rfl, hst.turn]

theorem noteBook_other (hi : i ≠ a.conn) : noteBook p i s a s' b = b :=
  if_neg fun heq => hi heq.symm

/-- A turn between the receipt of a request and its answer. -/
theorem Book.Right.go {i : ConnId} {ch : Choice} (h : b.Right i s) (hinv : Inv s)
    (hwithin : (s.conns i).pc.Within Set.univ s.server) (hst : Stepped p s ⟨i, ch⟩ effect c' s')
    (hpc : (s.conns i).pc ≠ .reading) (htx : c'.inTransaction = true) :
    ((b.call s.server s'.server effect).reply (s.conns i) c').Right i s' := by
  have hmoves := hst.moves
  have hpoint := (hinv.wf i).point
  unfold Conn.PointOk at hpoint
  have hasked : (s.conns i).inTransaction = true → ∀ {pc asked}, (s.conns i).pc = pc →
      pc.handles = true → pc.asks = asked → b.asked = asked := by
    rintro hin pc asked rfl hhandles rfl
    exact h.asked hin hhandles
  have hack : b.asked = none ∨ c'.sent ≠ (s.conns i).sent ++ [okLine] →
      ((b.call s.server s'.server effect).reply (s.conns i) c').acknowledged = b.acknowledged :=
    reply_same (b := b.call s.server s'.server effect) (c := s.conns i) htx
  cases hmoves with
  | request hread hpos hlen hserved => exact absurd hread hpc
  | eof hread => exact absurd hread hpc
  | createLock hat hfree =>
      exact h.quiet hst hinv (by simp [Conn.Plain, Conn.view, hat]) rfl rfl htx ⟨rfl, rfl⟩
        rfl (hack (.inr (not_answered rfl))) rfl fun _ => hasked htx hat rfl rfl
  | createExists hat hfound hwhat =>
      exact h.quiet hst hinv (by simp [Conn.Plain, Conn.view, hat]) rfl rfl htx ⟨rfl, rfl⟩
        rfl (hack (.inr (not_answered rfl))) rfl fun _ => hasked htx hat rfl rfl
  | createNew hat hnew =>
      exact h.quiet hst hinv (by simp [Conn.Plain, Conn.view, hat]) rfl rfl htx ⟨rfl, rfl⟩
        rfl (hack (.inr (not_answered rfl))) rfl fun _ => hasked htx hat rfl rfl
  | createUnlock hat hresp =>
      exact h.quiet hst hinv (by simp [Conn.Plain, Conn.view, hat]) rfl rfl htx ⟨rfl, rfl⟩
        rfl (hack (.inl (hasked htx hat rfl rfl))) rfl (asked_idle rfl)
  | findLock hat hfree =>
      exact h.quiet hst hinv (by simp [Conn.Plain, Conn.view, hat]) rfl rfl htx ⟨rfl, rfl⟩
        rfl (hack (.inr (not_answered rfl))) rfl fun _ => hasked htx hat rfl rfl
  | findBody hat =>
      exact h.quiet hst hinv (by simp [Conn.Plain, Conn.view, hat]) rfl rfl htx ⟨rfl, rfl⟩
        rfl (hack (.inr (not_answered rfl))) rfl fun _ => hasked htx hat rfl rfl
  | notFound hat hresp =>
      exact h.quiet hst hinv (by simp [Conn.Plain, Conn.view, hat]) rfl rfl htx ⟨rfl, rfl⟩
        rfl (hack (.inr (answered_failed hresp.isFailed rfl))) rfl (asked_idle rfl)
  | foundNew hat hin ht =>
      exact h.quiet hst hinv (by simp [Conn.Plain, Conn.view, hat]) rfl rfl htx ⟨rfl, rfl⟩
        rfl (hack (.inr (not_answered rfl))) rfl fun _ => hasked htx hat rfl rfl
  | foundLocked hat hin ht =>
      exact h.quiet hst hinv (by simp [Conn.Plain, Conn.view, hat]) rfl rfl htx ⟨rfl, rfl⟩
        rfl (hack (.inr (not_answered rfl))) rfl fun _ => hasked htx hat rfl rfl
  | foundAuto hat hout => cases hout.symm.trans htx
  | trylock hat hfree =>
      exact h.locks hst hinv hat hfree (hack (.inr (not_answered rfl))) rfl rfl
  | conflict hat hheld =>
      exact h.ends hst hinv (by simp [Conn.Plain, Conn.view, hat]) htx rfl ⟨rfl, rfl⟩
        (hack (.inr (not_answered rfl))) rfl
  | callGet hat hget =>
      exact h.quiet hst hinv (by simp [Conn.Plain, Conn.view, hat]) rfl rfl htx ⟨rfl, rfl⟩
        rfl (hack (.inl (hasked htx hat rfl rfl))) rfl (asked_idle rfl)
  | callGetFail hat hget hresp =>
      exact h.quiet hst hinv (by simp [Conn.Plain, Conn.view, hat]) rfl rfl htx ⟨rfl, rfl⟩
        rfl (hack (.inr (answered_failed hresp.isFailed rfl))) rfl (asked_idle rfl)
  | callSet hat =>
      rw [hat] at hwithin
      exact h.sets hst hinv hat hwithin.2 (reply_ok htx (hasked htx hat rfl rfl) rfl) rfl
  | visit hat ht =>
      refine h.visit hst hinv hat ht (hack (.inr (not_answered rfl))) ?_ ?_
      · cases ‹Ending› <;> rfl
      · cases ‹Ending› <;> rfl
  | release hat =>
      rw [hat] at hpoint
      refine h.keep hst rfl rfl (hack (.inr (not_answered rfl))) rfl (asked_idle rfl) (fun t ht => ?_)
        fun hloop t ht hnot => ?_
      · exact ⟨by simpa [Conn.view, hat, TwoPhase.View.dirty] using ht,
          hst.abs_same hinv rfl t⟩
      · exact h.decided (by rw [hat]; exact hloop) t ht
          (by simpa [Conn.view, hat, TwoPhase.View.dirty] using hnot)
  | finishDestroy hat =>
      refine h.keep hst rfl rfl (hack (.inr (not_answered rfl))) rfl (asked_idle rfl)
        (fun t ht => ?_) fun hloop => ?_
      · exact absurd ht (Finset.notMem_empty t)
      · cases hloop
  | finishCommit hat => cases htx
  | finishAbort hat hline => cases htx
  | finishCrash hat hline => cases htx
  | guardUnlock hat hresp =>
      rw [hat] at hpoint
      cases hpoint.1.symm.trans htx
  | _ =>
      -- an autocommit operation
      rw [‹(s.conns i).pc = _›] at hpoint
      cases hpoint.symm.trans htx

/-- **A turn keeps the book right.** -/
theorem Book.Right.turn (h : b.Right i s) (hinv : Inv s)
    (hwithin : (s.conns i).pc.Within Set.univ s.server) (hst : Stepped p s a effect c' s') :
    (noteBook p i s a s' b).Right i s' := by
  by_cases hi : i = a.conn
  case neg =>
    rw [noteBook_other hi]
    exact h.other hst hinv hi
  case pos =>
    subst hi
    rw [noteBook_self hst]
    have hself := hst.self
    have hwf := (hst.inv hinv).wf a.conn
    rw [hself] at hwf
    cases htx : c'.inTransaction with
    | false =>
        refine Book.right_empty ?_ (reply_outside htx) fun hin => ?_
        · rw [hself]
          exact hwf.idle htx
        · rw [hself] at hin
          cases htx.symm.trans hin
    | true =>
        have hrun := hst.runs
        obtain ⟨i, ch⟩ := a
        dsimp only at *
        cases ch with
        | recv line =>
            simp only [Conn.step] at hrun
            split at hrun
            · rename_i hread
              obtain ⟨rfl, rfl⟩ := Prod.mk.inj (Option.some.inj hrun)
              exact h.request hst hinv hread.1 rfl htx
            · cases hrun
        | eof =>
            simp only [Conn.step] at hrun
            split at hrun
            · rename_i hread
              obtain ⟨rfl, rfl⟩ := Prod.mk.inj (Option.some.inj hrun)
              exact h.ends hst hinv (Conn.plain_reading hread) htx (if_pos htx) ⟨rfl, rfl⟩
                (reply_same (b := b) (c := s.conns i) htx (.inr (not_answered rfl))) rfl
            · cases hrun
        | go =>
            have hpc : (s.conns i).pc ≠ .reading := fun hpc => by
              simp [Conn.step, Conn.go, hpc] at hrun
            exact h.go hinv hwithin hst hpc htx
        | visit t =>
            have hpc : (s.conns i).pc ≠ .reading := fun hpc => by simp [Conn.step, hpc] at hrun
            exact h.go hinv hwithin hst hpc htx

end Right

end KvServer
