/-
COMMIT installs what has been acknowledged.

A request that fails with an `OperationException` leaves its transaction as it was when the
request was received, but for a table that it may have locked: `Unharmed`.  So what COMMIT
installs are the SETs in the connection's `Book`, and nothing else.
-/
import KvServer.Proofs.Book

namespace KvServer

/-! ### Requests that fail

A request of a transaction writes in one place, the call of SET on its table, and that is
answered OK. Where an `OperationException` is thrown nothing has been written, and at most a
table has been locked.
-/

/-- What a request that fails leaves of its transaction: between its receipt in `s₀` and its
answer it may have locked a table. -/
structure Unharmed (i : ConnId) (s₀ s : State) : Prop where
  inTransaction : (s.conns i).inTransaction = true
  locked : (s₀.conns i).lockedTables ⊆ (s.conns i).lockedTables
  mutex : ∀ t ∈ (s.conns i).lockedTables, (s.server.tables t).tableMutex = some i
  same : ∀ t ∈ (s₀.conns i).lockedTables, s.server.tables t = s₀.server.tables t
  new : ∀ t ∈ (s.conns i).lockedTables, t ∉ (s₀.conns i).lockedTables →
    (s.server.tables t).keyValueTemp = ∅

section Unharmed

variable {p : Platform} {s₀ s s' : State} {a : Turn} {effect : Effect} {c' : Conn} {b : Book}
  {i : ConnId}

theorem held_handles {c : Conn} (hhandles : c.pc.handles = true) (hwf : c.WF)
    (htx : c.inTransaction = true) : c.Plain := by
  have hpoint := hwf.point
  unfold Conn.PointOk at hpoint
  cases hpc : c.pc with
  | guardCall x t =>
      rw [hpc] at hpoint
      cases hpoint.symm.trans htx
  | guardCommit t =>
      rw [hpc] at hpoint
      cases hpoint.symm.trans htx
  | guardUnlock t result =>
      rw [hpc] at hpoint
      cases hpoint.1.symm.trans htx
  | ending e rest =>
      rw [hpc] at hhandles
      cases hhandles
  | endingUnlock e t rest =>
      rw [hpc] at hhandles
      cases hhandles
  | closed =>
      rw [hpc] at hhandles
      cases hhandles
  | _ => simp [Conn.Plain, Conn.view, hpc]

/-- A turn that leaves the tables of the transaction as they are. -/
theorem Unharmed.quiet (h : Unharmed i s₀ s)
    (hsame : (s'.conns i).inTransaction = (s.conns i).inTransaction ∧
      (s'.conns i).lockedTables = (s.conns i).lockedTables)
    (htables : ∀ t ∈ (s.conns i).lockedTables, s'.server.tables t = s.server.tables t) :
    Unharmed i s₀ s' where
  inTransaction := hsame.1.trans h.inTransaction
  locked := hsame.2 ▸ h.locked
  mutex t ht := by
    rw [hsame.2] at ht
    rw [htables t ht]
    exact h.mutex t ht
  same t ht := (htables t (h.locked ht)).trans (h.same t ht)
  new t ht hnot := by
    rw [hsame.2] at ht
    rw [htables t ht]
    exact h.new t ht hnot

theorem Unharmed.refl (hinv : Inv s) (hpc : (s.conns i).pc = .reading)
    (htx : (s.conns i).inTransaction = true) : Unharmed i s s where
  inTransaction := htx
  locked := subset_rfl
  mutex t ht := hinv.mutex.mpr (by
    rw [Conn.held_plain (hinv.wf i) (Conn.plain_reading hpc)]
    exact ht)
  same _ _ := rfl
  new t ht hnot := absurd ht hnot

theorem Unharmed.locks (h : Unharmed i s₀ s) {x : Access} {t : TablePtr}
    (hst : Stepped p s ⟨i, .go⟩ (.lock t) { s.conns i with
      lockedTables := insert t (s.conns i).lockedTables, pc := .call x t } s') (hinv : Inv s)
    (hfree : (s.server.tables t).tableMutex = none) (hnot : t ∉ (s.conns i).lockedTables) :
    Unharmed i s₀ s' := by
  have hself : s'.conns i = _ := hst.self
  have hlocked : (s'.conns i).lockedTables = insert t (s.conns i).lockedTables := by rw [hself]
  have hother : ∀ u, u ≠ t → s'.server.tables u = s.server.tables u := by
    intro u hu
    rw [hst.server]
    exact Function.update_of_ne hu ..
  have hnew : s'.server.tables t = { s.server.tables t with tableMutex := some i } := by
    rw [hst.server]
    exact Function.update_self ..
  have hne : ∀ {u}, u ∈ (s.conns i).lockedTables → u ≠ t := by
    rintro u hu rfl
    exact hnot hu
  refine ⟨?_, ?_, fun u hu => ?_, fun u hu => ?_, fun u hu hold => ?_⟩
  · rw [hself]
    exact h.inTransaction
  · rw [hlocked]
    exact h.locked.trans (Finset.subset_insert _ _)
  · rw [hlocked] at hu
    rcases Finset.mem_insert.mp hu with rfl | hu
    · rw [hnew]
    · rw [hother u (hne hu)]
      exact h.mutex u hu
  · rw [hother u (hne (h.locked hu))]
    exact h.same u hu
  · rw [hlocked] at hu
    rcases Finset.mem_insert.mp hu with rfl | hu
    · rw [hnew]
      exact keyValueTemp_eq_empty (congrFun (hinv.protocol.clean_free hfree))
    · rw [hother u (hne hu)]
      exact h.new u hu hold

/-- **A request does no harm** before it gives up its transaction or carries out its SET. -/
theorem Unharmed.go {ch : Choice} (h : Unharmed i s₀ s) (hst : Stepped p s ⟨i, ch⟩ effect c' s')
    (hinv : Inv s) (hhandles : (s.conns i).pc.handles = true) (hloop : c'.pc.loop = none)
    (hset : ∀ t key value, effect ≠ .set t key value) : Unharmed i s₀ s' := by
  have hself : s'.conns i = c' := hst.self
  have hserver := hst.server
  have hwf := hinv.wf i
  have hplain := held_handles hhandles hwf h.inTransaction
  have hpoint := hwf.point
  unfold Conn.PointOk at hpoint
  have hquiet : c'.inTransaction = (s.conns i).inTransaction ∧
      c'.lockedTables = (s.conns i).lockedTables → s'.server.tables = s.server.tables →
      Unharmed i s₀ s' := by
    intro hsame htables
    rw [← hself] at hsame
    exact h.quiet hsame fun t _ => congrFun htables t
  cases hst.moves with
  | createNew hpc hnew =>
      refine h.quiet (by rw [hself]; exact ⟨rfl, rfl⟩) fun t ht => ?_
      rw [← Conn.held_plain hwf hplain] at ht
      rw [hserver]
      exact Function.update_of_ne (Nat.ne_of_lt (hinv.held_lt ht)) ..
  | trylock hpc hfree =>
      have hpc' : (s.conns i).pc = _ := hpc
      rw [hpc'] at hpoint
      exact h.locks hst hinv hfree hpoint.2
  | conflict hpc hheld => cases hloop
  | callSet hpc => exact absurd rfl (hset _ _ _)
  | createLock hpc hfree => exact hquiet ⟨rfl, rfl⟩ (by rw [hserver]; rfl)
  | createExists hpc hfound hwhat => exact hquiet ⟨rfl, rfl⟩ (by rw [hserver]; rfl)
  | createUnlock hpc hresp => exact hquiet ⟨rfl, rfl⟩ (by rw [hserver]; rfl)
  | findLock hpc hfree => exact hquiet ⟨rfl, rfl⟩ (by rw [hserver]; rfl)
  | findBody hpc => exact hquiet ⟨rfl, rfl⟩ (by rw [hserver]; rfl)
  | notFound hpc hresp => exact hquiet ⟨rfl, rfl⟩ (by rw [hserver]; rfl)
  | foundNew hpc htx ht => exact hquiet ⟨rfl, rfl⟩ (by rw [hserver]; rfl)
  | foundLocked hpc htx ht => exact hquiet ⟨rfl, rfl⟩ (by rw [hserver]; rfl)
  | foundAuto hpc htx => exact hquiet ⟨rfl, rfl⟩ (by rw [hserver]; rfl)
  | callGet hpc hget => exact hquiet ⟨rfl, rfl⟩ (by rw [hserver]; rfl)
  | callGetFail hpc hget hresp => exact hquiet ⟨rfl, rfl⟩ (by rw [hserver]; rfl)
  | guardUnlock hpc hresp =>
      have hpc' : (s.conns i).pc = _ := hpc
      rw [hpc'] at hpoint
      cases hpoint.1.symm.trans h.inTransaction
  | _ =>
      have hpc : (s.conns i).pc = _ := ‹(s.conns _).pc = _›
      first
        | (rw [hpc] at hhandles; exact absurd hhandles Bool.false_ne_true)
        | (rw [hpc] at hpoint; cases hpoint.symm.trans h.inTransaction)

theorem not_sent {c : Conn} {resp : Str} (hsent : c'.sent = c.sent ++ [resp]) : c'.sent ≠ c.sent := by
  rw [hsent]
  exact fun heq => List.cons_ne_nil _ _ (List.append_right_eq_self.mp heq)

theorem Served.handles {line : Str} {c : Conn} (h : Served p line c c')
    (hhandles : c'.pc.handles = true) :
    c'.inTransaction = c.inTransaction ∧ c'.lockedTables = c.lockedTables := by
  cases h with
  | create hm htype => exact ⟨rfl, rfl⟩
  | get hm htype => exact ⟨rfl, rfl⟩
  | set hm htype hstack => exact ⟨rfl, rfl⟩
  | leave hresp hleft =>
      change c.leave.handles = true at hhandles
      unfold Conn.leave at hhandles
      split at hhandles <;> cases hhandles
  | _ => cases hhandles

/-- A connection that has just answered FAILED goes on. -/
theorem failed_reading {line resp : Str} {c : Conn}
    (hsent : (c.chatWithClient p line).sent = c.sent ++ [resp])
    (hfailed : isFailedLine resp = true) : (c.chatWithClient p line).pc = .reading := by
  have hnot : ∀ {other : Str}, isFailedLine other = false → c.sent ++ [other] ≠ c.sent ++ [resp] := by
    intro other hother heq
    obtain rfl := List.singleton_inj.mp (List.append_cancel_left heq)
    cases hother.symm.trans hfailed
  cases hm : decode (cstr line) with
  | error e =>
      obtain ⟨what, other, -, hother, heq⟩ := chatWithClient_error p (c := c) hm
      rw [heq] at hsent
      exact absurd hsent (hnot (by simp [encode_isFailed hother]))
  | ok m =>
      rw [chatWithClient_ok p hm] at hsent ⊢
      have h := handled p m { c with received := c.received ++ [line] }
      unfold Conn.attempt at hsent ⊢
      rcases hexec : (handleRequest p m).exec { c with received := c.received ++ [line] } with ⟨r, c'⟩
      rw [hexec] at h hsent
      change Handled p m _ r c' at h
      cases h with
      | reply hline htx hlogin hstack => rfl
      | bye htype => exact absurd hsent (hnot okLine_not_failed)
      | failed stack hwhat hstack =>
          obtain ⟨line', hline', heq⟩ := catchClause_operation
            (c := { c with received := c.received ++ [line], stack := stack }) hwhat
          show (Conn.catchClause _ _).pc = _
          rw [heq]
      | @invalid what hrefuses hwhat =>
          set c₁ : Conn := { c with received := c.received ++ [line] }
          obtain ⟨other, hother, heq⟩ := respondWith_text c₁ c₁.leave (t := .error) rfl hwhat
          change (c₁.respondWith _ c₁.leave).sent = _ at hsent
          rw [heq] at hsent
          exact absurd hsent (hnot (by simp [encode_isFailed hother]))
      | _ => exact absurd rfl (not_sent hsent)

/-- A request that is answered FAILED at once. -/
theorem Served.failed {line resp : Str} {c : Conn} (h : Served p line c c')
    (hsent : c'.sent = c.sent ++ [resp]) (htx : c.inTransaction = true) :
    c'.inTransaction = c.inTransaction ∧ c'.lockedTables = c.lockedTables := by
  cases h with
  | reply hresp hflag hlogin hstack =>
      rcases hflag with rfl | ⟨hout, -⟩
      · exact ⟨rfl, rfl⟩
      · cases htx.symm.trans hout
  | leave hresp hleft => exact ⟨rfl, rfl⟩
  | _ => exact absurd rfl (not_sent hsent)

theorem Moves.handles {sv : Server} {c : Conn} {ch : Choice} (h : Moves p sv c ch effect c')
    (hwf : c.WF) (hpc : c.pc ≠ .reading) (hhandles : c'.pc.handles = true) :
    c.pc.handles = true ∧
      (c.inTransaction = true → ∀ t key value, effect ≠ .set t key value) := by
  have hpoint := hwf.point
  unfold Conn.PointOk at hpoint
  cases h with
  | request hread hpos hlen h => exact absurd hread hpc
  | eof hread => exact absurd hread hpc
  | guardSet hat =>
      rw [hat] at hpoint ⊢
      exact ⟨rfl, fun htx => by cases hpoint.symm.trans htx⟩
  | _ =>
      first
        | exact absurd hhandles Bool.false_ne_true
        | (rw [‹c.pc = _›]; exact ⟨rfl, fun _ _ _ _ => nofun⟩)

/-- A request that is answered FAILED in its course, with its transaction not on its way out. -/
theorem Moves.failed {sv : Server} {c : Conn} {ch : Choice} {resp : Str}
    (h : Moves p sv c ch effect c') (hpc : c.pc ≠ .reading) (hloop : c.pc.loop = none)
    (hsent : c'.sent = c.sent ++ [resp]) (hfailed : isFailedLine resp = true) :
    c.pc.handles = true ∧ c'.pc = .reading ∧ ∀ t key value, effect ≠ .set t key value := by
  cases h with
  | request hread hpos hlen h => exact absurd hread hpc
  | eof hread => exact absurd hread hpc
  | callSet hat =>
      obtain rfl := List.singleton_inj.mp (List.append_cancel_left hsent)
      cases okLine_not_failed.symm.trans hfailed
  | createUnlock hat hresp => exact ⟨by rw [hat]; rfl, rfl, nofun⟩
  | notFound hat hresp => exact ⟨by rw [hat]; rfl, rfl, nofun⟩
  | callGet hat hget => exact ⟨by rw [hat]; rfl, rfl, nofun⟩
  | callGetFail hat hget hresp => exact ⟨by rw [hat]; rfl, rfl, nofun⟩
  | guardUnlock hat hresp => exact ⟨by rw [hat]; rfl, rfl, nofun⟩
  | finishCommit hat =>
      rw [hat] at hloop
      cases hloop
  | finishAbort hat hline =>
      rw [hat] at hloop
      cases hloop
  | _ => exact absurd rfl (not_sent hsent)

/-- The book is right, and the request that is being handled has done no harm yet. -/
structure Book.Sound (b : Book) (i : ConnId) (s : State) : Prop where
  inv : Inv s
  within : (s.conns i).pc.Within Set.univ s.server
  right : b.Right i s
  receipt : (s.conns i).pc.handles = true → (b.receipt.conns i).inTransaction = true →
    Unharmed i b.receipt s

/-- A line that is read in a transaction leaves the server alone. -/
theorem Unharmed.reads {line : Str} (hinv : Inv s)
    (hst : Stepped p s ⟨i, .recv line⟩ .none c' s') (hpc : (s.conns i).pc = .reading)
    (htx : (s.conns i).inTransaction = true)
    (hsame : c'.inTransaction = (s.conns i).inTransaction ∧
      c'.lockedTables = (s.conns i).lockedTables) : Unharmed i s s' := by
  refine (Unharmed.refl hinv hpc htx).quiet ?_ fun t _ => by rw [hst.server]; rfl
  have hself : s'.conns i = c' := hst.self
  rw [hself]
  exact hsame

/-- **A request that is answered FAILED, and not because its transaction is given up, leaves
the transaction as it was.** -/
theorem Book.Sound.failed {resp : Str} (h : b.Sound a.conn s) (hst : Stepped p s a effect c' s')
    (hloop : (s.conns a.conn).pc.loop = none) (hsent : c'.sent = (s.conns a.conn).sent ++ [resp])
    (hfailed : isFailedLine resp = true)
    (htx : ((noteBook p a.conn s a s' b).receipt.conns a.conn).inTransaction = true) :
    c'.pc = .reading ∧ (noteBook p a.conn s a s' b).acknowledged = b.acknowledged ∧
      Unharmed a.conn (noteBook p a.conn s a s' b).receipt s' := by
  have hself := hst.self
  rw [noteBook_self hst] at htx ⊢
  have hrun := hst.runs
  have hack : ∀ b' : Book, c'.inTransaction = true →
      (b'.reply (s.conns a.conn) c').acknowledged = b'.acknowledged := fun b' hin =>
    reply_same hin (.inr (answered_failed hfailed hsent))
  obtain ⟨i, ch⟩ := a
  dsimp only at *
  by_cases hpc : (s.conns i).pc = .reading
  · cases ch with
    | recv line =>
        simp only [Conn.step] at hrun
        split at hrun
        · obtain ⟨rfl, rfl⟩ := Prod.mk.inj (Option.some.inj hrun)
          have hsame := (served p line (s.conns i)).failed hsent htx
          exact ⟨failed_reading hsent hfailed, hack _ (hsame.1.trans htx),
            Unharmed.reads h.inv hst hpc htx hsame⟩
        · cases hrun
    | eof =>
        simp only [Conn.step, if_pos hpc] at hrun
        obtain ⟨rfl, rfl⟩ := Prod.mk.inj (Option.some.inj hrun)
        exact absurd rfl (not_sent hsent)
    | go => simp [Conn.step, Conn.go, hpc] at hrun
    | visit t => simp [Conn.step, hpc] at hrun
  · obtain ⟨hhandles, hreading, hset⟩ := hst.moves.failed hpc hloop hsent hfailed
    have hreceipt : b.receive s i ch = b := by
      cases ch with
      | recv line => simp [Conn.step, hpc] at hrun
      | _ => rfl
    rw [hreceipt] at htx ⊢
    have hharm := (h.receipt hhandles htx).go hst h.inv hhandles (by rw [hreading]; rfl) hset
    have hin := hharm.inTransaction
    rw [hself] at hin
    exact ⟨hreading, hack _ hin, hharm⟩

theorem Book.Sound.turn (h : b.Sound i s) (hst : Stepped p s a effect c' s') :
    (noteBook p i s a s' b).Sound i s' := by
  refine ⟨hst.inv h.inv, ?_, h.right.turn h.inv h.within hst, fun hhandles htx => ?_⟩
  · by_cases hi : i = a.conn
    · subst hi
      rw [hst.self, hst.server]
      exact hst.moves.within h.within fun line _ m _ => ⟨fun _ => ⟨[], trivial⟩, fun _ => trivial⟩
    · exact hst.within_other h.inv hi h.within
  · by_cases hi : i = a.conn
    · subst hi
      rw [hst.self] at hhandles
      rw [noteBook_self hst] at htx ⊢
      have hrun := hst.runs
      obtain ⟨i, ch⟩ := a
      dsimp only at *
      by_cases hpc : (s.conns i).pc = .reading
      · cases ch with
        | recv line =>
            simp only [Conn.step] at hrun
            split at hrun
            · obtain ⟨rfl, rfl⟩ := Prod.mk.inj (Option.some.inj hrun)
              exact Unharmed.reads h.inv hst hpc htx
                ((served p line (s.conns i)).handles hhandles)
            · cases hrun
        | eof =>
            simp only [Conn.step, if_pos hpc] at hrun
            obtain ⟨rfl, rfl⟩ := Prod.mk.inj (Option.some.inj hrun)
            change (s.conns i).leave.handles = true at hhandles
            unfold Conn.leave at hhandles
            split at hhandles <;> cases hhandles
        | go => simp [Conn.step, Conn.go, hpc] at hrun
        | visit t => simp [Conn.step, hpc] at hrun
      · obtain ⟨hhandled, hset⟩ := hst.moves.handles (h.inv.wf i) hpc hhandles
        have hreceipt : b.receive s i ch = b := by
          cases ch with
          | recv line => simp [Conn.step, hpc] at hrun
          | _ => rfl
        rw [hreceipt] at htx ⊢
        have hharm := h.receipt hhandled htx
        refine hharm.go hst h.inv hhandled ?_ (hset hharm.inTransaction)
        cases hpc' : c'.pc <;> rw [hpc'] at hhandles <;> first | rfl | cases hhandles
    · rw [noteBook_other hi] at htx ⊢
      rw [hst.other hi] at hhandles
      have hharm := h.receipt hhandles htx
      have hplain := held_handles hhandles (h.inv.wf i) hharm.inTransaction
      refine hharm.quiet (by rw [hst.other hi]; exact ⟨rfl, rfl⟩) fun t ht => ?_
      rw [← Conn.held_plain (h.inv.wf i) hplain] at ht
      exact hst.frame h.inv hi ht

end Unharmed

/-! ### Every transaction that commits

The book is started where the run starts, with nobody connected, so it covers each transaction
from its BEGIN.
-/

/-- What is required, in one state, of a connection's transactions and their requests. -/
structure InstallsAcknowledged (p : Platform) (i : ConnId) (s : State) (b : Book) : Prop where
  /-- When COMMIT is answered, each table that the transaction had locked has been given what
  was found in it, with the acknowledged SETs in their order. -/
  committed : ∀ a s', a.conn = i → s.step p a = some s' → (s.conns i).pc = .ending .commit ∅ →
    (s'.conns i).sent = (s.conns i).sent ++ [okLine] ∧
      ∀ t ∈ (s.conns i).lockedTables, b.installed t = some (b.outcome s.server t)
  /-- A request that fails with an `OperationException` acknowledges nothing, and leaves its
  transaction as it was received in it. -/
  failed : ∀ a s' resp, a.conn = i → s.step p a = some s' → (s.conns i).pc.loop = none →
    (s'.conns i).sent = (s.conns i).sent ++ [resp] → isFailedLine resp = true →
    ((noteBook p i s a s' b).receipt.conns i).inTransaction = true →
      (s'.conns i).pc = .reading ∧ (noteBook p i s a s' b).acknowledged = b.acknowledged ∧
        Unharmed i (noteBook p i s a s' b).receipt s'

section System

variable {p : Platform} {s₀ s : State} {b : Book} {i : ConnId} {turns : List Turn}

theorem Book.Sound.installsAcknowledged (h : b.Sound i s) : InstallsAcknowledged p i s b where
  committed a s' hi hstep hpc := by
    obtain ⟨effect, c', hst⟩ := h.inv.stepped hstep
    subst hi
    refine ⟨?_, fun t ht => h.right.decided (by rw [hpc]; rfl) t ht ?_⟩
    · rw [hst.self]
      have hrun := hst.runs
      cases hch : a.choice with
      | go =>
          simp only [hch, Conn.step, Conn.go, hpc, if_true, Option.some.injEq, Prod.mk.injEq] at hrun
          rw [← hrun.2]
          simp [Conn.finish, Conn.attempt]
      | _ => simp [hch, Conn.step, hpc] at hrun
    · simp [Conn.view, hpc, TwoPhase.View.dirty]
  failed a s' resp hi hstep hloop hsent hfailed htx := by
    obtain ⟨effect, c', hst⟩ := h.inv.stepped hstep
    subst hi
    rw [hst.self] at hsent ⊢
    exact h.failed hst hloop hsent hfailed htx

/-- A book in which nothing has been written. -/
def Book.start (s : State) : Book := { receipt := s }

theorem Boot.book (h : Boot s₀) (i : ConnId) : (Book.start s₀).Sound i s₀ where
  inv := h.inv
  within := by
    rw [h.conns]
    trivial
  right := Book.right_empty (by rw [h.conns]) rfl fun _ => by rw [h.conns]
  receipt hhandles := by
    rw [h.conns] at hhandles
    cases hhandles

/-- **COMMIT installs exactly the acknowledged SETs**, among any turns of other connections. -/
theorem commit_installs_acknowledged (hboot : Boot s₀)
    (hrun : Transition.run (Transition.recorded (State.step p) (noteBook p i))
      (s₀, Book.start s₀) turns = some (s, b)) : InstallsAcknowledged p i s b := by
  have h : b.Sound i s := Transition.run_invariant (I := fun x : State × Book => x.2.Sound i x.1)
    (fun {x a x'} hx hstep => by
      obtain ⟨hturn, hnote⟩ := Transition.recorded_eq_some.mp hstep
      obtain ⟨effect, c', hst⟩ := hx.inv.stepped hturn
      rw [hnote]
      exact hx.turn hst) (hboot.book i) hrun
  exact h.installsAcknowledged

end System

/-- Two SETs are answered OK, and between them a GET and a SET fail. -/
def committing : List Turn :=
  [⟨0, .recv (bytes "LOGIN a\n")⟩, ⟨0, .recv (bytes "CREATE t\n")⟩, ⟨0, .go⟩, ⟨0, .go⟩, ⟨0, .go⟩,
    ⟨0, .recv (bytes "BEGIN\n")⟩, ⟨0, .recv (bytes "PUSH 1\n")⟩,
    ⟨0, .recv (bytes "SET t k\n")⟩, ⟨0, .go⟩, ⟨0, .go⟩, ⟨0, .go⟩, ⟨0, .go⟩, ⟨0, .go⟩,
    ⟨1, .recv (bytes "LOGIN b\n")⟩,
    ⟨0, .recv (bytes "GET t x\n")⟩, ⟨0, .go⟩, ⟨0, .go⟩, ⟨0, .go⟩, ⟨0, .go⟩,
    ⟨0, .recv (bytes "PUSH 2\n")⟩, ⟨0, .recv (bytes "SET u k\n")⟩, ⟨0, .go⟩, ⟨0, .go⟩, ⟨0, .go⟩,
    ⟨0, .recv (bytes "PUSH 3\n")⟩,
    ⟨0, .recv (bytes "SET t k\n")⟩, ⟨0, .go⟩, ⟨0, .go⟩, ⟨0, .go⟩, ⟨0, .go⟩,
    ⟨0, .recv (bytes "COMMIT\n")⟩, ⟨0, .visit 0⟩, ⟨0, .go⟩]

theorem commit_installs_acknowledged_failing :
    ∃ s b, Transition.run (Transition.recorded (State.step trapping) (noteBook trapping 0))
        (State.initial, Book.start State.initial) committing = some (s, b) ∧
      (s.conns 0).pc = .ending .commit ∅ ∧
      b.acknowledged = [{ table := bytes "t", key := bytes "k", value := bytes "1" },
        { table := bytes "t", key := bytes "k", value := bytes "3" }] ∧
      InstallsAcknowledged trapping 0 s b := by
  have hends : (Transition.run (Transition.recorded (State.step trapping) (noteBook trapping 0))
      (State.initial, Book.start State.initial) committing).map
        (fun x => decide ((x.1.conns 0).pc = .ending .commit ∅ ∧ x.2.acknowledged
          = [{ table := bytes "t", key := bytes "k", value := bytes "1" },
            { table := bytes "t", key := bytes "k", value := bytes "3" }])) = some true := by
    decide +kernel
  obtain ⟨⟨s, b⟩, hrun, hx⟩ := Option.map_eq_some_iff.mp hends
  obtain ⟨hpc, hack⟩ := of_decide_eq_true hx
  exact ⟨s, b, hrun, hpc, hack, commit_installs_acknowledged boot_initial hrun⟩

end KvServer
