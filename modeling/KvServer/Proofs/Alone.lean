/-
A connection that nobody keeps waiting.

If nobody else has a mutex, a connection gets each one that it tries and is done with its
request after so many of its own steps.  So it can be given any lines of input, and what
becomes of them is what `Placed.run` says.
-/
import KvServer.Proofs.Replies
import KvServer.Proofs.Scope

namespace KvServer

/-! ### Input within a scope

What a connection has read tells which input it was given: the lines in their order, and maybe
the end of it. So a condition on the input is one on what has been read.
-/

section Input

variable {p : Platform} {s s' : State} {a : Turn} {effect : Effect} {c' : Conn} {scope : Scope}
  {i : ConnId} {turns : List Turn} {lines : List Str}

/-- `State.Undisturbed`, but for what the connection itself asks for. -/
def State.Unhindered (p : Platform) (scope : Scope) (i : ConnId) (s : State) (a : Turn) : Prop :=
  (a.conn = i → ∀ x t, (s.conns i).pc = .trylock x t → (s.server.tables t).tableMutex = none) ∧
  (a.conn ≠ i → ∀ s', s.step p a = some s' →
    s'.server.store scope i = s.server.store scope i)

theorem Stepped.received (hst : Stepped p s a effect c' s') (i : ConnId) :
    (s'.conns i).received
      = (s.conns i).received ++ if a.conn = i then a.choice.received else [] := by
  by_cases hi : a.conn = i
  · subst hi
    rw [hst.self, if_pos rfl]
    exact hst.moves.received
  · rw [hst.other fun heq => hi heq.symm, if_neg hi, List.append_nil]

/-- Nothing that has been read is forgotten. -/
theorem Inv.received_grows (h : Inv s) (hrun : Transition.run (State.step p) s turns = some s')
    (i : ConnId) : ∃ more, (s'.conns i).received = (s.conns i).received ++ more := by
  refine (Transition.run_invariant (I := fun m => Inv m ∧
    ∃ more, (m.conns i).received = (s.conns i).received ++ more) ?_
    ⟨h, [], (List.append_nil _).symm⟩ hrun).2
  rintro m a m' ⟨hm, more, hmore⟩ hstep
  obtain ⟨effect, c', hst⟩ := hm.stepped hstep
  exact ⟨hst.inv hm, _, by rw [hst.received i, hmore, List.append_assoc]⟩

/-- Lines that `rio_readlineb` can store. -/
def Fit (lines : List Str) : Prop :=
  ∀ line ∈ lines, 0 < line.length ∧ line.length ≤ maxEncodedLen - 1

theorem Moves.fits {sv : Server} {c : Conn} {ch : Choice} (h : Moves p sv c ch effect c') :
    Fit ch.received := by
  intro line hline
  cases h with
  | request hpc hpos hlen h =>
      obtain rfl := List.mem_singleton.mp hline
      exact ⟨hpos, hlen⟩
  | _ => cases hline

theorem Inv.received_fit (h : Inv s) (hfit : Fit (s.conns i).received)
    (hrun : Transition.run (State.step p) s turns = some s') : Fit (s'.conns i).received := by
  refine (Transition.run_invariant (I := fun m => Inv m ∧ Fit (m.conns i).received) ?_
    ⟨h, hfit⟩ hrun).2
  rintro m a m' ⟨hm, hfits⟩ hstep
  obtain ⟨effect, c', hst⟩ := hm.stepped hstep
  refine ⟨hst.inv hm, fun line hline => ?_⟩
  rw [hst.received i] at hline
  rcases List.mem_append.mp hline with hline | hline
  · exact hfits line hline
  · split at hline
    · exact hst.moves.fits line hline
    · cases hline

/-- A run reads what it is found to have read. -/
theorem Inv.input (h : Inv s) (hrun : Transition.run (State.step p) s turns = some s')
    (hreceived : (s'.conns i).received = (s.conns i).received ++ lines) :
    Transition.Along (State.step p)
      (fun _ a => a.conn = i → ∀ line, a.choice = .recv line → line ∈ lines) s turns := by
  induction turns generalizing s lines with
  | nil => trivial
  | cons a rest ih =>
      obtain ⟨m, hm, hrest⟩ := Transition.run_cons_eq_some.mp hrun
      obtain ⟨effect, c', hst⟩ := h.stepped hm
      obtain ⟨more, hmore⟩ := (hst.inv h).received_grows hrest i
      have hlines : lines = (if a.conn = i then a.choice.received else []) ++ more := by
        rw [hmore, hst.received i, List.append_assoc] at hreceived
        exact (List.append_cancel_left hreceived).symm
      refine ⟨fun hi line hline => by simp [hlines, hi, hline, Choice.received], fun m' hm' => ?_⟩
      obtain rfl := Option.some.inj (hm.symm.trans hm')
      refine (ih (hst.inv h) hrest hmore).mono fun _ b hb hi line hline => ?_
      exact hlines ▸ List.mem_append_right _ (hb hi line hline)

theorem Inv.undisturbed (h : Inv s)
    (hu : Transition.Along (State.step p) (State.Unhindered p scope i) s turns)
    (hrun : Transition.run (State.step p) s turns = some s')
    (hreceived : (s'.conns i).received = (s.conns i).received ++ lines)
    (hadmits : ∀ line ∈ lines, scope.Admits line) :
    Transition.Along (State.step p) (State.Undisturbed p scope i) s turns :=
  (hu.and (h.input hrun hreceived)).mono fun _ _ hb =>
    ⟨fun hi => ⟨fun line hline => hadmits line (hb.2 hi line hline), hb.1.1 hi⟩, hb.1.2⟩

/-- A connection that is still reading was never about to go. -/
theorem Inv.stays (h : Inv s) (hrun : Transition.run (State.step p) s turns = some s')
    (hpc : (s'.conns i).pc = .reading) : (s.conns i).pc.gone = false := by
  by_contra hgone
  have hkept := (Transition.run_invariant (I := fun m => Inv m ∧ (m.conns i).pc.gone = true) ?_
    ⟨h, by simpa using hgone⟩ hrun).2
  · rw [hpc] at hkept
    cases hkept
  · rintro m a m' ⟨hm, hgone⟩ hstep
    obtain ⟨effect, c', hst⟩ := hm.stepped hstep
    refine ⟨hst.inv hm, ?_⟩
    by_cases hi : a.conn = i
    · subst hi
      have hpc : (m.conns a.conn).pc ≠ .reading := by
        intro hpc
        rw [hpc] at hgone
        cases hgone
      rw [hst.self, hst.moves.gone hpc]
      exact hgone
    · rw [hst.other fun heq => hi heq.symm]
      exact hgone

theorem Inv.stays_along (h : Inv s) (hrun : Transition.run (State.step p) s turns = some s')
    (hpc : (s'.conns i).pc = .reading) :
    Transition.Along (State.step p)
      (fun m a => ∀ m', m.step p a = some m' → (m'.conns i).pc.gone = false) s turns := by
  induction turns generalizing s with
  | nil => trivial
  | cons a rest ih =>
      obtain ⟨m, hm, hrest⟩ := Transition.run_cons_eq_some.mp hrun
      have hinv := h.step hm
      refine ⟨fun m' hm' => ?_, fun m' hm' => ?_⟩
      · obtain rfl := Option.some.inj (hm.symm.trans hm')
        exact hinv.stays hrest hpc
      · obtain rfl := Option.some.inj (hm.symm.trans hm')
        exact ih hinv hrest

end Input

/-! ### Nobody else has a mutex

Nobody gets a mutex without a turn of its own, so this stays as it is while only one
connection moves, and no step of that one is refused or kept waiting.
-/

/-- Nobody but connection `i` has a mutex. -/
def State.Open (s : State) (i : ConnId) : Prop :=
  ∀ k j, s.server.owner k = some j → j = i

/-- Only connection `i` moves. -/
def Alone (i : ConnId) (turns : List Turn) : Prop := ∀ a ∈ turns, a.conn = i

section Open

variable {p : Platform} {s s' : State} {a : Turn} {effect : Effect} {c' : Conn} {scope : Scope}
  {i : ConnId} {turns : List Turn} {lines : List Str}

theorem apply_owner {sv : Server} {k : Mutex} {j : ConnId}
    (h : (sv.apply i effect).owner k = some j) :
    sv.owner k = some j ∨ j = i ∧ ∀ t, k = .table t → effect = .lock t := by
  have hmodify : ∀ (t u : TablePtr) (f : Table → Table),
      (∀ table, (f table).tableMutex = some j → table.tableMutex = some j) →
      (sv.modifyTable t f).owner (.table u) = some j → sv.owner (.table u) = some j := by
    intro t u f hf hj
    by_cases hu : u = t
    · subst hu
      simp only [Server.owner, Server.modifyTable, Function.update_self] at hj
      exact hf _ hj
    · simpa only [Server.owner, Server.modifyTable, Function.update_of_ne hu] using hj
  cases k with
  | catalogue =>
      cases effect with
      | lockCatalogue => exact .inr ⟨(Option.some.inj h).symm, by simp⟩
      | unlockCatalogue => cases h
      | _ => exact .inl h
  | table u =>
      cases effect with
      | newTable name =>
          by_cases hu : u = sv.allocated
          · simp [Server.apply, Server.newTable, Server.owner, hu] at h
          · simp only [Server.apply, Server.newTable, Server.owner, Function.update_of_ne hu] at h
            exact .inl h
      | lock t =>
          by_cases hu : u = t
          · subst hu
            simp only [Server.apply, Server.owner, Server.modifyTable, Function.update_self] at h
            exact .inr ⟨(Option.some.inj h).symm, fun _ heq => by cases heq; rfl⟩
          · simp only [Server.apply, Server.owner, Server.modifyTable, Function.update_of_ne hu] at h
            exact .inl h
      | unlock t =>
          refine .inl (hmodify t u (fun table => { table with tableMutex := none }) ?_ h)
          exact fun table hj => by cases hj
      | set t key value => exact .inl (hmodify t u (Table.set · key value) (fun table => id) h)
      | commitChanges t => exact .inl (hmodify t u Table.commitChanges (fun table => id) h)
      | rollbackChanges t => exact .inl (hmodify t u Table.rollbackChanges (fun table => id) h)
      | _ => exact .inl h

theorem Stepped.open (hst : Stepped p s a effect c' s') (ha : a.conn = i) (h : s.Open i) :
    s'.Open i := by
  intro k j hj
  rw [hst.server, ha] at hj
  rcases apply_owner hj with hold | hnew
  · exact h k j hold
  · exact hnew.1

/-- A `trylock` is not refused, -/
theorem State.Open.trylock (hopen : s.Open i) (h : Inv s) {x : Access} {t : TablePtr}
    (hpc : (s.conns i).pc = .trylock x t) : (s.server.tables t).tableMutex = none := by
  cases hmutex : (s.server.tables t).tableMutex with
  | none => rfl
  | some j =>
      obtain rfl := hopen (.table t) j hmutex
      exact absurd (h.mutex.mp hmutex) (h.not_held (.inl hpc))

/-- and there is nothing to wait for. -/
theorem State.Open.not_blocked (hopen : s.Open i) (h : Inv s) : ¬ s.Blocked i := by
  rintro ⟨k, hwants, howner⟩
  obtain ⟨j, hj⟩ := Option.ne_none_iff_exists'.mp howner
  obtain rfl := hopen k j hj
  exact Nat.lt_irrefl _ (h.rank j k k hwants ((h.owned k j).mp hj))

theorem Alone.unhindered (halone : Alone i turns) (h : Inv s) (hopen : s.Open i) :
    Transition.Along (State.step p) (State.Unhindered p scope i) s turns := by
  induction turns generalizing s with
  | nil => trivial
  | cons a rest ih =>
      have ha : a.conn = i := halone a List.mem_cons_self
      refine ⟨⟨fun _ x t hpc => hopen.trylock h hpc, fun hne => absurd ha hne⟩, fun m hm => ?_⟩
      obtain ⟨effect, c', hst⟩ := h.stepped hm
      exact ih (fun b hb => halone b (List.mem_cons_of_mem _ hb)) (hst.inv h) (hst.open ha hopen)

/-! ### It is done sooner or later

Every step inside a request gets nearer to its end (`Moves.remaining`), which makes the
existence of a run an induction on that bound.
-/

/-- Connection `i` reads `lines`, with more to come, and nobody else moves. -/
def State.RunsAlone (p : Platform) (i : ConnId) (lines : List Str) (s s' : State) : Prop :=
  ∃ turns, Alone i turns ∧ (∀ a ∈ turns, a.choice ≠ .eof) ∧
    Transition.run (State.step p) s turns = some s' ∧
    (s'.conns i).received = (s.conns i).received ++ lines

theorem State.RunsAlone.trans {m : State} {more : List Str} (h : s.RunsAlone p i lines m)
    (h' : m.RunsAlone p i more s') : s.RunsAlone p i (lines ++ more) s' := by
  obtain ⟨turns, halone, heof, hrun, hreceived⟩ := h
  obtain ⟨turns', halone', heof', hrun', hreceived'⟩ := h'
  refine ⟨turns ++ turns', fun a ha => ?_, fun a ha => ?_,
    Transition.run_append_eq_some.mpr ⟨m, hrun, hrun'⟩, ?_⟩
  · exact (List.mem_append.mp ha).elim (halone a) (halone' a)
  · exact (List.mem_append.mp ha).elim (heof a) (heof' a)
  · rw [hreceived', hreceived, List.append_assoc]

theorem Stepped.runsAlone (hst : Stepped p s a effect c' s') (hstep : s.step p a = some s')
    (heof : a.choice ≠ .eof) : s.RunsAlone p a.conn a.choice.received s' := by
  refine ⟨[a], fun b hb => ?_, fun b hb => ?_, Transition.run_cons_eq_some.mpr ⟨s', hstep, rfl⟩, ?_⟩
  · rw [List.mem_singleton.mp hb]
  · rwa [List.mem_singleton.mp hb]
  · rw [hst.received a.conn, if_pos rfl]

/-- What a connection that is run alone keeps. -/
structure State.Sound (s : State) (i : ConnId) : Prop where
  inv : Inv s
  isOpen : s.Open i
  terminated : s.terminated = decide ((s.conns i).pc = .terminated)

theorem State.RunsAlone.sound (h : s.RunsAlone p i lines s') (hs : s.Sound i) : s'.Sound i := by
  obtain ⟨turns, halone, -, hrun, -⟩ := h
  refine Transition.along_invariant (Q := fun _ a => a.conn = i) (I := fun m => m.Sound i) ?_ hs
    (Transition.along_of_forall fun a ha _ => halone a ha) hrun
  rintro m a m' hm rfl hstep
  obtain ⟨effect, c', hst⟩ := hm.inv.stepped hstep
  exact ⟨hst.inv hm.inv, hst.open rfl hm.isOpen, by rw [hst.terminated, hst.self]⟩

theorem Boot.sound (h : Boot s) (i : ConnId) : s.Sound i where
  inv := h.inv
  isOpen k j hj := by
    cases k with
    | catalogue => cases h.unlocked.1.symm.trans hj
    | table t => cases (h.unlocked.2 t).symm.trans hj
  terminated := by simp [h.running, h.conns i]

/-- No request is being handled. -/
def Pc.Rests (pc : Pc) : Prop := pc = .reading ∨ pc = .closed ∨ pc = .terminated

/-- **What is begun is done.** -/
theorem State.Sound.rests (hs : s.Sound i) :
    ∃ s', s.RunsAlone p i [] s' ∧ (s'.conns i).pc.Rests := by
  induction hn : (s.conns i).remaining using Nat.strong_induction_on generalizing s with
  | _ n ih =>
      subst hn
      by_cases hrests : (s.conns i).pc.Rests
      · exact ⟨s, ⟨[], nofun, nofun, rfl, (List.append_nil _).symm⟩, hrests⟩
      · obtain ⟨hreading, hother⟩ := not_or.mp hrests
        obtain ⟨hclosed, hlive⟩ := not_or.mp hother
        have hrunning : s.terminated = false := by simpa [hlive] using hs.terminated
        rcases goes_on hrunning hlive p with h | h | h | ⟨choice, hturn⟩
        · exact absurd h hreading
        · exact absurd h hclosed
        · exact absurd h (hs.isOpen.not_blocked hs.inv)
        · obtain ⟨⟨effect, c'⟩, hturn⟩ := Option.isSome_iff_exists.mp hturn
          have hstep : s.step p ⟨i, choice⟩ = some _ := Option.map_eq_some_iff.mpr ⟨_, hturn, rfl⟩
          obtain ⟨effect', c'', hst⟩ := hs.inv.stepped hstep
          have hnothing : choice.received = [] := by
            have hsame := hst.moves.received_same hreading
            rw [hst.moves.received] at hsame
            exact List.append_right_eq_self.mp hsame
          have heof : choice ≠ .eof := by
            rintro rfl
            cases hst.moves with
            | eof hpc => exact hreading hpc
          have hfirst := hst.runsAlone hstep heof
          rw [hnothing] at hfirst
          have hnearer : ((_ : State).conns i).remaining < (s.conns i).remaining :=
            hst.self ▸ hst.moves.remaining hreading
          obtain ⟨s', hruns, hend⟩ := ih _ hnearer (hfirst.sound hs) rfl
          exact ⟨s', hfirst.trans hruns, hend⟩

/-- Connection `i` is given `lines`, nobody else moves, and it is done with those it reads. -/
def State.Completes (p : Platform) (i : ConnId) (lines : List Str) (s s' : State) : Prop :=
  ∃ got rest, lines = got ++ rest ∧ s.RunsAlone p i got s' ∧ (s'.conns i).pc.Rests ∧
    ((s'.conns i).pc = .reading → rest = [])

/-- **Lines are read one after the other**, until the connection is gone. -/
theorem State.Sound.completes (hs : s.Sound i) (p : Platform) (hfit : Fit lines) :
    ∃ s', s.Completes p i lines s' := by
  obtain ⟨m, hm, hrests⟩ := hs.rests (p := p)
  induction lines generalizing s m with
  | nil => exact ⟨m, [], [], rfl, hm, hrests, fun _ => rfl⟩
  | cons line rest ih =>
      by_cases hpc : (m.conns i).pc = .reading
      · have hmsound := hm.sound hs
        have hrunning : m.terminated = false := by simpa [hpc] using hmsound.terminated
        obtain ⟨hpos, hlen⟩ := hfit line List.mem_cons_self
        obtain ⟨n, hstep, -⟩ := step_recv p hrunning hpc hpos hlen
        obtain ⟨effect, c', hst⟩ := hmsound.inv.stepped hstep
        have hline := hst.runsAlone hstep nofun
        obtain ⟨u, hu, hurests⟩ := (hline.sound hmsound).rests (p := p)
        obtain ⟨s', got, left, hlines, hruns, hend, hall⟩ :=
          ih (hline.sound hmsound) (fun l hl => hfit l (List.mem_cons_of_mem _ hl)) u hu hurests
        exact ⟨s', line :: got, left, by rw [hlines]; rfl, hm.trans (hline.trans hruns), hend, hall⟩
      · exact ⟨m, [], line :: rest, rfl, hm, hrests, fun h => absurd h hpc⟩

/-- **What is read is executed.** -/
theorem State.RunsAlone.settle (h : s.RunsAlone p i lines s') (hs : s.Sound i)
    (hplaced : Placed scope i s) (hadmits : ∀ line ∈ lines, scope.Admits line) :
    Placed scope i s' ∧ s'.settle scope i = (s.settle scope i).run p lines := by
  obtain ⟨turns, halone, heof, hrun, hreceived⟩ := h
  have hu := hs.inv.undisturbed (halone.unhindered hs.inv hs.isOpen) hrun hreceived hadmits
  obtain ⟨hplaced', lines', hung, hreceived', htook, hnot_hung⟩ :=
    hplaced.run True hu (fun _ a ha _ => heof a ha) hrun
  obtain rfl := List.append_cancel_left (hreceived.symm.trans hreceived')
  obtain rfl := hnot_hung trivial
  exact ⟨hplaced', htook.eq⟩

theorem rests_live {c : Conn} (st : Store) (h : c.pc.Rests) :
    (c.settle st).status = .live ↔ c.pc = .reading := by
  rcases h with h | h | h
  · simp [Conn.settle, h, Conn.session]
  · simp [Conn.settle, h]
  · simp [Conn.settle, h, Solo.crash]

theorem rests_crashed {c : Conn} (st : Store) (h : c.pc.Rests) :
    (c.settle st).status = .crashed ↔ c.pc = .terminated := by
  rcases h with h | h | h
  · simp [Conn.settle, h, Conn.session]
  · simp [Conn.settle, h]
  · simp [Conn.settle, h, Solo.crash]

theorem State.Completes.settle (h : s.Completes p i lines s') (hs : s.Sound i)
    (hplaced : Placed scope i s) (hadmits : ∀ line ∈ lines, scope.Admits line) :
    s'.Sound i ∧ Placed scope i s' ∧ (s'.conns i).pc.Rests ∧
      s'.settle scope i = (s.settle scope i).run p lines := by
  obtain ⟨got, rest, rfl, hruns, hrests, hall⟩ := h
  obtain ⟨hplaced', hsettle⟩ := hruns.settle hs hplaced fun line hline =>
    hadmits line (List.mem_append_left _ hline)
  refine ⟨hruns.sound hs, hplaced', hrests, ?_⟩
  rw [Solo.run_append, ← hsettle]
  by_cases hpc : (s'.conns i).pc = .reading
  · rw [hall hpc]
    rfl
  · exact (Solo.run_gone (mt (rests_live _ hrests).mp hpc) rest).symm

/-- All of the input has been read by a connection that goes on. -/
theorem State.Completes.received (h : s.Completes p i lines s')
    (hpc : (s'.conns i).pc = .reading) : s.RunsAlone p i lines s' := by
  obtain ⟨got, rest, rfl, hruns, -, hall⟩ := h
  rwa [hall hpc, List.append_nil]

end Open

end KvServer
