/-
What `set_value` stores, `get_value` prints.

Both are dialogues: by the plan of `set_value` the key has its value from the commit of the
SET on, and by that of `get_value` the value is what the GET finds and the reply to TOP
brings.  A dialogue that cannot fail can be brought to its end, if nobody keeps the table:
a mutex the connection waits for is given back by whoever has it, and every turn of its own
is one nearer to the answer.
-/
import KvServer.Proofs.Yields

namespace KvServer

/-! ### Getting on

That a tool can come to its end is shown by giving the events. Each of them is either a turn
of the tool's own connection, which gets nearer to the answer, or one of the connection that
has the mutex it waits for, which gets nearer to giving it back.
-/

/-- Nobody else has the table in an open transaction, or is about to write the key. -/
def State.Clear (t : TablePtr) (key : Str) (i : ConnId) (s : State) : Prop :=
  ∀ k, k ≠ i → ¬ (s.conns k).Keeps t ∧ ¬ (s.conns k).Writes t key

/-- A plan without refusals, which waits for no table but one. -/
structure Plan.Steady (P : Plan) (i : ConnId) (table : Str) : Prop where
  never : ¬ P.fails
  waits : ∀ {n s t}, P.busy n s → (s.conns i).wants = some (.table t) →
    s.server.findTable table = some t

/-- There is a run from one to the other. -/
def Tools.Reaches (p : Platform) (w w' : Tools) : Prop :=
  ∃ events, Transition.run (Tools.step p) w events = some w'

section Progress

variable {P : Plan} {p : Platform} {i k : ConnId} {table key : Str} {t : TablePtr}
  {w w' w'' : Tools}

theorem Tools.Reaches.refl (w : Tools) : w.Reaches p w := ⟨[], rfl⟩

theorem Tools.Reaches.single {e : Tools.Event} (h : w.step p e = some w') : w.Reaches p w' :=
  ⟨[e], Transition.run_cons_eq_some.mpr ⟨w', h, rfl⟩⟩

theorem Tools.Reaches.trans (h : w.Reaches p w') (h' : w'.Reaches p w'') : w.Reaches p w'' := by
  obtain ⟨events, hrun⟩ := h
  obtain ⟨more, hmore⟩ := h'
  exact ⟨events ++ more, Transition.run_append_eq_some.mpr ⟨w', hrun, hmore⟩⟩

/-- The tool of connection `i` can go on. -/
structure Tools.Free (P : Plan) (i : ConnId) (table key : Str) (t : TablePtr) (w : Tools) : Prop where
  talks : w.Talks P i
  running : w.state.terminated = false
  found : w.state.server.findTable table = some t
  clear : w.state.Clear t key i

/-- A turn of somebody who leaves the table alone. -/
theorem Tools.Free.other (h : w.Free P i table key t) (hP : P.Lawful p i (State.Leaves p table key))
    {a : Turn} {effect : Effect} {c' : Conn} {s' : State} (hi : a.conn ≠ i)
    (hch : a.choice = .go ∨ ∃ u, a.choice = .visit u) (hstep : w.state.step p a = some s')
    (hst : Stepped p w.state a effect c' s') (hlive : c'.pc ≠ .terminated) (hkeeps : ¬ c'.Keeps t)
    (hcall : ∀ x u, c'.pc ≠ .guardCall x u) :
    w.Reaches p { w with state := s' } ∧ Tools.Free P i table key t { w with state := s' } := by
  have hadmits : w.Admits a := by
    unfold Tools.Admits
    rcases hch with hch | ⟨u, hch⟩ <;> rw [hch] <;> split <;> trivial
  have hevent : w.step p (.turn a) = some { w with state := s' } := by
    simp only [Tools.step, if_pos hadmits, hstep]
    rfl
  have hleaves : w.state.Leaves p table key a := fun u hu x hx hwrites => by
    obtain rfl : t = u := Option.some.inj (h.found.symm.trans hu)
    obtain rfl := Option.some.inj (hst.turn.symm.trans hx)
    exact (hst.moves.writes_at (h.talks.inv.wf _) hwrites).elim (h.clear _ hi).1 (h.clear _ hi).2
  refine ⟨.single hevent, h.talks.step hP (e := .turn a) (.inr hleaves) hevent, ?_,
    hst.findTable h.found, ?_⟩
  · show s'.terminated = false
    rw [hst.terminated]
    exact decide_eq_false hlive
  · intro k hk
    by_cases hka : k = a.conn
    · subst hka
      show ¬ (s'.conns a.conn).Keeps t ∧ ¬ (s'.conns a.conn).Writes t key
      rw [hst.self]
      exact ⟨hkeeps, not_writes hcall⟩
    · show ¬ (s'.conns k).Keeps t ∧ ¬ (s'.conns k).Writes t key
      rw [hst.other hka]
      exact h.clear k hk

/-- A turn of one's own. -/
theorem Tools.Free.own (h : w.Free P i table key t) (hP : P.Lawful p i (State.Leaves p table key))
    {ch : Choice} {effect : Effect} {c' : Conn} {s' : State} (hadmits : w.Admits ⟨i, ch⟩)
    (hstep : w.state.step p ⟨i, ch⟩ = some s') (hst : Stepped p w.state ⟨i, ch⟩ effect c' s')
    (hlive : c'.pc ≠ .terminated) :
    w.Reaches p { w with state := s' } ∧ Tools.Free P i table key t { w with state := s' } := by
  have hevent : w.step p (.turn ⟨i, ch⟩) = some { w with state := s' } := by
    simp only [Tools.step, if_pos hadmits, hstep]
    rfl
  refine ⟨.single hevent, h.talks.step hP (e := .turn _) (.inl rfl) hevent, ?_,
    hst.findTable h.found, fun k hk => ?_⟩
  · show s'.terminated = false
    rw [hst.terminated]
    exact decide_eq_false hlive
  · show ¬ (s'.conns k).Keeps t ∧ ¬ (s'.conns k).Writes t key
    rw [hst.other hk]
    exact h.clear k hk

/-- **A mutex that is yielded comes free**, and the tool does not notice. -/
theorem Tools.Free.yielded {m : Mutex} (hP : P.Lawful p i (State.Leaves p table key))
    (hm : m = .catalogue ∨ m = .table t) (hk : k ≠ i) : ∀ (r : Nat) {w : Tools},
    w.Free P i table key t → (w.state.conns k).Yields m → (w.state.conns k).remaining < r →
    ∃ w', w.Reaches p w' ∧ w'.Free P i table key t ∧ w'.state.server.owner m = none ∧
      w'.state.conns i = w.state.conns i ∧ w'.task = w.task := by
  intro r
  induction r with
  | zero =>
      intro w h hyields hr
      exact absurd hr (Nat.not_lt_zero _)
  | succ r ih =>
      intro w h hyields hr
      obtain ⟨ch, s', hstep⟩ := hyields.goes h.running p
      obtain ⟨effect, c', hst⟩ := h.talks.inv.stepped hstep
      have hreading : (w.state.conns k).pc ≠ .reading := fun hpc =>
        hyields.not_plain (by simp [Conn.holdsCatalogue, hpc]) (Conn.plain_reading hpc)
          (by rw [hpc]; rfl)
      have hnearer : c'.remaining < (w.state.conns k).remaining := hst.moves.remaining hreading
      obtain ⟨hch, hlive, hcall, hkeeps, hstill⟩ :=
        hyields.moves hm (h.clear k hk).1 (h.talks.inv.wf k) hst.moves
      obtain ⟨hreaches, hfree⟩ := h.other hP hk hch hstep hst hlive hkeeps hcall
      have hself : s'.conns k = c' := hst.self
      have hsame : s'.conns i = w.state.conns i := hst.other (Ne.symm hk)
      by_cases hholds : c'.Holds m
      · obtain ⟨w', hreaches', hfree', howner, hconn, htask⟩ :=
          ih hfree (hself.symm ▸ hstill hholds) (by
            show (s'.conns k).remaining < r
            rw [hself]
            omega)
        exact ⟨w', hreaches.trans hreaches', hfree', howner, hconn.trans hsame, htask⟩
      · refine ⟨_, hreaches, hfree, ?_, hsame, rfl⟩
        -- nobody else had the mutex, and nobody else has moved
        have hinv := h.talks.inv
        cases howner : s'.server.owner m with
        | none => rfl
        | some k' =>
            have hhas : (s'.conns k').Holds m := (hfree.talks.inv.owned m k').mp howner
            by_cases hkk : k' = k
            · subst hkk
              rw [hself] at hhas
              exact absurd hhas hholds
            · have hhas' : (w.state.conns k').Holds m := by
                have hother : s'.conns k' = w.state.conns k' := hst.other hkk
                rwa [hother] at hhas
              exact absurd (hinv.owned.unique hhas' hyields.holds) hkk

/-- The tool of connection `i` can come to where it asks `xs`. -/
def Tools.CanAsk (p : Platform) (P : Plan) (i : ConnId) (table key : Str) (t : TablePtr)
    (xs : List Exchange) (w : Tools) : Prop :=
  ∃ w' k, w.Reaches p w' ∧ w'.Free P i table key t ∧ w'.task i = some k ∧ k.errand = .ask xs

theorem Tools.CanAsk.of_reaches {xs : List Exchange} (hreaches : w.Reaches p w')
    (h : w'.CanAsk p P i table key t xs) : w.CanAsk p P i table key t xs := by
  obtain ⟨w'', k, hreaches', hfree, hk⟩ := h
  exact ⟨w'', k, hreaches.trans hreaches', hfree, hk⟩

/-- **The tool is not kept waiting.** -/
theorem Tools.Free.unblocked (h : w.Free P i table key t)
    (hP : P.Lawful p i (State.Leaves p table key)) (hsteady : P.Steady i table) {n : Nat}
    (hbusy : P.busy n w.state) :
    ∃ w', w.Reaches p w' ∧ w'.Free P i table key t ∧ ¬ w'.state.Blocked i ∧
      w'.state.conns i = w.state.conns i ∧ w'.task = w.task := by
  by_cases hblocked : w.state.Blocked i
  · obtain ⟨m, hwants, howner⟩ := hblocked
    have hwants : (w.state.conns i).wants = some m := hwants
    obtain ⟨k, hk⟩ := Option.ne_none_iff_exists'.mp howner
    have hholds := (h.talks.inv.owned m k).mp hk
    have hother : k ≠ i := by
      rintro rfl
      exact absurd (h.talks.inv.rank k m m hwants hholds) (Nat.lt_irrefl _)
    have hm : m = .catalogue ∨ m = .table t := by
      cases m with
      | catalogue => exact .inl rfl
      | table u =>
          obtain rfl := Option.some.inj (h.found.symm.trans (hsteady.waits hbusy hwants))
          exact .inr rfl
    have hyields : (w.state.conns k).Yields m := by
      refine ⟨hholds, fun u hu => ?_⟩
      rcases hm with rfl | rfl
      · cases hu
      · obtain rfl := Mutex.table.inj hu
        exact (h.clear k hother).1
    obtain ⟨w', hreaches, hfree, hnone, hconn, htask⟩ :=
      Tools.Free.yielded hP hm hother _ h hyields (Nat.lt_succ_self _)
    refine ⟨w', hreaches, hfree, ?_, hconn, htask⟩
    rintro ⟨m', hwants', howner'⟩
    have hwants' : (w'.state.conns i).wants = some m' := hwants'
    rw [hconn] at hwants'
    obtain rfl := Option.some.inj (hwants.symm.trans hwants')
    exact howner' hnone
  · exact ⟨w, .refl w, h, hblocked, rfl, rfl⟩

/-- The reply is there. -/
theorem Tools.Free.answered (h : w.Free P i table key t)
    (hP : P.Lawful p i (State.Leaves p table key)) (hsteady : P.Steady i table) {k : Task}
    {x : Exchange} {xs : List Exchange} (hk : w.task i = some k) (herrand : k.errand = .await x xs)
    (harrived : Arrived (k.unread (w.state.conns i))) : w.CanAsk p P i table key t xs := by
  obtain ⟨k', hread, hcases⟩ : ∃ k', k.read (k.unread (w.state.conns i)) = some k' ∧
      (k'.errand = .ask xs ∨ k'.errand = .returned 1) := by
    unfold Task.read
    rw [herrand]
    dsimp only
    split
    · split
      · exact ⟨_, rfl, .inr rfl⟩
      · exact ⟨_, rfl, .inl rfl⟩
    · exact ⟨_, rfl, .inr rfl⟩
  have hevent : w.step p (.read i) = some (w.setTask i k') := by
    simp only [Tools.step, hk, Option.bind_some, if_pos (Or.inl harrived), hread, Option.map_some]
  have htalks := h.talks.step hP (e := .read i) trivial hevent
  refine ⟨_, k', .single hevent, ⟨htalks, h.running, h.found, h.clear⟩, w.setTask_self i k', ?_⟩
  refine hcases.resolve_right fun hreturned => ?_
  obtain ⟨k₁, hk₁, hdialogue⟩ := htalks.dialogue
  obtain rfl := Option.some.inj ((w.setTask_self i k').symm.trans hk₁)
  cases hdialogue with
  | failed hfails _ => exact hsteady.never hfails
  | refused hfails _ _ _ => exact hsteady.never hfails
  | ask _ hask => cases hreturned.symm.trans hask
  | sent _ _ hawait => cases hreturned.symm.trans hawait
  | busy _ hawait => cases hreturned.symm.trans hawait
  | replied _ _ hawait => cases hreturned.symm.trans hawait
  | bye hzero => cases hreturned.symm.trans hzero
  | gone hzero => cases hreturned.symm.trans hzero

theorem encode_arrived {m : Message} {line : Str} (h : encode m = .ok line) : Arrived line := by
  obtain ⟨word, -, hshape, -⟩ := encode_eq_ok.mp h
  by_cases hlong : maxEncodedLen - 1 ≤ line.length
  · exact .inr hlong
  · refine .inl ?_
    rw [List.take_of_length_le (Nat.le_of_lt (Nat.lt_of_not_le hlong)), hshape]
    exact List.mem_append_right _ (List.mem_singleton_self _)

/-- A tool that awaits a reply while its connection is at work. -/
theorem Tools.Talks.busy (h : w.Talks P i) (hnever : ¬ P.fails) {k : Task} {x : Exchange}
    {xs : List Exchange} (hk : w.task i = some k) (herrand : k.errand = .await x xs)
    (hreading : (w.state.conns i).pc ≠ .reading) :
    ∃ n, P.busy n w.state ∧ Wired k (w.state.conns i) [] [] := by
  obtain ⟨k', hk', hdialogue⟩ := h.dialogue
  obtain rfl := Option.some.inj (hk.symm.trans hk')
  cases hdialogue with
  | busy hx hawait hprinted hbusy hwired => exact ⟨_, hbusy, hwired⟩
  | sent _ _ _ _ hpc _ _ => exact absurd hpc hreading
  | replied _ _ _ _ hpc _ _ => exact absurd hpc hreading
  | refused hfails _ _ _ => exact absurd hfails hnever
  | failed hfails _ => exact absurd hfails hnever
  | ask _ hask => cases herrand.symm.trans hask
  | bye hzero => cases herrand.symm.trans hzero
  | gone hzero => cases herrand.symm.trans hzero

theorem Moves.inside {sv : Server} {c c' : Conn} {ch : Choice} {effect : Effect}
    (h : Moves p sv c ch effect c') (hreading : c.pc ≠ .reading) : ch = .go ∨ ∃ u, ch = .visit u := by
  cases h with
  | request hpc _ _ _ => exact absurd hpc hreading
  | eof hpc => exact absurd hpc hreading
  | visit hpc ht => exact .inr ⟨_, rfl⟩
  | _ => exact .inl rfl

/-- A turn of the connection has it at work on the request, or the request is answered. -/
theorem Tools.Free.next (h : w.Free P i table key t)
    (hP : P.Lawful p i (State.Leaves p table key)) (hsteady : P.Steady i table) {k : Task}
    {x : Exchange} {xs : List Exchange} (hk : w.task i = some k) (herrand : k.errand = .await x xs)
    {n : Nat} {ch : Choice} {effect : Effect} {c' : Conn} {s' : State} {gots : List Str}
    (hwired : Wired k (w.state.conns i) (gots.flatten ++ []) [])
    (hreceived : c'.received = (w.state.conns i).received ++ gots) (hadmits : w.Admits ⟨i, ch⟩)
    (hstep : w.state.step p ⟨i, ch⟩ = some s') (hst : Stepped p w.state ⟨i, ch⟩ effect c' s')
    (hnext : P.Next i n w.state s') :
    (∃ w', w.Reaches p w' ∧ w'.Free P i table key t ∧ w'.task i = some k ∧
      w'.state.conns i = c' ∧ c'.pc ≠ .reading) ∨ w.CanAsk p P i table key t xs := by
  have hself : s'.conns i = c' := hst.self
  cases hnext with
  | busy hbusy hsent =>
      obtain ⟨hreading, -, hlive⟩ := hP.handling hbusy
      rw [hself] at hreading hlive
      obtain ⟨hreaches, hfree⟩ := h.own hP hadmits hstep hst hlive
      exact .inl ⟨_, hreaches, hfree, hk, hself, hreading⟩
  | @answered resp hresp hpc hready hsent =>
      rw [hself] at hpc
      obtain ⟨hreaches, hfree⟩ := h.own hP hadmits hstep hst (by rw [hpc]; nofun)
      refine .inr (.of_reaches hreaches (hfree.answered hP hsteady hk herrand ?_))
      have hwired' := hwired.turn (hself.symm ▸ hreceived) hsent
      show Arrived (k.unread (s'.conns i))
      rw [hwired'.unread, List.nil_append, List.flatten_singleton]
      exact encode_arrived hresp
  | refused hrefuses => exact absurd hrefuses.1 hsteady.never

/-- **A request under way is answered**, and the tool can go on. -/
theorem Tools.Free.handled (hP : P.Lawful p i (State.Leaves p table key))
    (hsteady : P.Steady i table) {x : Exchange} {xs : List Exchange} {k : Task}
    (herrand : k.errand = .await x xs) : ∀ (r : Nat) {w : Tools}, w.Free P i table key t →
    w.task i = some k → (w.state.conns i).pc ≠ .reading → (w.state.conns i).remaining < r →
    w.CanAsk p P i table key t xs := by
  intro r
  induction r with
  | zero =>
      intro w h hk hreading hr
      exact absurd hr (Nat.not_lt_zero _)
  | succ r ih =>
      intro w h hk hreading hr
      obtain ⟨n₀, hbusy₀, -⟩ := h.talks.busy hsteady.never hk herrand hreading
      obtain ⟨w₁, hreaches, hfree, hunblocked, hconn, htask⟩ := h.unblocked hP hsteady hbusy₀
      rw [← hconn] at hreading hr
      rw [← htask] at hk
      refine .of_reaches hreaches ?_
      obtain ⟨n, hbusy, hwired⟩ := hfree.talks.busy hsteady.never hk herrand hreading
      have hwired : Wired k (w₁.state.conns i) (List.flatten [] ++ []) [] := hwired
      obtain ⟨-, hopen, hlive⟩ := hP.handling hbusy
      rcases goes_on hfree.running hlive p with hpc | hpc | hblocked | ⟨ch, hturn⟩
      · exact absurd hpc hreading
      · exact absurd hpc hopen
      · exact absurd hblocked hunblocked
      · obtain ⟨x, hx⟩ := Option.isSome_iff_exists.mp hturn
        have hstep : w₁.state.step p ⟨i, ch⟩ = some _ := Option.map_eq_some_iff.mpr ⟨x, hx, rfl⟩
        obtain ⟨effect, c', hst⟩ := hfree.talks.inv.stepped hstep
        have hmoves : Moves p w₁.state.server (w₁.state.conns i) ch effect c' := hst.moves
        have hnearer : c'.remaining < (w₁.state.conns i).remaining := hmoves.remaining hreading
        have hadmits : w₁.Admits ⟨i, ch⟩ := by
          unfold Tools.Admits
          rcases hmoves.inside hreading with rfl | ⟨u, rfl⟩ <;> simp only [hk] <;> trivial
        have hreceived : c'.received = (w₁.state.conns i).received ++ [] := by
          rw [hmoves.received_same hreading, List.append_nil]
        rcases hfree.next hP hsteady hk herrand hwired hreceived hadmits hstep hst
            (hP.go hfree.talks.inv hbusy hst) with ⟨w₂, hreaches', hfree', hk', hself, hreading'⟩ | hdone
        · refine .of_reaches hreaches' (ih hfree' hk' (hself.symm ▸ hreading') ?_)
          rw [hself]
          omega
        · exact hdone

/-- A request that has been written is answered. -/
theorem Tools.Free.sent (h : w.Free P i table key t) (hP : P.Lawful p i (State.Leaves p table key))
    (hsteady : P.Steady i table) {n : Nat} {k : Task} {x : Exchange} {line : Str}
    (hk : w.task i = some k) (hx : P.exchanges[n]? = some x) (hline : encode x.request = .ok line)
    (herrand : k.errand = .await x (P.exchanges.drop (n + 1)))
    (hpc : (w.state.conns i).pc = .reading) (hready : P.ready n w.state)
    (hwired : Wired k (w.state.conns i) line []) :
    w.CanAsk p P i table key t (P.exchanges.drop (n + 1)) := by
  obtain ⟨c, rest, hcons⟩ := List.exists_cons_of_ne_nil (encode_ne_nil hline)
  have hpos : 0 < (readLoop (maxEncodedLen - 1) line).1.length := by
    rw [hcons]
    show 0 < (readLoop (maxEncodedLen - 2 + 1) (c :: rest)).1.length
    unfold readLoop
    split <;> exact Nat.succ_pos _
  obtain ⟨s', hstep, -⟩ := step_recv p h.running hpc hpos (readLoop_length _ _)
  obtain ⟨effect, c', hst⟩ := h.talks.inv.stepped hstep
  obtain rfl : effect = .none := by
    rcases reading_step hpc hst.runs with ⟨_, _, heffect, _⟩ | heof
    · exact heffect
    · cases heof
  have hadmits : w.Admits ⟨i, .recv (readLoop (maxEncodedLen - 1) line).1⟩ := by
    simp only [Tools.Admits, hk, Task.Delivers, hwired.incoming]
    exact ⟨trivial, .inl (encode_arrived hline)⟩
  rcases hP.line h.talks.inv hready hpc hx hline rfl hst with ⟨hwhole, hnext⟩ | hrefuses
  · have hwired' : Wired k (w.state.conns i)
        ([(readLoop (maxEncodedLen - 1) line).1].flatten ++ []) [] := by
      rwa [List.flatten_singleton, List.append_nil, hwhole]
    rcases h.next hP hsteady hk herrand hwired' hst.moves.received hadmits hstep hst hnext with
      ⟨w₁, hreaches, hfree, hk', hself, hreading⟩ | hdone
    · exact .of_reaches hreaches (Tools.Free.handled hP hsteady herrand _ hfree hk'
        (hself.symm ▸ hreading) (Nat.lt_succ_self _))
    · exact hdone
  · exact absurd hrefuses.1 hsteady.never

theorem Tools.step_write {k k' : Task} (hk : w.task i = some k) (hwrite : k.write = some k') :
    w.step p (.write i) = some (w.setTask i k') := by
  simp only [Tools.step, hk, Option.bind_some, hwrite, Option.map_some]

/-- **A tool that is about to ask can come to its end.** -/
theorem Tools.Free.finishes (hP : P.Lawful p i (State.Leaves p table key))
    (hsteady : P.Steady i table) : ∀ (xs : List Exchange) {w : Tools} {k : Task},
    w.Free P i table key t → w.task i = some k → k.errand = .ask xs →
    ∃ w' k', w.Reaches p w' ∧ w'.Free P i table key t ∧ w'.task i = some k' ∧
      k'.errand = .returned 0 := by
  intro xs
  induction xs with
  | nil =>
      intro w k h hk herrand
      have hwrite : k.write =
          some { k with errand := .returned 0, written := k.written ++ [byeLine] } := by
        simp [Task.write, herrand, encode_bye]
      have hevent := Tools.step_write (p := p) hk hwrite
      exact ⟨_, _, .single hevent,
        ⟨h.talks.step hP (e := .write i) trivial hevent, h.running, h.found, h.clear⟩,
        w.setTask_self i _, rfl⟩
  | cons x xs ih =>
      intro w k h hk herrand
      obtain ⟨k₀, hk₀, hdialogue⟩ := h.talks.dialogue
      obtain rfl := Option.some.inj (hk.symm.trans hk₀)
      cases hdialogue with
      | @ask n hn hask hprinted hpc hready hwired =>
          have hdrop := Errand.ask.inj (herrand.symm.trans hask)
          have hlt : n < P.exchanges.length := by
            refine Nat.lt_of_le_of_ne hn fun heq => ?_
            rw [heq, List.drop_length] at hdrop
            cases hdrop
          rw [List.drop_eq_getElem_cons hlt] at hdrop
          obtain ⟨rfl, rfl⟩ := List.cons.inj hdrop
          have hx : P.exchanges[n]? = some P.exchanges[n] := List.getElem?_eq_getElem hlt
          obtain ⟨line, hline⟩ := (hP.sends hready hx).resolve_left hsteady.never
          have hwrite : k.write = some { k with
              errand := .await P.exchanges[n] (P.exchanges.drop (n + 1))
              written := k.written ++ [line] } := by
            unfold Task.write
            rw [herrand]
            dsimp only
            rw [hline]
          have hevent := Tools.step_write (p := p) hk hwrite
          have hfree : Tools.Free P i table key t (w.setTask i _) :=
            ⟨h.talks.step hP (e := .write i) trivial hevent, h.running, h.found, h.clear⟩
          obtain ⟨w₁, k₁, hreaches, hfree₁, hk₁, hask₁⟩ :=
            hfree.sent hP hsteady (w.setTask_self i _) hx hline rfl hpc hready (hwired.write rfl rfl)
          obtain ⟨w₂, k₂, hreaches', hdone⟩ := ih hfree₁ hk₁ hask₁
          exact ⟨w₂, k₂, (Tools.Reaches.single hevent).trans (hreaches.trans hreaches'), hdone⟩
      | failed hfails _ => exact absurd hfails hsteady.never
      | refused hfails _ _ _ => exact absurd hfails hsteady.never
      | sent _ _ hawait => cases herrand.symm.trans hawait
      | busy _ hawait => cases herrand.symm.trans hawait
      | replied _ _ hawait => cases herrand.symm.trans hawait
      | bye hzero => cases herrand.symm.trans hzero
      | gone hzero => cases herrand.symm.trans hzero

/-- **So can any tool that cannot fail**, wherever it is. -/
theorem Tools.Free.ends (h : w.Free P i table key t)
    (hP : P.Lawful p i (State.Leaves p table key)) (hsteady : P.Steady i table) :
    ∃ w' k, w.Reaches p w' ∧ w'.Talks P i ∧ w'.task i = some k ∧ k.errand = .returned 0 := by
  obtain ⟨k, hk, hdialogue⟩ := h.talks.dialogue
  have hask : ∀ {xs}, w.CanAsk p P i table key t xs →
      ∃ w' k, w.Reaches p w' ∧ w'.Talks P i ∧ w'.task i = some k ∧ k.errand = .returned 0 := by
    rintro xs ⟨w₁, k₁, hreaches, hfree, hk₁, hask⟩
    obtain ⟨w₂, k₂, hreaches', hfree₂, hk₂, hdone⟩ :=
      Tools.Free.finishes hP hsteady xs hfree hk₁ hask
    exact ⟨w₂, k₂, hreaches.trans hreaches', hfree₂.talks, hk₂, hdone⟩
  cases hdialogue with
  | ask hn herrand hprinted hpc hready hwired => exact hask ⟨w, k, .refl w, h, hk, herrand⟩
  | sent hx hline herrand hprinted hpc hready hwired =>
      exact hask (h.sent hP hsteady hk hx hline herrand hpc hready hwired)
  | busy hx herrand hprinted hbusy hwired =>
      exact hask (Tools.Free.handled hP hsteady herrand _ h hk (hP.handling hbusy).1
        (Nat.lt_succ_self _))
  | replied hx hresp herrand hprinted hpc hready hwired =>
      refine hask (h.answered hP hsteady hk herrand ?_)
      rw [hwired.unread]
      exact encode_arrived hresp
  | refused hfails _ _ _ => exact absurd hfails hsteady.never
  | failed hfails _ => exact absurd hfails hsteady.never
  | bye hzero _ _ _ _ _ => exact ⟨w, k, .refl w, h.talks, hk, hzero⟩
  | gone hzero _ _ _ => exact ⟨w, k, .refl w, h.talks, hk, hzero⟩

end Progress

/-! ### From the one tool to the other

The end of the first dialogue is the beginning of the second: the key has its value, and both
the value and the names are known to fit the lines of `get_value`, since they fitted those of
`set_value`.
-/

section Tools

variable {P : Plan} {p : Platform} {i j : ConnId} {user table key value buf buf' : Str} {w : Tools}

/-- A tool is started at a connection that has not been used. -/
theorem talks_start (hs : Inv w.state) (hfresh : w.state.conns i = {}) (hready : P.ready 0 w.state) :
    (w.setTask i (.start P.exchanges buf)).Talks P i := by
  refine ⟨hs, _, w.setTask_self i _, ?_⟩
  refine .ask (Nat.zero_le _) rfl rfl ?_ hready ?_
  · show (w.state.conns i).pc = .reading
    rw [hfresh]
  · show Wired _ (w.state.conns i) [] []
    rw [hfresh]
    exact ⟨rfl, [], rfl, rfl⟩

/-- How a tool ends. -/
theorem Tools.Talks.exit {code : Nat} {out : List Str} (h : w.Talks P i)
    (hexit : w.exit i = some (code, out)) :
    P.fails ∧ code = 1 ∨
      code = 0 ∧ out = P.printed P.exchanges.length ∧ P.final w.state.server := by
  obtain ⟨k, hk, hdialogue⟩ := h.dialogue
  simp only [Tools.exit, hk, Option.bind_some] at hexit
  cases hdialogue with
  | failed hfails herrand =>
      rw [herrand] at hexit
      exact .inl ⟨hfails, (Prod.mk.inj (Option.some.inj hexit)).1.symm⟩
  | bye herrand hprinted hpc hidle hfinal hwired =>
      rw [herrand] at hexit
      obtain ⟨rfl, rfl⟩ := Prod.mk.inj (Option.some.inj hexit)
      exact .inr ⟨rfl, hprinted, hfinal⟩
  | gone herrand hprinted hpc hfinal =>
      rw [herrand] at hexit
      obtain ⟨rfl, rfl⟩ := Prod.mk.inj (Option.some.inj hexit)
      exact .inr ⟨rfl, hprinted, hfinal⟩
  | ask _ herrand =>
      rw [herrand] at hexit
      cases hexit
  | sent _ _ herrand =>
      rw [herrand] at hexit
      cases hexit
  | busy _ herrand =>
      rw [herrand] at hexit
      cases hexit
  | replied _ _ herrand =>
      rw [herrand] at hexit
      cases hexit
  | refused _ herrand =>
      rw [herrand] at hexit
      cases hexit

theorem getPlan_printed :
    (getPlan user table key value i).printed (getPlan user table key value i).exchanges.length
      = [value] := rfl

/-- `get_value` waits for its own table, or not at all. -/
theorem getPlan_steady : (getPlan user table key value i).Steady i table where
  never := id
  waits {n s t} hbusy hwants := by
    obtain ⟨-, hfetching, -⟩ := hbusy
    unfold Conn.wants at hwants
    cases hfetching with
    | approach hrests haccess hwithin =>
        cases hpc : (s.conns i).pc with
        | guardLock x u =>
            rw [hpc] at hwants haccess hwithin
            obtain rfl := Option.some.inj haccess
            obtain rfl := Mutex.table.inj (Option.some.inj hwants)
            exact hwithin.2
        | _ =>
            rw [hpc] at hwants
            cases hwants
    | fetched hrests hpc =>
        rw [hpc] at hwants
        cases hwants

/-- **The key has its value** when `set_value` has exited with 0, and its arguments can be sent. -/
theorem setValue_stores {events : List Tools.Event} {w' : Tools} {out : List Str}
    (huser : Identifier user) (htable : Identifier table) (hkey : Identifier key)
    (hvalue : Value value) (hs : Inv w.state) (hfresh : w.state.conns i = {})
    (honly : Transition.Along (Tools.step p) (Tools.Others (State.Leaves p table key) i)
      (w.setTask i (.start (setValueExchanges user table key value) buf)) events)
    (hrun : Transition.run (Tools.step p)
      (w.setTask i (.start (setValueExchanges user table key value) buf)) events = some w')
    (hexit : w'.exit i = some (0, out)) :
    Inv w'.state ∧ SentUpTo (setValueExchanges user table key value) 3 ∧
      w'.state.server.Has table key value := by
  have hready : (setPlan user table key value i).ready 0 w.state := by
    refine ⟨?_, nofun, nofun⟩
    rw [hfresh]
    exact ⟨rfl, rfl, rfl⟩
  have htalks : w'.Talks (setPlan user table key value i) i :=
    Transition.along_invariant
      (fun h hQ hstep => h.step (setPlan_lawful huser htable hkey hvalue) hQ hstep)
      (talks_start hs hfresh hready) honly hrun
  rcases htalks.exit hexit with ⟨-, hone⟩ | ⟨-, -, hsent, hhas⟩
  · cases hone
  · exact ⟨htalks.inv, hsent, hhas⟩

/--
**What `set_value` stores, `get_value` prints**, in whatever state `set_value` was started, if
nobody else writes the key: `get_value` exits with 0 and the value, whenever it exits; and it
can always be brought to its exit while the process goes on and nobody keeps the table.
-/
theorem set_then_get {s₀ : State} {turns : List Turn} {w₀ w₁ w₂ : Tools}
    {events events' : List Tools.Event} {out : List Str} (hboot : Boot s₀)
    (hreach : Transition.run (State.step p) s₀ turns = some w₀.state)
    (huser : Identifier user) (htable : Identifier table) (hkey : Identifier key)
    (hvalue : Value value)
    -- `set_value` at connection `i`
    (hfresh : w₀.state.conns i = {})
    (honly : Transition.Along (Tools.step p) (Tools.Others (State.Leaves p table key) i)
      (w₀.setTask i (.start (setValueExchanges user table key value) buf)) events)
    (hset : Transition.run (Tools.step p)
      (w₀.setTask i (.start (setValueExchanges user table key value) buf)) events = some w₁)
    (hexit : w₁.exit i = some (0, out))
    -- `get_value` at connection `j`
    (hfresh' : w₁.state.conns j = {})
    (honly' : Transition.Along (Tools.step p) (Tools.Others (State.Leaves p table key) j)
      (w₁.setTask j (.start (getValueExchanges user table key) buf')) events')
    (hget : Transition.run (Tools.step p)
      (w₁.setTask j (.start (getValueExchanges user table key) buf')) events' = some w₂) :
    (∀ code printed, w₂.exit j = some (code, printed) → code = 0 ∧ printed = [value]) ∧
      (w₂.state.terminated = false →
        (∀ t ∈ w₂.state.server.findTable table, w₂.state.Clear t key j) →
        ∃ more w₃, Transition.run (Tools.step p) w₂ more = some w₃ ∧
          w₃.exit j = some (0, [value])) := by
  obtain ⟨hs, hsent, hhas⟩ :=
    setValue_stores huser htable hkey hvalue (hboot.inv_run hreach) hfresh honly hset hexit
  have hP : (getPlan user table key value j).Lawful p j (State.Leaves p table key) :=
    getPlan_lawful huser htable hkey (storable_of_sent hsent hvalue) (getValue_sent hsent)
  have hready : (getPlan user table key value j).ready 0 w₁.state := by
    refine ⟨?_, hhas⟩
    rw [hfresh']
    exact ⟨rfl, rfl, rfl⟩
  have htalks : w₂.Talks (getPlan user table key value j) j :=
    Transition.along_invariant (fun h hQ hstep => h.step hP hQ hstep)
      (talks_start hs hfresh' hready) honly' hget
  have hends : ∀ {w : Tools} {code printed}, w.Talks (getPlan user table key value j) j →
      w.exit j = some (code, printed) → code = 0 ∧ printed = [value] := by
    intro w code printed hw hcode
    rcases hw.exit hcode with ⟨hfails, -⟩ | ⟨hzero, hprinted, -⟩
    · exact hfails.elim
    · exact ⟨hzero, hprinted.trans getPlan_printed⟩
  refine ⟨fun code printed => hends htalks, fun hrunning hclear => ?_⟩
  obtain ⟨t, hfound₁, -⟩ := hhas
  have hfound : w₂.state.server.findTable table = some t :=
    Tools.found_run (w := w₁.setTask j _) hs hfound₁ hget
  have hfree : w₂.Free (getPlan user table key value j) j table key t :=
    ⟨htalks, hrunning, hfound, hclear t hfound⟩
  obtain ⟨w₃, k, ⟨more, hmore⟩, htalks₃, hk, hdone⟩ := hfree.ends hP getPlan_steady
  have hexit₃ : w₃.exit j = some (0, k.printed) := by
    simp only [Tools.exit, hk, Option.bind_some, hdone]
  exact ⟨more, w₃, hmore, (hends htalks₃ hexit₃).2 ▸ hexit₃⟩

end Tools

/-- The one table with `k` in it, a `set_value` for it at connection 0, and nobody else. -/
def beforeSet : Tools :=
  Tools.setTask { state := oneTable, task := fun _ => none } 0
    (.start (setValueExchanges (bytes "u") (bytes "t") (bytes "k") (bytes "v")) [])

def setting : List Tools.Event :=
  exchange 0 "LOGIN u\n" [] ++ exchange 0 "PUSH v\n" [] ++
    exchange 0 "SET t k\n" [.go, .go, .go, .go, .go, .go, .go] ++ [.write 0]

/-- A `get_value` at connection 1. -/
def beforeGet (w : Tools) : Tools :=
  w.setTask 1 (.start (getValueExchanges (bytes "u") (bytes "t") (bytes "k")) [])

/-- Its GET comes to the table while connection 2 has it under the guard. -/
def getting : List Tools.Event :=
  exchange 1 "LOGIN u\n" [] ++
    [.turn ⟨2, .recv (bytes "LOGIN x\n")⟩, .turn ⟨2, .recv (bytes "GET t k\n")⟩, .turn ⟨2, .go⟩,
      .turn ⟨2, .go⟩, .turn ⟨2, .go⟩, .turn ⟨2, .go⟩, .write 1,
      .turn ⟨1, .recv (bytes "GET t k\n")⟩, .turn ⟨1, .go⟩, .turn ⟨1, .go⟩, .turn ⟨1, .go⟩]

theorem set_then_get_waiting :
    ∃ w₁ w₂ more w₃, Transition.run (Tools.step trapping) beforeSet setting = some w₁ ∧
      Transition.run (Tools.step trapping) (beforeGet w₁) getting = some w₂ ∧
      (w₂.state.server.tables 0).tableMutex = some 2 ∧
      Transition.run (Tools.step trapping) w₂ more = some w₃ ∧
      w₃.exit 1 = some (0, [bytes "v"]) := by
  have hset : (Transition.run (Tools.step trapping) beforeSet setting).map
      (fun w => decide (w.exit 0 = some (0, []) ∧ w.state.conns 1 = {})) = some true := by
    decide +kernel
  have hget : (Transition.run (Tools.step trapping) beforeSet setting).bind (fun w =>
      (Transition.run (Tools.step trapping) (beforeGet w) getting).map fun w : Tools =>
        decide ((w.state.server.tables 0).tableMutex = some 2 ∧ w.state.terminated = false ∧
          w.state.server.findTable (bytes "t") = some 0 ∧
          ∀ k ∈ ([0, 2] : List ConnId),
            ¬ (w.state.conns k).Keeps 0 ∧ ¬ (w.state.conns k).Writes 0 (bytes "k")))
        = some true := by
    decide +kernel
  have honly : Transition.Along (Tools.step trapping)
      (Tools.Others (State.Leaves trapping (bytes "t") (bytes "k")) 0) beforeSet setting := by
    decide +kernel
  have honly' : ∀ w ∈ Transition.run (Tools.step trapping) beforeSet setting,
      Transition.Along (Tools.step trapping)
        (Tools.Others (State.Leaves trapping (bytes "t") (bytes "k")) 1) (beforeGet w) getting := by
    decide +kernel
  obtain ⟨w₁, hrun₁, hw₁⟩ := Option.map_eq_some_iff.mp hset
  obtain ⟨hexit, hfresh⟩ := of_decide_eq_true hw₁
  rw [hrun₁, Option.bind_some] at hget
  obtain ⟨w₂, hrun₂, hw₂⟩ := Option.map_eq_some_iff.mp hget
  obtain ⟨hmutex, hrunning, hfound, hclear⟩ := of_decide_eq_true hw₂
  have hboot : Transition.run (State.step trapping) oneTable [] = some oneTable := rfl
  have hname : Identifier (bytes "u") ∧ Identifier (bytes "t") ∧ Identifier (bytes "k") :=
    ⟨isIdentifier_iff.mp (by decide), isIdentifier_iff.mp (by decide), isIdentifier_iff.mp (by decide)⟩
  -- the other connections have not moved
  have hidle : ∀ k, 3 ≤ k → w₂.state.conns k = {} := by
    intro k hk
    have hsetting : ∀ e ∈ setting, e.conn < 3 := by decide
    have hgetting : ∀ e ∈ getting, e.conn < 3 := by decide
    rw [Tools.untouched (fun e he => Nat.ne_of_lt (Nat.lt_of_lt_of_le (hgetting e he) hk)) hrun₂]
    exact Tools.untouched (fun e he => Nat.ne_of_lt (Nat.lt_of_lt_of_le (hsetting e he) hk)) hrun₁
  obtain ⟨more, w₃, hrun₃, hexit₃⟩ := (set_then_get boot_oneTable hboot hname.1 hname.2.1
    hname.2.2 (isValue_iff.mp (by decide)) rfl honly hrun₁ hexit hfresh (honly' w₁ hrun₁) hrun₂).2
    hrunning fun t ht k hk => by
      obtain rfl := Option.some.inj (hfound.symm.trans ht)
      by_cases hsmall : k < 3
      · have hother : ∀ k < 3, k ≠ 1 → k ∈ [0, 2] := by decide
        exact hclear k (hother k hsmall hk)
      · rw [hidle k (Nat.le_of_not_lt hsmall)]
        decide
  exact ⟨w₁, w₂, more, w₃, hrun₁, hrun₂, hmutex, hrun₃, hexit₃⟩

end KvServer
