/-
What each transaction keeps alone, all of them keep together.

A condition on the data that counts holds at every moment of a run, if each transaction that
commits in it keeps the condition for a client that is alone with the tables, and each SET outside
of the transactions does.  What counts changes at these moments only, and then as it would for a
client alone; nothing is asked of the transactions that do not commit.  One that does has to do
with tables that are there from the start: GET of a table that somebody makes in the meantime may
fail at first and find it later, which it does for nobody who is alone.  The condition may speak of
what has been committed so far: transactions that carry out programs of assignments come to what
the programs come to one after the other, in the order of their COMMITs.
-/
import KvServer.Proofs.Isolation
import KvServer.Proofs.Program

namespace KvServer

/-- The data that counts. -/
def State.data (s : State) : Data := s.current.committed

/-! ### How the data changes

What counts of the data is by names here, as clients have it. A CREATE adds a name with
nothing under it, which is why it changes nothing.
-/

theorem Conn.view_inside {c : Conn} {locked : Finset TablePtr} (h : c.view = .inside locked) :
    c.inTransaction = true ∧ locked = c.lockedTables := by
  unfold Conn.view at h
  cases hpc : c.pc <;> simp only [hpc] at h <;> try cases h
  all_goals
    split at h
    · cases h
      exact ⟨‹_›, rfl⟩
    · cases h

theorem Conn.view_outside {c : Conn} (h : c.view = .outside) : c.inTransaction = false := by
  unfold Conn.view at h
  cases hpc : c.pc <;> simp only [hpc] at h <;> try cases h
  all_goals
    split at h
    · cases h
    · exact eq_false_of_ne_true ‹_›

theorem Conn.view_committing {c : Conn} {rest locked : Finset TablePtr}
    (h : c.view = .ending true rest locked) : c.pc.loop = some .commit := by
  unfold Conn.view at h
  cases hpc : c.pc with
  | ending e rest =>
      simp only [hpc] at h
      cases e with
      | commit => rfl
      | _ => cases h
  | _ => simp only [hpc] at h; first | cases h | (split at h <;> cases h)

section Step

variable {p : Platform} {s s' : State} {a : Turn} {effect : Effect} {c' : Conn} {t : TablePtr}
  {name key value : Str}

theorem data_eq (s : State) (name key : Str) :
    s.data name key = (s.server.findTable name).bind fun t => s.abs.data (t, key) := rfl

/-- A table that has just been made has nothing in it. -/
theorem Stepped.data_same (hst : Stepped p s a effect c' s') (h : Inv s)
    (hdata : s'.abs.data = s.abs.data) : s'.data = s.data := by
  funext name key
  rw [data_eq, data_eq, hdata]
  cases hafter : s'.server.findTable name with
  | none =>
      cases hbefore : s.server.findTable name with
      | none => rfl
      | some t => cases (hst.findTable hbefore).symm.trans hafter
  | some t =>
      have hfound := hafter
      rw [hst.server] at hfound
      rcases apply_findTable hfound with hbefore | ⟨rfl, heffect⟩
      · rw [hbefore]
      · rw [hst.moves.newTable heffect]
        have hfresh := (h.fresh _ (Nat.le_refl _)).lookup key
        exact (TwoPhase.logical_of_pending hfresh.2).trans hfresh.1

/-- The write of a single operation. -/
theorem Moves.guarded_set {sv : Server} {c : Conn} {ch : Choice} (h : Moves p sv c ch effect c')
    (hview : c.view = .guarded t) (heffect : effect = .set t key value) :
    ∃ name, c.pc = .guardCall (.set name key value) t := by
  cases h with
  | guardSet hpc =>
      cases heffect
      exact ⟨_, hpc⟩
  | callSet hpc =>
      simp only [Conn.view, hpc] at hview
      split at hview <;> cases hview
  | @visit e rest u hpc ht => cases e <;> cases heffect
  | _ => cases heffect

theorem Stepped.call_set (hst : Stepped p s a effect c' s')
    (hcall : s.call a effect = .set t key value) : effect = .set t key value := by
  unfold State.call at hcall
  rcases hst.moves.call_cases with heq | ⟨-, heq⟩
  · rw [heq] at hcall
    cases effect <;> cases hcall
    rfl
  · cases heq.symm.trans hcall

/-- A write under a name is a write to its table. -/
theorem Stepped.data_put (hst : Stepped p s a (.set t key value) c' s')
    (hdistinct : s.server.Distinct) (hname : s.server.findTable name = some t)
    (hdata : s'.abs.data = Function.update s.abs.data (t, key) (some value)) :
    s'.data = s.data.put name key value := by
  funext other k
  have hfind : s'.server.findTable other = s.server.findTable other := by
    rw [hst.server]
    rfl
  rw [data_eq, hfind, hdata, Data.put]
  by_cases hother : other = name
  · subst hother
    rw [Function.update_self, hname, Option.bind_some]
    by_cases hk : k = key
    · subst hk
      rw [Function.update_self, Function.update_self]
    · rw [Function.update_of_ne hk, Function.update_of_ne (by simp [hk]), data_eq, hname,
        Option.bind_some]
  · rw [Function.update_of_ne hother, data_eq]
    refine Option.bind_congr fun u hu => Function.update_of_ne ?_ ..
    intro heq
    obtain rfl : u = t := congrArg Prod.fst heq
    exact hother (hdistinct other name u hu hname)

/-- **What counts changes** with a SET outside of the transactions, or when a COMMIT is read. -/
theorem Stepped.data_cases (hst : Stepped p s a effect c' s') (h : Inv s)
    (hdistinct : s.server.Distinct)
    (hplaced : (s.conns a.conn).pc.Within Set.univ s.server) :
    s'.data = s.data ∨
    (∃ name key value t, (s.conns a.conn).pc = .guardCall (.set name key value) t ∧
      s'.data = s.data.put name key value) ∨
    (s.conns a.conn).Running ∧ c'.pc.loop = some .commit := by
  rcases (hst.refines h).data_cases h.protocol with hdata | ⟨t, k, v, hview, hcall, hdata⟩ |
    ⟨locked, hbefore, hafter⟩
  · exact .inl (hst.data_same h hdata)
  · obtain rfl := hst.call_set hcall
    obtain ⟨name, hpc⟩ := hst.moves.guarded_set hview rfl
    rw [hpc] at hplaced
    exact .inr (.inl ⟨name, k, v, t, hpc, hst.data_put hdistinct hplaced.2 hdata⟩)
  · refine .inr (.inr ⟨(h.wf a.conn).running_iff.mpr ?_, ?_⟩)
    · obtain ⟨-, rfl⟩ := Conn.view_inside hbefore
      exact hbefore
    · have hview : (s'.conns a.conn).view = _ := hafter
      rw [hst.self] at hview
      exact Conn.view_committing hview

end Step

/-! ### Since BEGIN

A COMMIT is to be compared with a client alone that goes through the same lines from BEGIN on.
The journal keeps what that takes: each connection as it was after its last BEGIN, and the lines
of the transactions that have committed.
-/

/-- What there is to remember of the transactions of a run. -/
structure Journal where
  /-- Each connection as it was after its last BEGIN. -/
  begun : ConnId → Conn := fun _ => {}
  /-- The lines of the transactions that have committed, BEGIN apart, in the order of their
  COMMITs. -/
  committed : List (List Str) := []

/-- The lines connection `i` has read since its last BEGIN. -/
def Journal.since (j : Journal) (s : State) (i : ConnId) : List Str :=
  (s.conns i).received.drop (j.begun i).received.length

/-- The turn reads the COMMIT of a transaction. -/
def State.Commits (s : State) (a : Turn) (s' : State) : Prop :=
  (s.conns a.conn).Running ∧ (s'.conns a.conn).pc.loop = some .commit

instance (s : State) (a : Turn) (s' : State) : Decidable (s.Commits a s') :=
  inferInstanceAs (Decidable (_ ∧ _))

def noteJournal (s : State) (a : Turn) (s' : State) (j : Journal) : Journal :=
  if (s.conns a.conn).inTransaction = false ∧ (s'.conns a.conn).inTransaction = true then
    { j with begun := Function.update j.begun a.conn (s'.conns a.conn) }
  else if s.Commits a s' then { j with committed := j.committed ++ [j.since s' a.conn] }
  else j

section Journal

variable {p : Platform} {names : Set Str} {s₀ s₁ s₂ s s' : State} {a b : Turn} {i : ConnId}
  {before turns : List Turn} {j : Journal} {effect : Effect} {c' : Conn}

theorem State.Commits.noted (h : s.Commits a s') :
    noteJournal s a s' j = { j with committed := j.committed ++ [j.since s' a.conn] } := by
  rw [noteJournal, if_neg (by simp [h.1.1]), if_pos h]

theorem noteJournal_committed (h : ¬ s.Commits a s') : (noteJournal s a s' j).committed = j.committed := by
  unfold noteJournal
  split <;> rfl

theorem noteJournal_begins (hout : (s.conns a.conn).inTransaction = false)
    (hin : (s'.conns a.conn).inTransaction = true) :
    (noteJournal s a s' j).begun a.conn = s'.conns a.conn := by
  rw [noteJournal, if_pos ⟨hout, hin⟩]
  exact Function.update_self ..

/-- The turns of a transaction leave its BEGIN as it was. -/
theorem noteJournal_begun (hin : (s.conns i).inTransaction = true) :
    (noteJournal s a s' j).begun i = j.begun i := by
  unfold noteJournal
  split
  · rename_i hbegins
    refine Function.update_of_ne ?_ ..
    rintro rfl
    exact absurd hin (by simp [hbegins.1])
  · split <;> rfl

/-- Every open transaction has a BEGIN in the run so far, and is isolated from the others if it
has kept to the named tables since. -/
def Begun (p : Platform) (names : Set Str) (s₀ s : State) (j : Journal) : Prop :=
  ∀ i, (s.conns i).Running → ∃ before s₁ a s₂ turns lines,
    Transition.run (State.step p) s₀ before = some s₁ ∧ j.begun i = s₂.conns i ∧
      (s.conns i).received = (s₂.conns i).received ++ lines ∧
      ((∀ line ∈ lines, Confined names line) → Within p names i s₁ a s₂ turns s)

theorem Within.extend (hw : Within p names i s₁ a s₂ turns s) (hstep : s.step p b = some s')
    (htransacts : s.Transacts names i b) (hrunning : (s'.conns i).Running)
    (hnames : ∀ name ∈ names, s'.server.findTable name = s.server.findTable name) :
    Within p names i s₁ a s₂ (turns ++ [b]) s' where
  out := hw.out
  begins := hw.begins
  entered := hw.entered
  run := Transition.run_append_eq_some.mpr
    ⟨s, hw.run, Transition.run_cons_eq_some.mpr ⟨s', hstep, rfl⟩⟩
  transacts := hw.transacts.concat hw.run htransacts
  running := hrunning
  names name hname := (hnames name hname).trans (hw.names name hname)

theorem Within.start (hstep : s.step p b = some s') (hout : (s.conns i).inTransaction = false)
    (hrunning : (s'.conns i).Running) : Within p names i s b s' [] s' where
  out := hout
  begins := hstep
  entered := hrunning.1
  run := rfl
  transacts := trivial
  running := hrunning
  names _ _ := rfl

/-- A transaction has begun in a session that is live and logged in. -/
theorem Within.transacting (hw : Within p names i s₁ a s₂ turns s) (hboot : Boot s₀)
    (hbefore : Transition.run (State.step p) s₀ before = some s₁) (st : Store) :
    ((s₂.conns i).session st).Transacting where
  live := rfl
  loggedIn := by
    have hstrangers := hboot.strangers_run (Transition.run_append_eq_some.mpr
      ⟨s₁, hbefore, Transition.run_cons_eq_some.mpr ⟨s₂, hw.begins, Transition.run_nil s₂⟩⟩)
    by_contra hout
    cases hw.entered.symm.trans (hstrangers i (eq_false_of_ne_true hout)).inTransaction
  inTransaction := hw.entered

/-- A transaction that runs has been running, or begins. -/
theorem Stepped.running (hst : Stepped p s a effect c' s') (h : Inv s)
    (hrunning : (s'.conns a.conn).Running) :
    (s.conns a.conn).Running ∨ (s.conns a.conn).inTransaction = false := by
  have hview := (hst.refines h).view
  have hafter : s'.abs.view a.conn = _ := ((hst.inv h).wf a.conn).running_iff.mp hrunning
  rw [hafter] at hview
  generalize (s'.conns a.conn).lockedTables = locked at hview
  have hinside : ∀ {locked}, (s.conns a.conn).view = .inside locked → (s.conns a.conn).Running := by
    intro locked hbefore
    obtain ⟨-, rfl⟩ := Conn.view_inside hbefore
    exact (h.wf a.conn).running_iff.mpr hbefore
  generalize hbefore : s.abs.view a.conn = v at hview
  generalize s.call a effect = call at hview
  have hconn : (s.conns a.conn).view = v := hbefore
  cases hview with
  | begin => exact .inr (Conn.view_outside hconn)
  | _ => exact .inl (hinside hconn)

theorem Begun.step (hb : Begun p names s₀ s j) (h : Inv s)
    (hbefore : Transition.run (State.step p) s₀ before = some s)
    (hstep : s.step p a = some s')
    (hfound : ∀ name ∈ names, (s.server.findTable name).isSome = true) :
    Begun p names s₀ s' (noteJournal s a s' j) := by
  obtain ⟨effect, c', hst⟩ := h.stepped hstep
  have hnames : ∀ name ∈ names, s'.server.findTable name = s.server.findTable name := by
    intro name hname
    obtain ⟨t, ht⟩ := Option.isSome_iff_exists.mp (hfound name hname)
    rw [ht]
    exact hst.findTable ht
  intro i hrunning
  have hcases : (s.conns i).Running ∨ i = a.conn ∧ (s.conns i).inTransaction = false := by
    by_cases hi : i = a.conn
    · subst hi
      exact (hst.running h hrunning).imp_right fun hout => ⟨rfl, hout⟩
    · rw [hst.other hi] at hrunning
      exact .inl hrunning
  rcases hcases with hwas | ⟨rfl, hout⟩
  · obtain ⟨earlier, s₁, b, s₂, turns, lines, hearlier, hbegun, hlines, hw⟩ := hb i hwas
    refine ⟨earlier, s₁, b, s₂, turns ++ [a],
      lines ++ if a.conn = i then a.choice.received else [], hearlier,
      (noteJournal_begun hwas.1).trans hbegun, ?_, fun hconfined => ?_⟩
    · rw [hst.received i, hlines, List.append_assoc]
    · have hold := hw fun line hline => hconfined line (List.mem_append_left _ hline)
      refine hold.extend hstep ⟨hwas, fun ha line hline => ?_⟩ hrunning hnames
      exact hconfined line (List.mem_append_right _ (by rwa [if_pos ha]))
  · exact ⟨before, s, a, s', [], [], hbefore, noteJournal_begins hout hrunning.1,
      (List.append_nil _).symm, fun _ => .start hstep hout hrunning⟩

end Journal

/-! ### Conditions on the data

The induction over the run has one case with content, the COMMIT: by `Within.takes_effect` the
data is then what a client alone makes of the data before, and for that the condition is
assumed.
-/

/-- The tables as they are when nobody is in a transaction, with those of these names. -/
structure Store.Settled (names : Set Str) (st : Store) : Prop where
  pending : st.pending = fun _ _ => none
  rooted : ∀ name key value, st.committed name key = some value → st.found name = true
  found : ∀ name ∈ names, st.found name = true

/-- What may be said of the data, given the transactions that have committed. -/
abbrev Condition := List (List Str) → Data → Prop

/-- For a client alone with the tables that has just begun a transaction as `c₀`, these lines lead
from data that meets the condition to data that does when they have been committed, too. -/
def Preserves (p : Platform) (names : Set Str) (J : Condition) (done : List (List Str)) (c₀ : Conn)
    (lines : List Str) : Prop :=
  ∀ st : Store, st.Settled names → (c₀.session st).Transacting → J done st.committed →
    J (done ++ [lines]) ((c₀.session st).run p lines).store.committed

/-- A turn after which the condition should still hold: a transaction that is at COMMIT has kept
to the named tables, and what it has asked for since BEGIN preserves the condition; and so does a
SET outside of transactions. -/
structure Careful (p : Platform) (names : Set Str) (J : Condition) (x : State × Journal) (a : Turn) :
    Prop where
  commits : ∀ s', x.1.step p a = some s' → x.1.Commits a s' →
    (∀ line ∈ x.2.since s' a.conn, Confined names line) ∧
      Preserves p names J x.2.committed (x.2.begun a.conn) (x.2.since s' a.conn)
  writes : ∀ name key value t, (x.1.conns a.conn).pc = .guardCall (.set name key value) t →
    ∀ d, J x.2.committed d → J x.2.committed (d.put name key value)

section Conditions

variable {p : Platform} {names : Set Str} {J : Condition} {s₀ s s' : State} {a : Turn}
  {turns : List Turn} {j : Journal}

theorem current_settled (hfound : ∀ name ∈ names, (s.server.findTable name).isSome = true) :
    s.current.Settled names where
  pending := rfl
  rooted name key value hvalue := by
    obtain ⟨t, hname, -⟩ := Option.bind_eq_some_iff.mp hvalue
    show (s.server.findTable name).isSome = true
    rw [hname]
    rfl
  found := hfound

/-- What holds along the run. -/
structure Kept (p : Platform) (names : Set Str) (J : Condition) (s₀ s : State) (j : Journal) :
    Prop where
  placed : ∀ i, Placed Set.univ i s
  reached : ∃ before, Transition.run (State.step p) s₀ before = some s
  begun : Begun p names s₀ s j
  found : ∀ name ∈ names, (s.server.findTable name).isSome = true
  data : J j.committed s.data

theorem Kept.start (hboot : Boot s₀) (hdistinct : s₀.server.Distinct)
    (hnames : ∀ name ∈ names, (s₀.server.findTable name).isSome = true) (hJ : J [] s₀.data) :
    Kept p names J s₀ s₀ {} where
  placed i := ⟨hboot.inv, hdistinct, by rw [hboot.conns]; trivial⟩
  reached := ⟨[], rfl⟩
  begun i hrunning := by
    rw [hboot.conns] at hrunning
    cases hrunning.1
  found := hnames
  data := hJ

/-- A transaction keeps the condition when its COMMIT is read. -/
theorem Kept.commit (h : Kept p names J s₀ s j) (hboot : Boot s₀) (hdistinct : s₀.server.Distinct)
    (hcareful : Careful p names J (s, j) a) (hstep : s.step p a = some s')
    (hcommits : s.Commits a s') : J (j.committed ++ [j.since s' a.conn]) s'.data := by
  obtain ⟨before, s₁, b, s₂, mid, early, hbefore, hbegun, hearly, hwithin⟩ :=
    h.begun a.conn hcommits.1
  obtain ⟨effect, c', hst⟩ := (h.placed a.conn).inv.stepped hstep
  obtain ⟨hconfined, hpreserves⟩ := hcareful.commits s' hstep hcommits
  have hall : j.since s' a.conn = early ++ a.choice.received := by
    rw [Journal.since, hbegun, hst.received, if_pos rfl, hearly, List.append_assoc, List.drop_left]
  have hw := hwithin fun line hline => hconfined line (by
    rw [show (s, j).2.since s' a.conn = _ from hall]
    exact List.mem_append_left _ hline)
  obtain ⟨lines, st, hlines, hrun, hcurrent, hpc⟩ :=
    hw.takes_effect hboot hdistinct hbefore rfl hstep hcommits.2
  have hsince : j.since s' a.conn = lines := by
    rw [Journal.since, hbegun, hlines, List.drop_left]
  rw [show (s, j).2.begun a.conn = s₂.conns a.conn from hbegun,
    show (s, j).2.since s' a.conn = lines from hsince] at hpreserves
  have hdata := hpreserves s.current (current_settled h.found) (hw.transacting hboot hbefore _) h.data
  rw [hrun, Conn.settle.eq_1, hpc] at hdata
  rw [hsince, State.data, hcurrent]
  exact hdata

/-- **A careful turn** keeps the condition. -/
theorem Kept.step (h : Kept p names J s₀ s j) (hboot : Boot s₀)
    (hdistinct : s₀.server.Distinct) (hcareful : Careful p names J (s, j) a)
    (hstep : s.step p a = some s') : Kept p names J s₀ s' (noteJournal s a s' j) := by
  obtain ⟨before, hbefore⟩ := h.reached
  have hinv := (h.placed a.conn).inv
  obtain ⟨effect, c', hst⟩ := hinv.stepped hstep
  refine ⟨fun i => hst.placed (h.placed i) fun _ _ _ _ _ => ?_,
    ⟨before ++ [a], Transition.run_append_eq_some.mpr
      ⟨s, hbefore, Transition.run_cons_eq_some.mpr ⟨s', hstep, rfl⟩⟩⟩,
    h.begun.step hinv hbefore hstep h.found, fun name hname => ?_, ?_⟩
  · exact ⟨fun _ => ⟨[], trivial⟩, fun _ => trivial⟩
  · obtain ⟨t, ht⟩ := Option.isSome_iff_exists.mp (h.found name hname)
    rw [hst.findTable ht]
    rfl
  · by_cases hcommits : s.Commits a s'
    · rw [hcommits.noted]
      exact h.commit hboot hdistinct hcareful hstep hcommits
    rw [noteJournal_committed hcommits]
    rcases hst.data_cases hinv (h.placed a.conn).distinct (h.placed a.conn).within with
      hdata | ⟨name, key, value, t, hpc, hdata⟩ | ⟨hrunning, hloop⟩
    · exact hdata ▸ h.data
    · exact hdata ▸ hcareful.writes name key value t hpc _ h.data
    · rw [← hst.self] at hloop
      exact (hcommits ⟨hrunning, hloop⟩).elim

/-- A run of careful turns keeps the condition. -/
theorem Boot.kept_careful (hboot : Boot s₀) (hdistinct : s₀.server.Distinct)
    (hnames : ∀ name ∈ names, (s₀.server.findTable name).isSome = true) (hJ : J [] s₀.data)
    (hcareful : Transition.Along (Transition.recorded (State.step p) noteJournal)
      (Careful p names J) (s₀, {}) turns)
    (hrun : Transition.run (Transition.recorded (State.step p) noteJournal) (s₀, {}) turns
      = some (s, j)) : Kept p names J s₀ s j := by
  refine Transition.along_invariant (I := fun x : State × Journal => Kept p names J s₀ x.1 x.2) ?_
    (Kept.start hboot hdistinct hnames hJ) hcareful hrun
  rintro ⟨m, k⟩ b ⟨m', k'⟩ hm hb hstep
  obtain ⟨hturn, rfl⟩ := Transition.recorded_eq_some.mp hstep
  exact hm.step hboot hdistinct hb hturn

/--
**Transactions keep the data consistent**: whatever the interleaving, a condition on the data that
counts and on what has been committed so far holds at every moment, if each transaction that
commits keeps it when it is alone with the tables, makes no table and asks only for such as there
are from the start, and each SET outside of transactions keeps it, too.
-/
theorem consistency_preserved (hboot : Boot s₀) (hdistinct : s₀.server.Distinct)
    (hnames : ∀ name ∈ names, (s₀.server.findTable name).isSome = true) (hJ : J [] s₀.data)
    (hcareful : Transition.Along (Transition.recorded (State.step p) noteJournal)
      (Careful p names J) (s₀, {}) turns)
    (hrun : Transition.run (Transition.recorded (State.step p) noteJournal) (s₀, {}) turns
      = some (s, j)) : J j.committed s.data :=
  (hboot.kept_careful hdistinct hnames hJ hcareful hrun).data

end Conditions

/-! ### Programs

Here the condition is not assumed but proved: the requests of a program carry it out for a
client alone, so the data is always what the committed ones have made of it in their order.
-/

theorem Program.Executes.append {d d' d'' : Data} {prog more : List Assign}
    (h : Program.Executes d prog d') (h' : Program.Executes d' more d'') :
    Program.Executes d (prog ++ more) d'' := by
  induction h with
  | nil => exact h'
  | cons he _ ih => exact .cons he (ih h')

/-- A write that no transaction makes. -/
def Pc.setsAlone : Pc → Bool
  | .guardCall (.set ..) _ => true
  | _ => false

/-- A turn of clients that write in transactions only, and commit nothing but the programs. -/
def Programmed (p : Platform) (progs : List (List Assign)) (x : State × Journal) (a : Turn) : Prop :=
  (∀ s' ∈ x.1.step p a, x.1.Commits a s' →
    ∃ prog ∈ progs, Asks (x.2.since s' a.conn) (Program.transaction prog)) ∧
  (x.1.conns a.conn).pc.setsAlone = false

instance {p : Platform} {progs : List (List Assign)} {x : State × Journal} {a : Turn} :
    Decidable (Programmed p progs x a) :=
  have {lines : List Str} {prog : List Assign} :
      Decidable (Asks lines (Program.transaction prog)) := by unfold Asks; infer_instance
  inferInstanceAs (Decidable (_ ∧ _))

/-- A program that what has been asked for in a transaction carries out. -/
def CarriesOut (progs : List (List Assign)) (lines : List Str) (prog : List Assign) : Prop :=
  prog ∈ progs ∧ Asks lines (Program.transaction prog)

/-- The data is what the programs that have been committed make of it one after the other. -/
def Serially (progs : List (List Assign)) (J : Data → Prop) (d₀ : Data) : Condition :=
  fun done d => J d ∧ ∃ ps, List.Forall₂ (CarriesOut progs) done ps ∧
    Program.Executes d₀ ps.flatten d

section Programs

variable {p : Platform} {names : Set Str} {progs : List (List Assign)} {J : Data → Prop}
  {d₀ d d' : Data} {s₀ s : State} {j : Journal} {turns : List Turn} {a : Turn} {f : Solo}
  {lines : List Str} {done : List (List Str)} {prog : List Assign} {c : Conn} {x : State × Journal}

theorem Store.Settled.visible {st : Store} (h : st.Settled names) : st.visible = st.committed := by
  funext name key
  simp [Store.visible, h.pending]

/-- **A transaction of a program**, from right after its BEGIN to its COMMIT. -/
theorem Solo.Transacting.run (hf : f.Transacting) (hsettled : f.store.Settled names)
    (hexec : Program.Executes f.store.committed prog d') (htables : ∀ a ∈ prog, a.table ∈ names)
    (hlines : Asks lines (Program.transaction prog)) :
    f.run p lines = { f with
      inTransaction := false
      sent := f.sent ++ List.replicate (Program.transaction prog).length okLine
      store := ⟨f.store.found, d', fun _ _ => none⟩ } :=
  hf.transaction hexec (fun a ha => hsettled.found _ (htables a ha)) f _
    ⟨by simp, hsettled.visible, hsettled.rooted⟩ (runs_asked.mpr ⟨lines, hlines, rfl⟩)

theorem preserves_program (hmem : prog ∈ progs) (htables : ∀ a ∈ prog, a.table ∈ names)
    (hJ : ∀ d, J d → ∃ d', Program.Executes d prog d' ∧ J d')
    (hlines : Asks lines (Program.transaction prog)) :
    Preserves p names (Serially progs J d₀) done c lines := by
  rintro st hsettled hf ⟨hdata, ps, hdone, hexec⟩
  obtain ⟨d', hprog, hdata'⟩ := hJ _ hdata
  rw [hf.run hsettled hprog htables hlines]
  refine ⟨hdata', ps ++ [prog], List.rel_append hdone (.cons ⟨hmem, hlines⟩ .nil), ?_⟩
  rw [List.flatten_concat]
  exact hexec.append hprog

/-- The transaction of a program asks for the tables of the program. -/
theorem asks_confined (htables : ∀ a ∈ prog, a.tables ⊆ names)
    (hlines : Asks lines (Program.transaction prog)) : ∀ line ∈ lines, Confined names line := by
  intro line hline m' hm'
  obtain ⟨m, hmem, hm⟩ := hlines.mem hline
  obtain rfl := Except.ok.inj (hm.symm.trans hm')
  rcases List.mem_append.mp hmem with hmem | hcommit
  · obtain ⟨a, ha, hmem⟩ := List.mem_flatMap.mp hmem
    rcases List.mem_append.mp hmem with hmem | hset
    · rcases postorder_types hmem with ⟨text, rfl⟩ | ⟨table, key, rfl, hloc⟩ | ⟨o, rfl⟩
      · exact ⟨nofun, nofun⟩
      · exact ⟨nofun, fun _ => htables a ha (.inr ⟨_, hloc, rfl⟩)⟩
      · cases o <;> exact ⟨nofun, nofun⟩
    · obtain rfl := List.mem_singleton.mp hset
      exact ⟨nofun, fun _ => htables a ha (.inl rfl)⟩
  · obtain rfl := List.mem_singleton.mp hcommit
    exact ⟨nofun, nofun⟩

theorem Programmed.careful (h : Programmed p progs x a)
    (hJ : ∀ prog ∈ progs, ∀ d, J d → ∃ d', Program.Executes d prog d' ∧ J d') :
    Careful p (Program.tables progs) (Serially progs J d₀) x a where
  commits s' hstep hcommits := by
    obtain ⟨prog, hmem, hlines⟩ := h.1 s' hstep hcommits
    have htables : ∀ a ∈ prog, a.tables ⊆ Program.tables progs := fun a ha name hname =>
      ⟨prog, hmem, a, ha, hname⟩
    exact ⟨asks_confined htables hlines,
      preserves_program hmem (fun a ha => htables a ha (.inl rfl)) (hJ prog hmem) hlines⟩
  writes name key value t hpc := by
    have hnot := h.2
    rw [hpc] at hnot
    cases hnot

/--
**Programs run one after the other.**  If clients write in transactions only, and each transaction
that commits is one of some programs of assignments whose tables are there from the start, then the
data that counts is at every moment what the committed programs come to in the order of their
COMMITs, provided that the programs can do with what they make of it.
-/
theorem programs_run_serially (hboot : Boot s₀) (hdistinct : s₀.server.Distinct)
    (htables : ∀ name ∈ Program.tables progs, (s₀.server.findTable name).isSome = true)
    (hJ : ∀ prog ∈ progs, ∀ d, J d → ∃ d', Program.Executes d prog d' ∧ J d') (hdata : J s₀.data)
    (hprogrammed : Transition.Along (Transition.recorded (State.step p) noteJournal)
      (Programmed p progs) (s₀, {}) turns)
    (hrun : Transition.run (Transition.recorded (State.step p) noteJournal) (s₀, {}) turns
      = some (s, j)) :
    J s.data ∧ ∃ ps, List.Forall₂ (CarriesOut progs) j.committed ps ∧
      Program.Executes s₀.data ps.flatten s.data :=
  (hboot.kept_careful (J := Serially progs J s₀.data) hdistinct htables ⟨hdata, [], .nil, .nil⟩
    (hprogrammed.mono fun _ _ h => h.careful hJ) hrun).data

end Programs

/-! ### Two clients with one program -/

/-- The program that mirrors a value between 0 and 10. -/
def mirror : List Assign :=
  [⟨bytes "t", bytes "k", .op .sub (.lit (bytes "10")) (.cell (bytes "t") (bytes "k"))⟩]

/-- Between 0 and 10. -/
def UpToTen (d : Data) : Prop :=
  ∃ v : Int, 0 ≤ v ∧ v ≤ 10 ∧ d (bytes "t") (bytes "k") = some (toString v)

theorem mirror_executes {d : Data} (h : UpToTen d) :
    ∃ d', Program.Executes d mirror d' ∧ UpToTen d' := by
  obtain ⟨v, hlow, hhigh, hv⟩ := h
  have hvalue : (Expr.op .sub (.lit (bytes "10")) (.cell (bytes "t") (bytes "k"))).Evaluates d (10 - v) :=
    .op (o := .sub) (.lit (spells_toString 10) (by decide))
      (.cell hv (spells_toString v) ⟨by omega, by omega⟩) (by simp)
      (show InInt (10 - v) from ⟨by omega, by omega⟩)
  refine ⟨_, .cons hvalue .nil, 10 - v, by omega, by omega, ?_⟩
  show Data.put d _ _ _ _ _ = _
  rw [Data.put, Function.update_self, Function.update_self]
  rfl

/-- Connections 0 and 1 mirror the value; connection 1 is refused the table at first.  Connection 2
makes a table in a transaction that it does not finish. -/
def mirrors : List Turn :=
  [⟨2, .recv (bytes "LOGIN c\n")⟩, ⟨2, .recv (bytes "BEGIN\n")⟩, ⟨2, .recv (bytes "CREATE u\n")⟩,
    ⟨2, .go⟩, ⟨2, .go⟩, ⟨2, .go⟩, ⟨0, .recv (bytes "LOGIN a\n")⟩, ⟨1, .recv (bytes "LOGIN b\n")⟩,
    ⟨0, .recv (bytes "BEGIN\n")⟩, ⟨1, .recv (bytes "BEGIN\n")⟩, ⟨0, .recv (bytes "PUSH 10\n")⟩,
    ⟨0, .recv (bytes "GET t k\n")⟩, ⟨0, .go⟩, ⟨0, .go⟩, ⟨1, .recv (bytes "GET t k\n")⟩, ⟨0, .go⟩,
    ⟨0, .go⟩, ⟨1, .go⟩, ⟨1, .go⟩, ⟨1, .go⟩, ⟨1, .go⟩, ⟨0, .go⟩, ⟨0, .recv (bytes "SUB\n")⟩,
    ⟨0, .recv (bytes "SET t k\n")⟩, ⟨0, .go⟩, ⟨0, .go⟩, ⟨0, .go⟩, ⟨0, .go⟩,
    ⟨0, .recv (bytes "COMMIT\n")⟩, ⟨0, .visit 0⟩, ⟨0, .go⟩, ⟨0, .go⟩,
    ⟨1, .go⟩, ⟨1, .recv (bytes "BEGIN\n")⟩, ⟨1, .recv (bytes "PUSH 10\n")⟩,
    ⟨1, .recv (bytes "GET t k\n")⟩, ⟨1, .go⟩, ⟨1, .go⟩, ⟨1, .go⟩, ⟨1, .go⟩, ⟨1, .go⟩,
    ⟨1, .recv (bytes "SUB\n")⟩, ⟨1, .recv (bytes "SET t k\n")⟩, ⟨1, .go⟩, ⟨1, .go⟩, ⟨1, .go⟩, ⟨1, .go⟩,
    ⟨1, .recv (bytes "COMMIT\n")⟩]

theorem oneTable_findTable {name : Str} {t : TablePtr}
    (h : oneTable.server.findTable name = some t) : name = bytes "t" := by
  have hname : (Server.initial.apply 0 (.newTable (bytes "t"))).findTable name = some t := h
  rcases apply_findTable hname with hname | ⟨-, heffect⟩
  · cases hname
  · exact (Effect.newTable.inj heffect).symm

theorem distinct_oneTable : oneTable.server.Distinct :=
  fun _ _ _ hname hother => (oneTable_findTable hname).trans (oneTable_findTable hother).symm

theorem mirrors_programmed :
    Transition.Along (Transition.recorded (State.step trapping) noteJournal)
      (Programmed trapping [mirror]) (oneTable, {}) mirrors := by
  decide +kernel

theorem found_oneTable :
    ∀ name ∈ Program.tables [mirror], (oneTable.server.findTable name).isSome = true := by
  rintro name ⟨prog, hprog, a, ha, hname⟩
  obtain rfl := List.mem_singleton.mp hprog
  obtain rfl := List.mem_singleton.mp ha
  obtain rfl : name = bytes "t" := by simpa [Assign.tables, Expr.cells] using hname
  decide

theorem oneTable_upToTen : UpToTen oneTable.data :=
  ⟨5, by decide, by decide, by decide +kernel⟩

theorem mirrors_run :
    ∃ s j, Transition.run (Transition.recorded (State.step trapping) noteJournal) (oneTable, {})
      mirrors = some (s, j) ∧ j.committed.length = 2 := by
  have hrun : (Transition.run (Transition.recorded (State.step trapping) noteJournal) (oneTable, {})
      mirrors).map (fun x => decide (x.2.committed.length = 2)) = some true := by decide +kernel
  obtain ⟨⟨s, j⟩, hrun, hx⟩ := Option.map_eq_some_iff.mp hrun
  exact ⟨s, j, hrun, of_decide_eq_true hx⟩

theorem consistency_preserved_mirrored :
    ∃ (s : State) (j : Journal), j.committed.length = 2 ∧ UpToTen s.data := by
  obtain ⟨s, j, hrun, hlength⟩ := mirrors_run
  refine ⟨s, j, hlength, (consistency_preserved
    (J := Serially [mirror] UpToTen oneTable.data) boot_oneTable distinct_oneTable found_oneTable
    ⟨oneTable_upToTen, [], .nil, .nil⟩ (mirrors_programmed.mono fun _ _ h => h.careful ?_) hrun).1⟩
  simpa using fun d => mirror_executes (d := d)

theorem programs_run_serially_mirrored :
    ∃ (s : State) (j : Journal), j.committed.length = 2 ∧ UpToTen s.data ∧
      ∃ ps, List.Forall₂ (CarriesOut [mirror]) j.committed ps ∧
        Program.Executes oneTable.data ps.flatten s.data := by
  obtain ⟨s, j, hrun, hlength⟩ := mirrors_run
  refine ⟨s, j, hlength, programs_run_serially boot_oneTable
    distinct_oneTable found_oneTable ?_ oneTable_upToTen mirrors_programmed hrun⟩
  simpa using fun d => mirror_executes (d := d)

end KvServer
