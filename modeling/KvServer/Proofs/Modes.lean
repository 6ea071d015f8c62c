/-
A transaction of a client on its own does what its requests do outside one.

In a transaction a SET goes to the pending maps and a GET looks there first; outside one
each SET is committed at once.  `Solo.auto` is the second session for a given first one,
and every request leads from such a pair to another.
-/
import KvServer.Proofs.Alone

namespace KvServer

/-! ### What a session has is storable

A TOP of a value that does not fit would end either session, but along these requests there is
none.
-/

section Stocked

variable {p : Platform} {σ : Solo} {st : Store}

/-- All that a session can get at is storable. -/
structure Solo.Stocked (σ : Solo) : Prop where
  stack : ∀ v ∈ σ.stack, Storable v
  visible : ∀ name key v, σ.store.visible name key = some v → Storable v

theorem visible_write {name key value : Str} (other k : Str) :
    (st.write name key value).visible other k
      = if other = name ∧ k = key then some value else st.visible other k := by
  unfold Store.visible Store.write
  by_cases hother : other = name
  · subst hother
    by_cases hk : k = key
    · subst hk
      simp
    · simp [hk]
  · simp [hother]

theorem Solo.Stocked.respond (h : σ.Stocked) (resp : Message) : (σ.respond resp).Stocked := by
  unfold Solo.respond
  split
  · exact ⟨h.stack, h.visible⟩
  · exact ⟨h.stack, h.visible⟩

theorem Solo.Stocked.withStack (h : σ.Stocked) {stack : List Str} (hstack : ∀ v ∈ stack, Storable v) :
    Solo.Stocked { σ with stack := stack } :=
  ⟨hstack, h.visible⟩

theorem Solo.Stocked.push (h : σ.Stocked) {value : Str} (hvalue : Storable value) :
    Solo.Stocked { σ with stack := value :: σ.stack } :=
  h.withStack (List.forall_mem_cons.mpr ⟨hvalue, h.stack⟩)

/-- The result of an operation is an `int`. -/
theorem result_inInt {op : ArithOp} {left right : Str} {v : Int}
    (h : Solo.result p op left right = .ok v) : InInt v := by
  unfold Solo.result at h
  cases hl : operandValue left with
  | error e =>
      rw [hl] at h
      cases h
  | ok l =>
      cases hr : operandValue right with
      | error e =>
          rw [hl, hr] at h
          cases h
      | ok r =>
          simp only [hl, hr, ok_bind] at h
          split at h
          · cases h
          · rcases arith_cases p op l r with ⟨v', hv', hint⟩ | htrap
            · obtain rfl := Except.ok.inj (hv'.symm.trans h)
              exact hint
            · cases htrap.symm.trans h

theorem Solo.Stocked.raise (h : σ.Stocked) {e : Exn}
    (he : (∃ what, e = .operation what) ∨ e = .trap) : (σ.raise e).Stocked := by
  rcases he with ⟨what, rfl⟩ | rfl
  · exact h.respond _
  · exact ⟨h.stack, h.visible⟩

theorem Solo.Stocked.arithmetic (h : σ.Stocked) (op : ArithOp) : (σ.arithmetic p op).Stocked := by
  unfold Solo.arithmetic
  split
  · rename_i right left rest hstack
    have hrest : ∀ v ∈ rest, Storable v := fun v hv => h.stack v (by simp [hstack, hv])
    split
    · rename_i v hv
      exact ⟨List.forall_mem_cons.mpr ⟨storable_toString (result_inInt hv), hrest⟩, h.visible⟩
    · rename_i e he
      exact (h.withStack hrest).raise (result_error he)
  · exact h.respond _

theorem Solo.Stocked.access (h : σ.Stocked) {x : Access}
    (hvalue : ∀ name key value, x = .set name key value → Storable value) :
    (σ.access x).Stocked := by
  unfold Solo.access
  split
  · cases x with
    | get name key =>
        show (σ.get name key).Stocked
        unfold Solo.get
        split
        · rename_i value hvisible
          have hpush := h.push (h.visible name key value hvisible)
          exact ⟨hpush.stack, hpush.visible⟩
        · exact h.respond _
    | set name key value =>
        have hwrite : ∀ other k v, (σ.store.write name key value).visible other k = some v →
            Storable v := by
          intro other k v hv
          rw [visible_write] at hv
          split at hv
          · exact Option.some.inj hv ▸ hvalue name key value rfl
          · exact h.visible other k v hv
        cases htx : σ.inTransaction with
        | true =>
            show (σ.set name key value).Stocked
            rw [Solo.set, if_pos htx]
            exact ⟨h.stack, hwrite⟩
        | false =>
            show (σ.set name key value).Stocked
            rw [Solo.set, if_neg (by simp [htx])]
            exact ⟨h.stack, hwrite⟩
  · exact h.respond _

end Stocked

/-! ### The same session outside the transaction

The two sessions see the same values, since a pending write hides what is committed; so each
request is answered alike, and the pairs go on.
-/

/-- The session as it would be had every SET been committed at once. -/
def Solo.auto (σ : Solo) (sent : List Str) : Solo :=
  { σ with inTransaction := false, sent := sent, store := σ.store.commit }

/-- Two sessions, one of them in a transaction, that have had the same answers since. -/
def Agrees (a b : List Str) (σ τ : Solo) : Prop :=
  (σ.loggedIn = true ∧ σ.inTransaction = true) ∧ σ.status ≠ .closed ∧
    ∃ rs, σ.sent = a ++ rs ∧ τ = σ.auto (b ++ rs)

section Agrees

variable {p : Platform} {a b : List Str} {σ τ : Solo}

namespace Agrees

theorem crash (h : Agrees a b σ τ) : Agrees a b σ.crash τ.crash := by
  obtain ⟨htx, -, rs, hsent, rfl⟩ := h
  exact ⟨htx, nofun, rs, hsent, rfl⟩

theorem send (h : Agrees a b σ τ) (line : Str) :
    Agrees a b { σ with sent := σ.sent ++ [line] } { τ with sent := τ.sent ++ [line] } := by
  obtain ⟨htx, hopen, rs, hsent, rfl⟩ := h
  refine ⟨htx, hopen, rs ++ [line], by rw [hsent, List.append_assoc], ?_⟩
  simp [Solo.auto]

theorem respond (h : Agrees a b σ τ) (resp : Message) :
    Agrees a b (σ.respond resp) (τ.respond resp) := by
  unfold Solo.respond
  cases encode resp with
  | ok line => exact h.send line
  | error e => exact h.crash

theorem failed (h : Agrees a b σ τ) (what : Str) : Agrees a b (σ.failed what) (τ.failed what) :=
  h.respond _

theorem ok (h : Agrees a b σ τ) : Agrees a b σ.ok τ.ok := h.send okLine

theorem withStack (h : Agrees a b σ τ) (stack : List Str) :
    Agrees a b { σ with stack := stack } { τ with stack := stack } := by
  obtain ⟨htx, hopen, rs, hsent, rfl⟩ := h
  exact ⟨htx, hopen, rs, hsent, rfl⟩

theorem same (h : Agrees a b σ τ) : τ.stack = σ.stack ∧ τ.loggedIn = σ.loggedIn ∧
    τ.store.found = σ.store.found ∧ τ.store.visible = σ.store.visible := by
  obtain ⟨-, -, rs, -, rfl⟩ := h
  exact ⟨rfl, rfl, rfl, rfl⟩

theorem login (h : Agrees a b σ τ) : Agrees a b σ.login τ.login := by
  unfold Solo.login
  rw [h.same.2.1]
  split
  · exact h.failed _
  · obtain ⟨htx, hopen, rs, hsent, rfl⟩ := h
    exact ok ⟨⟨rfl, htx.2⟩, hopen, rs, hsent, rfl⟩

theorem create (h : Agrees a b σ τ) (name : Str) : Agrees a b (σ.create name) (τ.create name) := by
  unfold Solo.create
  rw [h.same.2.2.1]
  split
  · exact h.failed _
  · obtain ⟨htx, hopen, rs, hsent, rfl⟩ := h
    exact ok ⟨htx, hopen, rs, hsent, rfl⟩

/-- A write is seen whether it is pending or committed. -/
theorem commit_write (st : Store) (name key value : Str) :
    (st.commit.write name key value).commit = (st.write name key value).commit := by
  refine Store.ext rfl (funext₂ fun other k => ?_) rfl
  show (st.commit.write name key value).visible other k = (st.write name key value).visible other k
  rw [visible_write, visible_write]
  rfl

theorem set (h : Agrees a b σ τ) (name key value : Str) :
    Agrees a b (σ.set name key value) (τ.set name key value) := by
  obtain ⟨htx, hopen, rs, hsent, rfl⟩ := h
  unfold Solo.set
  refine ok ⟨htx, hopen, rs, hsent, ?_⟩
  rw [if_pos htx.2, if_neg (show ¬ (σ.auto (b ++ rs)).inTransaction = true from nofun)]
  show { σ.auto (b ++ rs) with store := (σ.store.commit.write name key value).commit } = _
  rw [commit_write]
  rfl

theorem get (h : Agrees a b σ τ) (name key : Str) :
    Agrees a b (σ.get name key) (τ.get name key) := by
  unfold Solo.get
  rw [h.same.2.2.2, h.same.1]
  cases σ.store.visible name key with
  | none => exact h.failed _
  | some value => exact (h.withStack _).ok

theorem access (h : Agrees a b σ τ) (x : Access) : Agrees a b (σ.access x) (τ.access x) := by
  unfold Solo.access
  rw [h.same.2.2.1]
  split
  · cases x with
    | get name key => exact h.get name key
    | set name key value => exact h.set name key value
  · exact h.failed _

theorem takeSet (h : Agrees a b σ τ) (name key : Str) :
    Agrees a b (σ.takeSet name key) (τ.takeSet name key) := by
  unfold Solo.takeSet
  rw [h.same.1]
  cases σ.stack with
  | nil => exact h.failed _
  | cons value rest => exact (h.withStack rest).access _

theorem pop (h : Agrees a b σ τ) : Agrees a b σ.pop τ.pop := by
  unfold Solo.pop
  rw [h.same.1]
  cases σ.stack with
  | nil => exact h.failed _
  | cons value rest => exact (h.withStack rest).ok

theorem top (h : Agrees a b σ τ) (hstack : ∀ v ∈ σ.stack, Storable v) :
    Agrees a b σ.top τ.top := by
  unfold Solo.top
  rw [h.same.1]
  cases hs : σ.stack with
  | nil => exact h.failed _
  | cons value rest =>
      obtain ⟨line, hline⟩ := (hstack value (by simp [hs])).data
      simp only [hline]
      exact (h.withStack (value :: rest)).send line

theorem arithmetic (h : Agrees a b σ τ) (op : ArithOp) :
    Agrees a b (σ.arithmetic p op) (τ.arithmetic p op) := by
  unfold Solo.arithmetic
  rw [h.same.1]
  rcases σ.stack with _ | ⟨right, _ | ⟨left, rest⟩⟩
  · exact h.failed _
  · exact h.failed _
  · dsimp only
    cases hresult : Solo.result p op left right with
    | ok v => exact (h.withStack _).ok
    | error e =>
        rcases result_error hresult with ⟨what, rfl⟩ | rfl
        · exact (h.withStack rest).failed what
        · exact (h.withStack rest).crash

end Agrees

/-- A request that can be made inside a transaction and outside, and that ends neither it
nor the session. -/
def Message.Ordinary (m : Message) : Prop :=
  m.messageType.isRequest = true ∧ m.messageType ≠ .begin ∧ m.messageType ≠ .commit ∧
    m.messageType ≠ .bye

theorem Agrees.request (h : Agrees a b σ τ) {m : Message} (hm : m.Ordinary)
    (hstack : ∀ v ∈ σ.stack, Storable v) : Agrees a b (σ.request p m) (τ.request p m) := by
  obtain ⟨hrequest, hbegin, hcommit, hbye⟩ := hm
  unfold Solo.request
  rw [h.same.2.1]
  split
  · exact h.failed _
  · cases htype : m.messageType with
    | login => exact h.login
    | create => exact h.create _
    | get => exact h.access _
    | set => exact h.takeSet _ _
    | push =>
        have hpush := (h.withStack (m.getValue :: σ.stack)).ok
        rw [h.same.2.1] at hpush
        dsimp only
        rwa [h.same.1]
    | pop => exact h.pop
    | top => exact h.top hstack
    | add => exact h.arithmetic .add
    | sub => exact h.arithmetic .sub
    | mul => exact h.arithmetic .mul
    | div => exact h.arithmetic .div
    | begin => exact absurd htype hbegin
    | commit => exact absurd htype hcommit
    | bye => exact absurd htype hbye
    | _ =>
        rw [htype] at hrequest
        cases hrequest

/-- **An ordinary request leaves storable things storable.** -/
theorem Solo.Stocked.line (h : σ.Stocked) {line : Str} {m : Message}
    (hm : decode (cstr line) = .ok m) (hord : m.Ordinary)
    (hlen : line.length ≤ maxEncodedLen - 1) : (σ.line p line).Stocked := by
  obtain ⟨hrequest, hbegin, hcommit, hbye⟩ := hord
  rw [Solo.line, hm]
  show (σ.request p m).Stocked
  unfold Solo.request
  split
  · exact h.respond _
  · cases htype : m.messageType with
    | login =>
        dsimp only [Solo.login]
        split
        · exact h.respond _
        · exact ⟨h.stack, h.visible⟩
    | create =>
        dsimp only [Solo.create]
        split
        · exact h.respond _
        · exact ⟨h.stack, h.visible⟩
    | get => exact h.access (by simp)
    | set =>
        dsimp only [Solo.takeSet]
        split
        · exact h.respond _
        · rename_i value rest hstack
          have hmem : ∀ v ∈ value :: rest, Storable v := hstack ▸ h.stack
          refine (h.withStack fun v hv => hmem v (List.mem_cons_of_mem _ hv)).access ?_
          rintro _ _ _ ⟨⟩
          exact hmem value List.mem_cons_self
    | push =>
        have hpush := h.push (storable_push hm htype hlen)
        exact ⟨hpush.stack, hpush.visible⟩
    | pop =>
        dsimp only [Solo.pop]
        split
        · exact h.respond _
        · rename_i value rest hstack
          have hmem : ∀ v ∈ value :: rest, Storable v := hstack ▸ h.stack
          exact ⟨fun v hv => hmem v (List.mem_cons_of_mem _ hv), h.visible⟩
    | top =>
        dsimp only [Solo.top]
        split
        · exact h.respond _
        · rename_i value rest hstack
          obtain ⟨line, hline⟩ := (h.stack value (by simp [hstack])).data
          rw [hline]
          exact ⟨h.stack, h.visible⟩
    | add => exact h.arithmetic .add
    | sub => exact h.arithmetic .sub
    | mul => exact h.arithmetic .mul
    | div => exact h.arithmetic .div
    | begin => exact absurd htype hbegin
    | commit => exact absurd htype hcommit
    | bye => exact absurd htype hbye
    | _ =>
        rw [htype] at hrequest
        cases hrequest

/-- Lines that ask for ordinary requests. -/
def Ordinary (lines : List Str) : Prop :=
  ∀ line ∈ lines, ∃ m, decode (cstr line) = .ok m ∧ m.Ordinary

/-- **The two sessions stay in step.** -/
theorem Agrees.run {lines : List Str} (h : Agrees a b σ τ) (hstocked : σ.Stocked)
    (hlines : Ordinary lines) (hfit : Fit lines) : Agrees a b (σ.run p lines) (τ.run p lines) := by
  induction lines generalizing σ τ with
  | nil => exact h
  | cons line rest ih =>
      have hstatus : τ.status = σ.status := by
        obtain ⟨-, -, rs, -, rfl⟩ := h
        rfl
      by_cases hlive : σ.status = .live
      · obtain ⟨m, hm, hord⟩ := hlines line List.mem_cons_self
        have hlen := (hfit line List.mem_cons_self).2
        rw [Solo.run_cons hlive, Solo.run_cons (hstatus.trans hlive)]
        refine ih ?_ (hstocked.line hm hord hlen) (fun l hl => hlines l (List.mem_cons_of_mem _ hl))
          fun l hl => hfit l (List.mem_cons_of_mem _ hl)
        rw [Solo.line, Solo.line, hm]
        exact h.request hord hstocked.stack
      · rw [Solo.run_gone hlive, Solo.run_gone (hstatus ▸ hlive)]
        exact h

/-- BEGIN. -/
theorem Agrees.begin {line : Str} {m : Message} (hm : decode (cstr line) = .ok m)
    (htype : m.messageType = .begin) (hin : σ.loggedIn = true) (hlive : σ.status = .live)
    (htx : σ.inTransaction = false) (hidle : σ.store.commit = σ.store) :
    Agrees (σ.sent ++ [okLine]) σ.sent (σ.line p line) σ := by
  have hline : σ.line p line = { σ with inTransaction := true }.ok := by
    simp [Solo.line, hm, Solo.request, htype, hin, Solo.begin, htx]
  rw [hline]
  refine ⟨⟨hin, rfl⟩, ?_, [], (List.append_nil _).symm, ?_⟩
  · simp [Solo.ok, hlive]
  · simp [Solo.auto, Solo.ok, hidle, ← htx]

/-- COMMIT. -/
theorem Agrees.commit {line : Str} {m : Message} (h : Agrees a b σ τ)
    (hm : decode (cstr line) = .ok m) (htype : m.messageType = .commit)
    (hlive : σ.status = .live) :
    σ.run p [line] = { τ with sent := σ.sent ++ [okLine] } := by
  obtain ⟨⟨hin, htx⟩, -, rs, -, rfl⟩ := h
  have hline : σ.line p line = { σ with inTransaction := false, store := σ.store.commit }.ok := by
    simp [Solo.line, hm, Solo.request, htype, hin, Solo.commit, htx]
  rw [Solo.run_cons hlive, hline]
  rfl

/-- **The two sessions come to the same**, but for the answers to BEGIN and COMMIT. -/
theorem modes_agree {begin commit : Str} {m m' : Message} {lines : List Str}
    (hbegin : decode (cstr begin) = .ok m) (hm : m.messageType = .begin)
    (hcommit : decode (cstr commit) = .ok m') (hm' : m'.messageType = .commit)
    (hin : σ.loggedIn = true) (hlive : σ.status = .live) (htx : σ.inTransaction = false)
    (hidle : σ.store.commit = σ.store) (hstocked : σ.Stocked) (hlines : Ordinary lines)
    (hfit : Fit lines) :
    ∃ rs, (σ.run p lines).sent = σ.sent ++ rs ∧ (σ.run p lines).status ≠ .closed ∧
      (σ.run p lines).inTransaction = false ∧
      if (σ.run p lines).status = .live then
        σ.run p (begin :: lines ++ [commit])
          = { σ.run p lines with sent := σ.sent ++ okLine :: rs ++ [okLine] }
      else (σ.run p (begin :: lines ++ [commit])).status = (σ.run p lines).status ∧
        (σ.run p (begin :: lines ++ [commit])).sent = σ.sent ++ okLine :: rs := by
  have hstart := Agrees.begin (p := p) hbegin hm hin hlive htx hidle
  have hbegun : (σ.line p begin).Stocked := by
    have hline : σ.line p begin = { σ with inTransaction := true }.ok := by
      simp [Solo.line, hbegin, Solo.request, hm, hin, Solo.begin, htx]
    rw [hline]
    exact ⟨hstocked.stack, hstocked.visible⟩
  have hagrees := hstart.run (p := p) hbegun hlines hfit
  have hrun : σ.run p (begin :: lines ++ [commit])
      = ((σ.line p begin).run p lines).run p [commit] := by
    rw [List.cons_append, Solo.run_cons hlive, Solo.run_append]
  obtain ⟨-, hopen, rs, hsent, hauto⟩ := id hagrees
  have hstatus : (σ.run p lines).status = ((σ.line p begin).run p lines).status := by rw [hauto]; rfl
  refine ⟨rs, by rw [hauto]; rfl, hstatus ▸ hopen, by rw [hauto]; rfl, ?_⟩
  rw [hrun]
  by_cases hend : (σ.run p lines).status = .live
  · rw [if_pos hend, hagrees.commit hcommit hm' (hstatus ▸ hend), hsent]
    simp
  · rw [if_neg hend, Solo.run_gone (hstatus ▸ hend)]
    exact ⟨hstatus.symm, by rw [hsent]; simp⟩

end Agrees

/-! ### On the server

Both runs are those of a connection that nobody gets in the way of, and what they come to is a
session.
-/

/-- Nothing is pending and nothing is locked. -/
structure State.Quiet (s : State) (i : ConnId) : Prop where
  pending : ∀ t, (s.server.tables t).keyValueTemp = ∅
  unlocked : ∀ k, s.server.owner k = none
  lockedTables : (s.conns i).lockedTables = ∅

/--
What is required of two ends of the same `n` requests from `s`: they are answered alike, and
unless the arithmetic has trapped both connections are reading again, with the same stack,
the same tables and the same committed maps.
-/
structure SameOutcome (i : ConnId) (n : Nat) (s s₁ s₂ : State) : Prop where
  terminated : s₂.terminated = s₁.terminated
  sent : ∃ rs, (s₁.conns i).sent = (s.conns i).sent ++ rs ∧
    (s₂.conns i).sent
      = (s.conns i).sent ++ okLine :: rs ++ (if s₁.terminated then [] else [okLine]) ∧
    (s₁.terminated = false → rs.length = n)
  reading : s₁.terminated = false → (s₁.conns i).pc = .reading ∧ (s₂.conns i).pc = .reading
  stack : s₁.terminated = false → (s₂.conns i).stack.vector = (s₁.conns i).stack.vector
  tables : s₁.terminated = false → ∀ name,
    (s₂.server.findTable name).isSome = (s₁.server.findTable name).isSome
  committed : s₁.terminated = false → ∀ name t₁ t₂, s₁.server.findTable name = some t₁ →
    s₂.server.findTable name = some t₂ →
    ∀ key, (s₂.server.tables t₂).keyValue.lookup key = (s₁.server.tables t₁).keyValue.lookup key
  quiet : s₁.terminated = false → s₁.Quiet i ∧ s₂.Quiet i

section System

variable {p : Platform} {s s₁ s₂ : State} {i : ConnId} {lines : List Str}

theorem State.Sound.quiet (h : s.Sound i) (hpc : (s.conns i).pc = .reading)
    (htx : (s.conns i).inTransaction = false) : s.Quiet i := by
  have hlocked := (h.inv.wf i).idle htx
  have hheld : (s.conns i).view.held = ∅ := by
    rw [Conn.held_plain (h.inv.wf i) (Conn.plain_reading hpc), hlocked]
  have hunlocked : ∀ k, s.server.owner k = none := by
    intro k
    cases howner : s.server.owner k with
    | none => rfl
    | some j =>
        obtain rfl := h.isOpen k j howner
        have hholds := (h.inv.owned k j).mp howner
        cases k with
        | catalogue => simp [Conn.Holds, Conn.holdsCatalogue, hpc] at hholds
        | table t => simp [Conn.Holds, hheld] at hholds
  exact ⟨fun t => keyValueTemp_eq_empty (congrFun (h.inv.protocol.clean_free (hunlocked (.table t)))),
    hunlocked, hlocked⟩

/-- Nobody else has a mutex if no table is locked and the others are idle. -/
theorem Inv.open_of_idle (h : Inv s) (hunlocked : ∀ t, (s.server.tables t).tableMutex = none)
    (hidle : ∀ j, j ≠ i → (s.conns j).pc = .reading ∨ (s.conns j).pc = .closed) : s.Open i := by
  intro k j hj
  cases k with
  | catalogue =>
      by_contra hne
      have hholds := (h.owned .catalogue j).mp hj
      rcases hidle j hne with hpc | hpc
      · simp [Conn.Holds, Conn.holdsCatalogue, hpc] at hholds
      · simp [Conn.Holds, Conn.holdsCatalogue, hpc] at hholds
  | table t => cases (hunlocked t).symm.trans hj

theorem Stored.session (h : Stored s) (scope : Scope) (i : ConnId) :
    ((s.conns i).session (s.server.store scope i)).Stocked where
  stack := (h.conns i).stack
  visible name key v hv := by
    by_cases hloc : (name, key) ∈ scope
    · change (s.server.store scope i).visible name key = some v at hv
      rw [store_sees hloc] at hv
      obtain ⟨t, -, hv⟩ := Option.bind_eq_some_iff.mp hv
      rcases Option.or_eq_some_iff.mp hv with hwritten | ⟨-, hcommitted⟩
      · unfold Table.written at hwritten
        split at hwritten
        · exact (h.tables t).pending key v hwritten
        · cases hwritten
      · exact (h.tables t).committed key v hcommitted
    · simp [Conn.session, Store.visible, Server.store, hloc] at hv

/-- Tables that look the same to connection `i` when it has nothing pending. -/
theorem store_same {sv sv' : Server} (h : sv'.store Set.univ i = sv.store Set.univ i) :
    (∀ name, (sv'.findTable name).isSome = (sv.findTable name).isSome) ∧
      ∀ name t t', sv.findTable name = some t → sv'.findTable name = some t' →
        ∀ key, (sv'.tables t').keyValue.lookup key = (sv.tables t).keyValue.lookup key := by
  refine ⟨fun name => ?_, fun name t t' ht ht' key => ?_⟩
  · have hname : name ∈ Scope.Names Set.univ := ⟨[], trivial⟩
    have hfound := congrFun (congrArg Store.found h) name
    rwa [store_found hname, store_found hname] at hfound
  · have hcommitted := congrFun₂ (congrArg Store.committed h) name key
    have hloc : (name, key) ∈ (Set.univ : Scope) := trivial
    rwa [store_committed hloc ht', store_committed hloc ht] at hcommitted

/-- The end of a connection's own lines, as a session. -/
theorem State.Completes.outcome (h : s.Completes p i lines s₁) (hs : s.Sound i)
    (hplaced : Placed Set.univ i s) (hpc : (s.conns i).pc = .reading) :
    s₁.Sound i ∧ (s₁.conns i).pc.Rests ∧ s₁.settle Set.univ i
      = ((s.conns i).session (s.server.store Set.univ i)).run p lines := by
  obtain ⟨hsound, -, hrests, hsettle⟩ := h.settle hs hplaced fun line _ m _ =>
    ⟨fun _ => ⟨[], trivial⟩, fun _ => trivial⟩
  exact ⟨hsound, hrests, hsettle.trans (by rw [State.settle, settle_reading hpc])⟩

/-- Each request has had one answer. -/
theorem State.Completes.answered {before : List Turn} {rs : List Str}
    (h : s.Completes p i lines s₁)
    (hbefore : Transition.run (State.step p) State.initial before = some s)
    (hpc : (s.conns i).pc = .reading) (hpc₁ : (s₁.conns i).pc = .reading)
    (hsent : (s₁.conns i).sent = (s.conns i).sent ++ rs) : rs.length = lines.length := by
  obtain ⟨turns, -, -, hrun, hreceived⟩ := h.received hpc₁
  have hcount := boot_initial.answered_run hbefore i
  have hcount₁ := boot_initial.answered_run (Transition.run_append_eq_some.mpr ⟨s, hbefore, hrun⟩) i
  rw [hpc₁, hsent, hreceived, List.length_append, List.length_append] at hcount₁
  rw [hpc] at hcount
  simp only [Pc.owes] at hcount hcount₁
  omega

/-- A connection at rest has sent what its session has. -/
theorem rests_sent {c : Conn} (st : Store) (h : c.pc.Rests) : (c.settle st).sent = c.sent := by
  rcases h with h | h | h
  · rw [Conn.settle, h]
    rfl
  · rw [Conn.settle, h]
    rfl
  · rw [Conn.settle, h]
    rfl

/--
**A transaction on its own agrees with autocommit mode.**  With the other connections idle,
the requests alone and the requests between BEGIN and COMMIT are both carried out, and come
to the same.
-/
theorem transaction_agrees {before : List Turn} {begin commit : Str} {m m' : Message}
    (hbefore : Transition.run (State.step p) State.initial before = some s)
    (hrunning : s.terminated = false) (hunlocked : ∀ t, (s.server.tables t).tableMutex = none)
    (hidle : ∀ j, j ≠ i → (s.conns j).pc = .reading ∨ (s.conns j).pc = .closed)
    (hpc : (s.conns i).pc = .reading) (hin : (s.conns i).loggedIn = true)
    (htx : (s.conns i).inTransaction = false) (hbegin : decode (cstr begin) = .ok m)
    (hm : m.messageType = .begin) (hcommit : decode (cstr commit) = .ok m')
    (hm' : m'.messageType = .commit) (hlines : Ordinary lines)
    (hfit : Fit (begin :: lines ++ [commit])) :
    (∃ s₁, s.Completes p i lines s₁) ∧
    (∃ s₂, s.Completes p i (begin :: lines ++ [commit]) s₂) ∧
    ∀ s₁ s₂, s.Completes p i lines s₁ → s.Completes p i (begin :: lines ++ [commit]) s₂ →
      SameOutcome i lines.length s s₁ s₂ := by
  have hstored := stored_run hbefore
  have hsound : s.Sound i := ⟨hstored.inv, hstored.inv.open_of_idle hunlocked hidle, by
    simp [hrunning, hpc]⟩
  have hplaced : Placed Set.univ i s :=
    { inv := hstored.inv, distinct := boot_initial.distinct_run distinct_initial hbefore
      within := by rw [hpc]; trivial }
  have hfits : Fit lines := fun line hline =>
    hfit line (List.mem_append_left _ (List.mem_cons_of_mem _ hline))
  refine ⟨hsound.completes p hfits, hsound.completes p hfit, fun s₁ s₂ h₁ h₂ => ?_⟩
  obtain ⟨hsound₁, hrests₁, hsettle₁⟩ := h₁.outcome hsound hplaced hpc
  obtain ⟨hsound₂, hrests₂, hsettle₂⟩ := h₂.outcome hsound hplaced hpc
  have hidle' : (s.server.store Set.univ i).commit = s.server.store Set.univ i := by
    refine (hstored.inv.store_idle ?_).1
    simp [Conn.view, hpc, htx, TwoPhase.View.dirty]
  obtain ⟨rs, hsent, hopen, hauto, hend⟩ := modes_agree (p := p) hbegin hm hcommit hm'
    (show ((s.conns i).session (s.server.store Set.univ i)).loggedIn = true from hin) rfl htx hidle'
    (hstored.session Set.univ i) hlines hfits
  rw [← hsettle₁] at hsent hopen hauto hend
  rw [← hsettle₂] at hend
  have hsent₁ : (s₁.conns i).sent = (s.conns i).sent ++ rs := (rests_sent _ hrests₁).symm.trans hsent
  have hsent₂ : (s₂.settle Set.univ i).sent = (s₂.conns i).sent := rests_sent _ hrests₂
  by_cases hlive : (s₁.settle Set.univ i).status = .live
  · rw [if_pos hlive] at hend
    have hpc₁ := (rests_live _ hrests₁).mp hlive
    have hpc₂ := (rests_live _ hrests₂).mp (show (s₂.settle Set.univ i).status = _ by rw [hend, hlive])
    have hterm₁ : s₁.terminated = false := by simpa [hpc₁] using hsound₁.terminated
    have hterm₂ : s₂.terminated = false := by simpa [hpc₂] using hsound₂.terminated
    have hsession₁ : s₁.settle Set.univ i = _ := settle_reading hpc₁
    have hsession₂ : s₂.settle Set.univ i = _ := settle_reading hpc₂
    rw [hsession₁] at hauto
    have hsession := hsession₂.symm.trans (hend.trans (by rw [hsession₁]))
    obtain ⟨htables, hcommitted⟩ := store_same (congrArg Solo.store hsession)
    exact
      { terminated := hterm₂.trans hterm₁.symm
        sent := ⟨rs, hsent₁, by
          rw [← hsent₂, hend, hterm₁]
          rfl, fun _ => h₁.answered hbefore hpc hpc₁ hsent₁⟩
        reading := fun _ => ⟨hpc₁, hpc₂⟩
        stack := fun _ => congrArg Solo.stack hsession
        tables := fun _ => htables
        committed := fun _ => hcommitted
        quiet := fun _ => ⟨hsound₁.quiet hpc₁ hauto,
          hsound₂.quiet hpc₂ ((congrArg Solo.inTransaction hsession).trans hauto)⟩ }
  · rw [if_neg hlive] at hend
    have hcrashed : (s₁.settle Set.univ i).status = .crashed := by
      cases hstatus : (s₁.settle Set.univ i).status with
      | live => exact absurd hstatus hlive
      | closed => exact absurd hstatus hopen
      | crashed => rfl
    have hpc₁ := (rests_crashed _ hrests₁).mp hcrashed
    have hpc₂ := (rests_crashed _ hrests₂).mp (hend.1.trans hcrashed)
    have hterm₁ : s₁.terminated = true := by simpa [hpc₁] using hsound₁.terminated
    have hterm₂ : s₂.terminated = true := by simpa [hpc₂] using hsound₂.terminated
    have hcontra : ∀ {P : Prop}, s₁.terminated = false → P := fun h => by
      cases hterm₁.symm.trans h
    exact
      { terminated := hterm₂.trans hterm₁.symm
        sent := ⟨rs, hsent₁, by
          rw [← hsent₂, hend.2, hterm₁]
          exact (List.append_nil _).symm, hcontra⟩
        reading := hcontra
        stack := hcontra
        tables := hcontra
        committed := hcontra
        quiet := hcontra }

end System

/-- Connection 0 has a table and a value on its stack. -/
def ready : List Turn :=
  [⟨0, .recv (bytes "LOGIN a\n")⟩, ⟨0, .recv (bytes "CREATE t\n")⟩, ⟨0, .go⟩, ⟨0, .go⟩, ⟨0, .go⟩,
    ⟨0, .recv (bytes "PUSH 1\n")⟩]

/-- It stores the value, reads it back, and looks for a key that is not there. -/
def storing : List Str := [bytes "SET t k\n", bytes "GET t k\n", bytes "GET t x\n"]

theorem transaction_agrees_storing :
    ∃ s s₁ s₂, Transition.run (State.step trapping) State.initial ready = some s ∧
      s.Completes trapping 0 storing s₁ ∧
      s.Completes trapping 0 (bytes "BEGIN\n" :: storing ++ [bytes "COMMIT\n"]) s₂ ∧
      SameOutcome 0 3 s s₁ s₂ := by
  have hstate : (Transition.run (State.step trapping) State.initial ready).map (fun s =>
      decide (s.terminated = false ∧ (s.conns 0).pc = .reading ∧ (s.conns 0).loggedIn = true ∧
        (s.conns 0).inTransaction = false)) = some true := by decide +kernel
  obtain ⟨s, hbefore, hs⟩ := Option.map_eq_some_iff.mp hstate
  obtain ⟨hrunning, hpc, hin, htx⟩ := of_decide_eq_true hs
  have hsound : s.Sound 0 := State.RunsAlone.sound
    ⟨ready, by unfold Alone; decide, by decide, hbefore, rfl⟩ (boot_initial.sound 0)
  have hidle : ∀ j, j ≠ 0 → (s.conns j).pc = .reading ∨ (s.conns j).pc = .closed := by
    intro j hj
    have huntouched := run_untouched hbefore (i := j) fun a ha => by
      rw [show a.conn = 0 by revert a; unfold ready; decide]
      exact hj
    rw [huntouched]
    exact .inl rfl
  have hlines : Ordinary storing := by
    unfold Ordinary Message.Ordinary storing
    simp only [List.forall_mem_cons]
    exact ⟨⟨{ messageType := .set, args := [bytes "t", bytes "k"] }, by decide +kernel, by decide⟩,
      ⟨{ messageType := .get, args := [bytes "t", bytes "k"] }, by decide +kernel, by decide⟩,
      ⟨{ messageType := .get, args := [bytes "t", bytes "x"] }, by decide +kernel, by decide⟩, nofun⟩
  have hbegin : decode (cstr (bytes "BEGIN\n")) = .ok { messageType := .begin } := by decide +kernel
  have hcommit : decode (cstr (bytes "COMMIT\n")) = .ok { messageType := .commit } := by
    decide +kernel
  obtain ⟨⟨s₁, h₁⟩, ⟨s₂, h₂⟩, hsame⟩ := transaction_agrees hbefore hrunning
    (fun t => (hsound.quiet hpc htx).unlocked (.table t)) hidle hpc hin htx hbegin rfl hcommit rfl
    hlines (by unfold Fit; decide)
  exact ⟨s, s₁, s₂, hbefore, h₁, h₂, hsame s₁ s₂ h₁ h₂⟩

end KvServer
