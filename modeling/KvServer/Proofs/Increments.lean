/-
`incr_value` without `-t`.

Without `-t` the GET and the SET of the tool are operations of their own, and the value it sets is
worked out from what it got, whatever has been stored in between.  The runs at one key are the
parties of `Lib/Racing`: a run reads where its GET is called on the table and writes where its SET
is committed.  `Updating` says where the server is in a run, and `UpdateStep` what one of its steps does
to the register.

So updates are lost, but only to runs that overlap, and never all of them; none is made twice.
-/
import KvServer.Lib.Racing
import KvServer.Proofs.Postfix
import KvServer.Proofs.Storing

namespace KvServer

open Racing (Party Register)

/-! ### The requests

Without BEGIN and COMMIT there are five requests and BYE, each of which is done when it has
been answered.
-/

/-- What `incr_value` sends without `-t`. -/
def autocommitted (user table key : Str) : List Message :=
  (Tool.incrValue false user table key).requests.map Prod.snd ++ [{ messageType := .bye }]

theorem autocommitted_eq (user table key : Str) : autocommitted user table key =
    [{ messageType := .login, args := [user] }, { messageType := .get, args := [table, key] },
      { messageType := .push, args := [bytes "1"] }, { messageType := .add },
      { messageType := .set, args := [table, key] }, { messageType := .bye }] :=
  rfl

theorem asks_next {lines got : List Str} {ms : List Message} {line : Str} {m : Message}
    (h : Asks lines ms) (hnext : got ++ [line] <+: lines) (hm : ms[got.length]? = some m) :
    decode (cstr line) = .ok m := by
  obtain ⟨more, rfl⟩ := hnext
  have hline := congrArg (·[got.length]?) h
  simpa [hm] using hline

/-- What ADD makes of a value and 1. -/
theorem attempt_add {p : Platform} {c : Conn} {v : Int} (hin : c.loggedIn = true)
    (hstack : c.stack.vector = [bytes "1", toString v]) (hv : InInt v) (hnext : InInt (v + 1)) :
    c.attempt (handleRequest p { messageType := .add })
      = { c with stack := { vector := [toString (v + 1)] }, sent := c.sent ++ [okLine],
                 pc := .reading } := by
  have hexec : (handleRequest p { messageType := .add }).exec c = (handleArith p .add).exec c := by
    simp [handleRequest, hin, handleArith]
  have hsum : arith p .add v 1 = .ok (v + 1) := if_pos hnext
  rw [handleArith_exec, operands_exec, hstack] at hexec
  simp only [operandValue_eq_ok.mpr (stoi_toString hv), operandValue_one, ok_bind, pure_eq,
    reduceCtorEq, false_and, if_false, pushResult_exec, hsum] at hexec
  rw [Conn.attempt, hexec]
  rfl

/-! ### Where the server is

A run is followed by the numbers of lines it has had read and answered; where they differ, a
request is being handled, and its point says which.
-/

/-- So many lines have been read and so many responses written. -/
structure Conn.Counts (c : Conn) (received sent : Nat) : Prop where
  received : c.received.length = received
  sent : c.sent.length = sent

/-- The operands before request `j`, once a value has been read that `n` updates have gone into. -/
def carried (v : Int) (n : Nat) : Nat → List Str
  | 2 => [toString (v + n)]
  | 3 => [bytes "1", toString (v + n)]
  | 4 => [toString (v + n + 1)]
  | _ => []

def partyAt (n : Nat) : Nat → Party
  | 0 | 1 => .before
  | 2 | 3 | 4 => .read n
  | _ => .wrote

/-- Where the server is in a run whose update stands at `x`. -/
inductive Updating (table key : Str) (t : TablePtr) (v : Int) (x : Party) (sv : Server) (c : Conn) :
    Prop
  | rests {j n : Nat} (hj : j ≤ 5) (hx : x = partyAt n j) (hpc : c.pc = .reading)
      (hcounts : c.Counts j j) (hrests : c.Rests (decide (0 < j)) (carried v n j))
  | fetches (hx : x = .before) (hcounts : c.Counts 2 1) (hrests : c.Rests true [])
      (haccess : c.pc.access = some (.get table key)) (hwithin : c.pc.Within Set.univ sv)
  | fetched {n : Nat} {u : TablePtr} (hx : x = .read n) (hcounts : c.Counts 2 1)
      (hrests : c.Rests true [toString (v + n)]) (hpc : c.pc = .guardUnlock u (.ok ()))
  | stores {n : Nat} (hx : x = .read n) (hcounts : c.Counts 5 4) (hrests : c.Rests true [])
      (haccess : c.pc.access = some (.set table key (toString (v + n + 1))))
      (hwithin : c.pc.Within Set.univ sv)
  | written {n : Nat} (hx : x = .read n) (hcounts : c.Counts 5 4) (hrests : c.Rests true [])
      (hpc : c.pc = .guardCommit t)
      (hvisible : (sv.tables t).visible key = some (toString (v + n + 1)))
  | committed {u : TablePtr} (hx : x = .wrote) (hcounts : c.Counts 5 4) (hrests : c.Rests true [])
      (hpc : c.pc = .guardUnlock u (.ok ()))
  | ended (hx : x = .wrote) (hpc : c.pc = .closed) (hreceived : 5 ≤ c.received.length)
  | gone (hx : x = .gone) (hpc : c.pc = .closed) (hsent : c.sent.length < 5)

/-- What a step does to the register, and where the server is after it. -/
inductive UpdateStep (table key : Str) (t : TablePtr) (v : Int) (value : Nat) (x : Party) (c : Conn)
    (effect : Effect) (sv' : Server) (c' : Conn) : Prop
  | stays (hwrites : effect.writes ≠ some (t, key)) (hpc : c.pc ≠ .guardCommit t)
      (h : Updating table key t v x sv' c')
  | quits (hwrites : effect.writes ≠ some (t, key)) (hpc : c.pc ≠ .guardCommit t) (hx : x ≠ .wrote)
      (h : Updating table key t v .gone sv' c')
  | reads (hwrites : effect.writes ≠ some (t, key)) (hpc : c.pc ≠ .guardCommit t) (hx : x = .before)
      (h : Updating table key t v (.read value) sv' c')
  | sets {n : Nat} (hpc : c.pc ≠ .guardCommit t) (hset : effect = .set t key (toString (v + n + 1)))
      (hpc' : c'.pc = .guardCommit t) (h : Updating table key t v x sv' c')
  | writes {n : Nat} (hx : x = .read n)
      (hhas : (sv'.tables t).Has key (toString (v + n + 1)))
      (h : Updating table key t v .wrote sv' c')

/-! ### The steps of a run

Only two steps of a run touch the register: the call of GET under the guard reads it, and the
commit of the SET under its guard writes it.
-/

section Steps

variable {p : Platform} {s s' : State} {i : ConnId} {ch : Choice} {effect : Effect} {c c' : Conn}
  {user table key : Str} {t : TablePtr} {v : Int} {x : Party} {value j n : Nat} {lines : List Str}

theorem Conn.Counts.next {resp line : Str} {k : Nat} (h : c.Counts j k)
    (hreceived : c'.received = c.received ++ [line]) (hsent : c'.sent = c.sent ++ [resp]) :
    c'.Counts (j + 1) (k + 1) :=
  ⟨by simp [hreceived, h.received], by simp [hsent, h.sent]⟩

theorem partyAt_ne_wrote (hj : j < 5) : partyAt n j ≠ .wrote := by
  rcases j with _ | _ | _ | _ | _ | j
  · exact nofun
  · exact nofun
  · exact nofun
  · exact nofun
  · exact nofun
  · omega

/-- **The next request is read**, or the tool is gone. -/
theorem rests_moves {sv sv' : Server} (hj : j ≤ 5) (hpc : c.pc = .reading) (hcounts : c.Counts j j)
    (hrests : c.Rests (decide (0 < j)) (carried v n j)) (hmoves : Moves p sv c ch effect c')
    (hstep : c.step p sv ch = some (effect, c')) (hasks : Asks lines (autocommitted user table key))
    (hnext : ∀ line, ch = .recv line → c.received ++ [line] <+: lines)
    (hroom : j = 3 → InInt (v + n) ∧ InInt (v + n + 1)) :
    UpdateStep table key t v value (partyAt n j) c effect sv' c' := by
  have hcommit : c.pc ≠ .guardCommit t := by simp [hpc]
  have hclosed : c.leave = .closed := if_neg (by simp [hrests.idle])
  rcases reading_step hpc hstep with ⟨line, rfl, rfl, rfl⟩ | rfl
  · have hdecode : ∀ m, (autocommitted user table key)[j]? = some m → decode (cstr line) = .ok m :=
      fun m hm => asks_next hasks (hnext line rfl) (hcounts.received.symm ▸ hm)
    rw [autocommitted_eq] at hdecode
    have hrests := hrests.received (c.received ++ [line])
    refine .stays nofun hcommit ?_
    rcases j with _ | _ | _ | _ | _ | _ | j
    · rw [chatWithClient_ok p (hdecode _ rfl), attempt_login rfl hrests.loggedIn]
      exact .rests (j := 1) (n := n) (by decide) rfl rfl (hcounts.next rfl rfl)
        ⟨hrests.idle, rfl, hrests.stack⟩
    · rw [chatWithClient_ok p (hdecode _ rfl), attempt_get hrests.loggedIn]
      exact .fetches rfl ⟨by simp [hcounts.received], hcounts.sent⟩
        ⟨hrests.idle, hrests.loggedIn, hrests.stack⟩ rfl (Set.mem_univ _)
    · rw [chatWithClient_ok p (hdecode _ rfl), attempt_push hrests.loggedIn]
      exact .rests (j := 3) (n := n) (by decide) rfl rfl (hcounts.next rfl rfl)
        ⟨hrests.idle, hrests.loggedIn, congrArg (bytes "1" :: ·) hrests.stack⟩
    · obtain ⟨hv, hv'⟩ := hroom rfl
      rw [chatWithClient_ok p (hdecode _ rfl), attempt_add hrests.loggedIn hrests.stack hv hv']
      exact .rests (j := 4) (n := n) (by decide) rfl rfl (hcounts.next rfl rfl)
        ⟨hrests.idle, hrests.loggedIn, rfl⟩
    · rw [chatWithClient_ok p (hdecode _ rfl), attempt_set hrests.loggedIn hrests.stack]
      exact .stores rfl ⟨by simp [hcounts.received], hcounts.sent⟩
        ⟨hrests.idle, hrests.loggedIn, rfl⟩ rfl (Set.mem_univ _)
    · rw [chatWithClient_bye p (hdecode _ rfl) rfl]
      exact .ended rfl hclosed (by simp [hcounts.received])
    · omega
  · cases hmoves with
    | eof hat =>
        rcases Nat.lt_or_eq_of_le hj with hj | rfl
        · exact .quits nofun hcommit (partyAt_ne_wrote hj) (.gone rfl hclosed (hcounts.sent.symm ▸ hj))
        · exact .stays nofun hcommit (.ended rfl hclosed (hcounts.received.symm ▸ Nat.le_refl 5))

/-- Whoever has written is past its SET. -/
theorem Moves.set_done {sv : Server} {loc : TablePtr × Str} (h : Moves p sv c ch effect c')
    (hwrites : effect.writes = some loc) : c'.pc.access = none := by
  cases h with
  | callSet hpc => rfl
  | guardSet hpc => rfl
  | @visit e rest u hpc ht => cases e <;> cases hwrites
  | _ => cases hwrites

/-- **What a step of a run does to the register.** -/
theorem Updating.moves (h : Updating table key t v x s.server (s.conns i)) (hs : Inv s)
    (hst : Stepped p s ⟨i, ch⟩ effect c' s') (hfound : s.server.findTable table = some t)
    (hasks : Asks lines (autocommitted user table key))
    (hnext : ∀ line, ch = .recv line → (s.conns i).received ++ [line] <+: lines)
    (hvalue : ∀ a, (s.conns i).pc = .guardCall a t →
      (s.server.tables t).Has key (toString (v + value)))
    (hroom : ∀ n, x = .read n → InInt (v + n) ∧ InInt (v + n + 1)) :
    UpdateStep table key t v value x (s.conns i) effect s'.server c' := by
  have hmoves : Moves p s.server (s.conns i) ch effect c' := hst.moves
  have hnear : (s.conns i).pc.Within Set.univ s.server → c'.pc.Within Set.univ s'.server := by
    intro hwithin
    rw [hst.server]
    exact hmoves.within hwithin fun line _ m _ =>
      ⟨fun _ => ⟨[], Set.mem_univ _⟩, fun _ => Set.mem_univ _⟩
  have hcommit : ∀ {a}, (s.conns i).pc.access = some a → (s.conns i).pc ≠ .guardCommit t := by
    intro a ha hpc
    rw [hpc] at ha
    cases ha
  cases h with
  | @rests j n hj hx hpc hcounts hrests =>
      rw [hx]
      exact rests_moves hj hpc hcounts hrests hmoves hst.runs hasks hnext
        fun hthree => hroom n (by rw [hx, hthree]; rfl)
  | fetches hx hcounts hrests haccess hwithin =>
      have hwrites : effect.writes ≠ some (t, key) := fun hwrites => by
        obtain ⟨table', y, hset⟩ := hmoves.writes hwrites
        cases haccess.symm.trans hset
      cases hmoves.approach (hs.wf i) hrests.idle haccess hwithin with
      | nearer pc hpc hc' =>
          subst hc'
          exact .stays hwrites (hcommit haccess) (.fetches hx ⟨hcounts.received, hcounts.sent⟩
            ⟨hrests.idle, hrests.loggedIn, hrests.stack⟩ hpc (hnear hwithin))
      | notFound hnone => cases hnone.symm.trans hfound
      | @there u hpc hu =>
          obtain rfl : t = u := Option.some.inj (hfound.symm.trans hu)
          have hget := Table.get_eq_ok.mpr (hvalue _ hpc).visible
          cases hmoves with
          | guardGet hat hgot =>
              obtain ⟨ha, rfl⟩ := Pc.guardCall.inj (hpc.symm.trans hat)
              obtain ⟨rfl, rfl⟩ := Access.get.inj ha
              obtain rfl := Except.ok.inj (hget.symm.trans hgot)
              exact .reads hwrites (hcommit haccess) hx (.fetched rfl
                ⟨hcounts.received, hcounts.sent⟩
                ⟨hrests.idle, hrests.loggedIn, congrArg (_ :: ·) hrests.stack⟩ rfl)
          | guardGetFail hat hwhat hgot =>
              obtain ⟨ha, rfl⟩ := Pc.guardCall.inj (hpc.symm.trans hat)
              obtain ⟨rfl, rfl⟩ := Access.get.inj ha
              cases hget.symm.trans hgot
          | _ => cases hpc.symm.trans ‹(s.conns i).pc = _›
  | @fetched n u hx hcounts hrests hpc =>
      cases hmoves with
      | guardUnlock hat hresp =>
          refine .stays nofun (by simp [hpc]) (.rests (j := 2) (n := n) (by decide) hx rfl ?_ ?_)
          · exact ⟨hcounts.received, by simp [hcounts.sent]⟩
          · exact ⟨hrests.idle, hrests.loggedIn, hrests.stack⟩
      | _ => cases hpc.symm.trans ‹(s.conns i).pc = _›
  | @stores n hx hcounts hrests haccess hwithin =>
      cases hmoves.approach (hs.wf i) hrests.idle haccess hwithin with
      | nearer pc hpc hc' =>
          have hwrites : effect.writes ≠ some (t, key) := fun hwrites => by
            have hnone := hmoves.set_done hwrites
            rw [hc'] at hnone
            cases hpc.symm.trans hnone
          subst hc'
          exact .stays hwrites (hcommit haccess) (.stores hx ⟨hcounts.received, hcounts.sent⟩
            ⟨hrests.idle, hrests.loggedIn, hrests.stack⟩ hpc (hnear hwithin))
      | notFound hnone => cases hnone.symm.trans hfound
      | @there u hpc hu =>
          obtain rfl : t = u := Option.some.inj (hfound.symm.trans hu)
          cases hmoves with
          | guardSet hat =>
              obtain ⟨ha, rfl⟩ := Pc.guardCall.inj (hpc.symm.trans hat)
              obtain ⟨rfl, rfl, rfl⟩ := Access.set.inj ha
              refine .sets (hcommit haccess) rfl rfl (.written hx
                ⟨hcounts.received, hcounts.sent⟩
                ⟨hrests.idle, hrests.loggedIn, hrests.stack⟩ rfl ?_)
              have htable : s'.server.tables t
                  = (s.server.tables t).set key (toString (v + n + 1)) := by
                rw [hst.server]
                exact Function.update_self ..
              rw [htable, Table.visible_set, if_pos rfl]
          | _ => cases hpc.symm.trans ‹(s.conns i).pc = _›
  | written hx hcounts hrests hpc hvisible =>
      cases hmoves with
      | guardCommit hat =>
          obtain rfl := Pc.guardCommit.inj (hpc.symm.trans hat)
          have htable : s'.server.tables t = (s.server.tables t).commitChanges := by
            rw [hst.server]
            exact Function.update_self ..
          refine .writes hx (htable ▸ Table.has_commitChanges hvisible) (.committed rfl
            ⟨hcounts.received, hcounts.sent⟩ ⟨hrests.idle, hrests.loggedIn, hrests.stack⟩ rfl)
      | _ => cases hpc.symm.trans ‹(s.conns i).pc = _›
  | committed hx hcounts hrests hpc =>
      cases hmoves with
      | guardUnlock hat hresp =>
          refine .stays nofun (by simp [hpc]) (.rests (j := 5) (n := 0) (by decide) hx rfl ?_ ?_)
          · exact ⟨hcounts.received, by simp [hcounts.sent]⟩
          · exact ⟨hrests.idle, hrests.loggedIn, hrests.stack⟩
      | _ => cases hpc.symm.trans ‹(s.conns i).pc = _›
  | ended hx hpc hreceived => exact absurd hpc hmoves.grows.2.1
  | gone hx hpc hsent => exact absurd hpc hmoves.grows.2.1

/-- The steps of others leave a run where it is. -/
theorem Updating.other {a : Turn} (h : Updating table key t v x s.server (s.conns i)) (hs : Inv s)
    (hst : Stepped p s a effect c' s') (hi : i ≠ a.conn) :
    Updating table key t v x s'.server (s'.conns i) := by
  have hsame := hst.other hi
  cases h with
  | rests hj hx hpc hcounts hrests =>
      rw [hsame]
      exact .rests hj hx hpc hcounts hrests
  | fetches hx hcounts hrests haccess hwithin =>
      have hwithin' := hst.within_other hs hi hwithin
      rw [hsame] at hwithin' ⊢
      exact .fetches hx hcounts hrests haccess hwithin'
  | fetched hx hcounts hrests hpc =>
      rw [hsame]
      exact .fetched hx hcounts hrests hpc
  | stores hx hcounts hrests haccess hwithin =>
      have hwithin' := hst.within_other hs hi hwithin
      rw [hsame] at hwithin' ⊢
      exact .stores hx hcounts hrests haccess hwithin'
  | written hx hcounts hrests hpc hvisible =>
      have hheld : t ∈ (s.conns i).view.held := by simp [Conn.view, hpc, TwoPhase.View.held]
      rw [hsame]
      refine .written hx hcounts hrests hpc ?_
      rw [hst.frame hs hi hheld]
      exact hvisible
  | committed hx hcounts hrests hpc =>
      rw [hsame]
      exact .committed hx hcounts hrests hpc
  | ended hx hpc hreceived =>
      rw [hsame]
      exact .ended hx hpc hreceived
  | gone hx hpc hsent =>
      rw [hsame]
      exact .gone hx hpc hsent

end Steps

/-! ### The register

The register is the committed value of the key, counted from the value it started with. A
value read is kept as the number of updates in it, through the stack and the SET.
-/

/-- The committed value of the key; nothing is pending there, unless a tool is about to commit. -/
structure State.Shows (tools : Finset ConnId) (key : Str) (t : TablePtr) (s : State) (value : Str) :
    Prop where
  committed : (s.server.tables t).keyValue.lookup key = some value
  pending : (s.server.tables t).keyValueTemp.lookup key ≠ none →
    ∃ i ∈ tools, (s.conns i).pc = .guardCommit t

/-- The runs at `tools` are the parties of this register. -/
structure Races (tools : Finset ConnId) (table key : Str) (t : TablePtr) (v : Int) (s : State)
    (r : Register ConnId) : Prop where
  inv : Inv s
  found : s.server.findTable table = some t
  updating : ∀ i ∈ tools, Updating table key t v (r.party i) s.server (s.conns i)
  shows : s.Shows tools key t (toString (v + r.value))

/-- A tool's connection reads the lines of its run, and nobody else writes the key. -/
def State.Updates (p : Platform) (tools : Finset ConnId) (lines : ConnId → List Str)
    (table key : Str) (s : State) (a : Turn) : Prop :=
  if a.conn ∈ tools then
    match a.choice with
    | .recv line => (s.conns a.conn).received ++ [line] <+: lines a.conn
    | _ => True
  else s.Leaves p table key a

instance (p : Platform) (tools : Finset ConnId) (lines : ConnId → List Str) (table key : Str)
    (s : State) (a : Turn) : Decidable (s.Updates p tools lines table key a) := by
  unfold State.Updates
  split
  · split <;> infer_instance
  · infer_instance

section Register

variable {p : Platform} {s s' : State} {a : Turn} {effect : Effect} {c' : Conn}
  {tools : Finset ConnId} {user : ConnId → Str} {lines : ConnId → List Str} {table key : Str}
  {t : TablePtr} {v : Int} {i : ConnId} {x : Party} {value : Str} {r : Register ConnId}

/-- Whoever has the table and is not about to commit finds nothing pending. -/
theorem State.Shows.has (h : s.Shows tools key t value) (hs : Inv s)
    (hheld : t ∈ (s.conns i).view.held) (hpc : (s.conns i).pc ≠ .guardCommit t) :
    (s.server.tables t).Has key value := by
  refine ⟨h.committed, ?_⟩
  by_contra hpending
  obtain ⟨j, -, hj⟩ := h.pending hpending
  have hheld' : t ∈ (s.conns j).view.held := by simp [Conn.view, hj, TwoPhase.View.held]
  obtain rfl : j = i := Option.some.inj ((hs.mutex.mpr hheld').symm.trans (hs.mutex.mpr hheld))
  exact hpc hj

/-- A step that does not write the key, and commits nothing there, leaves the register alone. -/
theorem State.Shows.kept (h : s.Shows tools key t value) (hs : Inv s)
    (hfound : s.server.findTable table = some t) (hst : Stepped p s a effect c' s')
    (hwrites : effect.writes ≠ some (t, key))
    (hpc : a.conn ∈ tools → (s.conns a.conn).pc ≠ .guardCommit t) : s'.Shows tools key t value := by
  by_cases hpending : (s.server.tables t).keyValueTemp.lookup key = none
  · have hleaves : s.Leaves p table key a := by
      intro u hu y hy
      obtain rfl : t = u := Option.some.inj (hfound.symm.trans hu)
      obtain rfl := Option.some.inj (hst.turn.symm.trans hy)
      exact hwrites
    obtain ⟨u, hu, hhas⟩ := hst.has hs ⟨t, hfound, h.committed, hpending⟩ hleaves
    obtain rfl : t = u := Option.some.inj ((hst.findTable hfound).symm.trans hu)
    exact ⟨hhas.committed, fun hne => absurd hhas.pending hne⟩
  · -- a tool is about to commit, so the table is its
    obtain ⟨j, hj, hat⟩ := h.pending hpending
    have hja : j ≠ a.conn := by
      rintro rfl
      exact hpc hj hat
    have hheld : t ∈ (s.conns j).view.held := by simp [Conn.view, hat, TwoPhase.View.held]
    refine ⟨?_, fun _ => ⟨j, hj, (hst.other hja).symm ▸ hat⟩⟩
    rw [hst.frame hs hja hheld]
    exact h.committed

/-- What a step at one connection comes to. -/
theorem Races.next (h : Races tools table key t v s r) (hst : Stepped p s a effect c' s')
    (hself : a.conn ∈ tools → Updating table key t v x s'.server c') {n : Nat}
    (hshows : s'.Shows tools key t (toString (v + n))) :
    Races tools table key t v s'
      { value := n, party := Function.update r.party a.conn x } where
  inv := hst.inv h.inv
  found := hst.findTable h.found
  updating j hj := by
    show Updating table key t v (Function.update r.party a.conn x j) _ _
    by_cases hja : j = a.conn
    · subst hja
      rw [Function.update_self, hst.self]
      exact hself hj
    · rw [Function.update_of_ne hja]
      exact (h.updating j hj).other h.inv hst hja
  shows := hshows

/-- **A step of the server is one of the register, or none.** -/
theorem Races.step (h : Races tools table key t v s r) (hbounded : Racing.Bounded tools r)
    (hlines : ∀ i ∈ tools, Asks (lines i) (autocommitted (user i) table key)) (hv : InInt v)
    (hroom : v + tools.card ≤ 2147483647) (hgiven : s.Updates p tools lines table key a)
    (hstep : s.step p a = some s') :
    ∃ r', (r' = r ∨ ∃ e, e.party ∈ tools ∧ Racing.step r e = some r') ∧
      Races tools table key t v s' r' := by
  obtain ⟨effect, c', hst⟩ := h.inv.stepped hstep
  have hsame : ({ value := r.value, party := Function.update r.party a.conn (r.party a.conn) }
      : Register ConnId) = r := by rw [Function.update_eq_self]
  by_cases ha : a.conn ∈ tools
  · have hnext : ∀ line, a.choice = .recv line →
        (s.conns a.conn).received ++ [line] <+: lines a.conn := fun line hch => by
      simpa [State.Updates, ha, hch] using hgiven
    have hvalue : ∀ x, (s.conns a.conn).pc = .guardCall x t →
        (s.server.tables t).Has key (toString (v + r.value)) := fun x hpc =>
      h.shows.has h.inv (i := a.conn) (by simp [Conn.view, hpc, TwoPhase.View.held]) (by simp [hpc])
    -- a party that has not written leaves room for its update
    have hparty : ∀ n, r.party a.conn = .read n → InInt (v + n) ∧ InInt (v + n + 1) := fun n hn => by
      have hread := hbounded.read hn
      have hless : (r.written tools).card < tools.card :=
        Finset.card_lt_card (Finset.filter_ssubset.mpr ⟨a.conn, ha, by simp [hn]⟩)
      unfold InInt at hv ⊢
      omega
    have hkept := fun hwrites hpc =>
      h.shows.kept h.inv h.found hst hwrites (fun _ => hpc)
    have hturn : Stepped p s ⟨a.conn, a.choice⟩ effect c' s' := hst
    cases (h.updating _ ha).moves h.inv hturn h.found (hlines _ ha) hnext hvalue hparty with
    | stays hwrites hpc hup =>
        exact ⟨r, .inl rfl, hsame ▸ h.next hst (fun _ => hup) (hkept hwrites hpc)⟩
    | quits hwrites hpc hx hup =>
        exact ⟨_, .inr ⟨.quit a.conn, ha, Racing.step_quit.mpr ⟨hx, rfl⟩⟩,
          h.next hst (fun _ => hup) (hkept hwrites hpc)⟩
    | reads hwrites hpc hx hup =>
        exact ⟨_, .inr ⟨.read a.conn, ha, Racing.step_read.mpr ⟨hx, rfl⟩⟩,
          h.next hst (fun _ => hup) (hkept hwrites hpc)⟩
    | @sets n hpc hset hpc' hup =>
        have hcalls : effect.call.table = some t := by rw [hset]; rfl
        have hheld := h.inv.called_held hst.turn hcalls (by simp [hset])
        have htable : s'.server.tables t
            = (s.server.tables t).set key (toString (v + n + 1)) := by
          rw [hst.server, hset]
          exact Function.update_self ..
        refine ⟨r, .inl rfl, hsame ▸ h.next hst (fun _ => hup) ⟨?_, fun _ => ⟨a.conn, ha, ?_⟩⟩⟩
        · rw [htable]
          exact (h.shows.has h.inv hheld hpc).committed
        · rw [hst.self]
          exact hpc'
    | @writes n hx hhas hup =>
        refine ⟨_, .inr ⟨.write a.conn, ha, Racing.step_write.mpr ⟨n, hx, rfl⟩⟩,
          h.next hst (fun _ => hup) ⟨?_, fun hne => absurd hhas.pending hne⟩⟩
        rw [hhas.committed, Nat.cast_succ, add_assoc]
  · have hleaves : s.Leaves p table key a := by simpa [State.Updates, ha] using hgiven
    have hwrites := hleaves t h.found _ hst.turn
    refine ⟨r, .inl rfl, hsame ▸ h.next hst (fun hmem => absurd hmem ha) ?_⟩
    exact h.shows.kept h.inv h.found hst hwrites fun hmem => absurd hmem ha

end Register

/-! ### Runs that do not overlap

It is enough that the GETs are read one run at a time: from there to the answer to its SET no
other run reads or writes the register.
-/

/-- A run between its GET and the answer to its SET. -/
def Conn.Underway (c : Conn) : Prop :=
  2 ≤ c.received.length ∧ c.sent.length < 5 ∧ c.pc ≠ .closed

instance (c : Conn) : Decidable c.Underway := by unfold Conn.Underway; infer_instance

/-- The GET of a run is read while no other run is under way. -/
def State.OneAtATime (tools : Finset ConnId) (s : State) (a : Turn) : Prop :=
  match a.choice with
  | .recv _ => a.conn ∈ tools → (s.conns a.conn).received.length = 1 →
      ∀ j ∈ tools, j ≠ a.conn → ¬ (s.conns j).Underway
  | _ => True

instance (tools : Finset ConnId) (s : State) (a : Turn) : Decidable (s.OneAtATime tools a) := by
  unfold State.OneAtATime
  split <;> infer_instance

def State.Single (tools : Finset ConnId) (s : State) : Prop :=
  ∀ i ∈ tools, ∀ j ∈ tools, (s.conns i).Underway → (s.conns j).Underway → i = j

section Single

variable {p : Platform} {s s' : State} {a : Turn} {effect : Effect} {c c' : Conn} {ch : Choice}
  {tools : Finset ConnId} {table key : Str} {t : TablePtr} {v : Int} {x : Party} {sv : Server}
  {i : ConnId} {j m n : Nat} {r : Register ConnId}

theorem partyAt_read (h : partyAt m j = .read n) : 2 ≤ j ∧ j < 5 := by
  unfold partyAt at h
  split at h
  · cases h
  · cases h
  · decide
  · decide
  · decide
  · cases h

/-- Who is between the read and the write of the register is under way. -/
theorem Updating.underway (h : Updating table key t v (.read n) sv c) : c.Underway := by
  unfold Conn.Underway
  cases h with
  | rests hj hx hpc hcounts =>
      have hbetween := partyAt_read hx.symm
      rw [hcounts.received, hcounts.sent, hpc]
      exact ⟨hbetween.1, hbetween.2, nofun⟩
  | fetches hx => cases hx
  | fetched hx hcounts hrests hpc =>
      rw [hcounts.received, hcounts.sent, hpc]
      exact ⟨by decide, by decide, nofun⟩
  | stores hx hcounts hrests haccess =>
      rw [hcounts.received, hcounts.sent]
      refine ⟨by decide, by decide, fun hpc => ?_⟩
      rw [hpc] at haccess
      cases haccess
  | written hx hcounts hrests hpc =>
      rw [hcounts.received, hcounts.sent, hpc]
      exact ⟨by decide, by decide, nofun⟩
  | committed hx => cases hx
  | ended hx => cases hx
  | gone hx => cases hx

/-- Who has written has asked for it, and who has been answered has written. -/
theorem Updating.wrote (h : Updating table key t v x sv c) :
    (x = .wrote → 5 ≤ c.received.length) ∧ (5 ≤ c.sent.length → x = .wrote) := by
  cases h with
  | @rests j n hj hx hpc hcounts hrests =>
      rw [hcounts.received, hcounts.sent, hx]
      refine ⟨fun hwrote => ?_, fun hsent => ?_⟩
      · by_contra hless
        exact partyAt_ne_wrote (Nat.lt_of_not_le hless) hwrote
      · obtain rfl : j = 5 := Nat.le_antisymm hj hsent
        rfl
  | fetches hx hcounts =>
      rw [hcounts.sent, hx]
      exact ⟨nofun, fun hanswered => absurd hanswered (by decide)⟩
  | fetched hx hcounts =>
      rw [hcounts.sent, hx]
      exact ⟨nofun, fun hanswered => absurd hanswered (by decide)⟩
  | stores hx hcounts =>
      rw [hcounts.received, hcounts.sent]
      exact ⟨fun _ => Nat.le_refl 5, fun hanswered => absurd hanswered (by decide)⟩
  | written hx hcounts =>
      rw [hcounts.received, hcounts.sent]
      exact ⟨fun _ => Nat.le_refl 5, fun hanswered => absurd hanswered (by decide)⟩
  | committed hx hcounts => exact ⟨fun _ => hcounts.received.symm ▸ Nat.le_refl 5, fun _ => hx⟩
  | ended hx hpc hreceived => exact ⟨fun _ => hreceived, fun _ => hx⟩
  | gone hx hpc hsent =>
      rw [hx]
      exact ⟨nofun, fun hanswered => absurd hsent (Nat.not_lt.mpr hanswered)⟩

/-- A run gets under way by its GET only. -/
theorem Moves.underway (h : Moves p sv c ch effect c') (hunder : c'.Underway) :
    c.Underway ∨ c.received.length = 1 ∧ ∃ line, ch = .recv line := by
  obtain ⟨hreceived', hsent', -⟩ := hunder
  obtain ⟨hsent, hopen, hreceived⟩ := h.grows
  have hless := Nat.lt_of_le_of_lt hsent.length_le hsent'
  rcases hreceived with hsame | ⟨line, hch, hmore⟩
  · exact .inl ⟨hsame ▸ hreceived', hless, hopen⟩
  · rw [hmore, List.length_append, List.length_singleton] at hreceived'
    rcases Nat.lt_or_ge c.received.length 2 with hfirst | hlater
    · exact .inr ⟨by omega, line, hch⟩
    · exact .inl ⟨hlater, hless, hopen⟩

theorem State.Single.step (h : s.Single tools) (hst : Stepped p s a effect c' s')
    (hone : s.OneAtATime tools a) : s'.Single tools := by
  -- one that gets under way finds nobody there
  have hmover : ∀ j ∈ tools, a.conn ∈ tools → j ≠ a.conn → (s'.conns a.conn).Underway →
      ¬ (s'.conns j).Underway := by
    intro j hj ha hja hunder hunder'
    rw [hst.self] at hunder
    rw [hst.other hja] at hunder'
    rcases hst.moves.underway hunder with hbefore | ⟨hfirst, line, hch⟩
    · exact hja (h j hj _ ha hunder' hbefore)
    · simp only [State.OneAtATime, hch] at hone
      exact hone ha hfirst j hj hja hunder'
  intro i hi j hj hiunder hjunder
  by_cases hia : i = a.conn
  · by_contra hij
    subst hia
    exact hmover j hj hi (Ne.symm hij) hiunder hjunder
  · by_cases hja : j = a.conn
    · subst hja
      exact absurd hiunder (hmover i hi hj hia hjunder)
    · rw [hst.other hia] at hiunder
      rw [hst.other hja] at hjunder
      exact h i hi j hj hiunder hjunder

/-- Where one run is under way at a time, the writes to the register are apart. -/
theorem Races.apart (h : Races tools table key t v s r) (hsingle : s.Single tools)
    {e : Racing.Event ConnId} {r' : Register ConnId} (he : e.party ∈ tools)
    (hstep : Racing.step r e = some r') : Racing.Apart tools r e := by
  cases e with
  | read i => trivial
  | quit i => trivial
  | write i =>
      obtain ⟨n, hread, -⟩ := Racing.step_write.mp hstep
      have hi := h.updating i he
      rw [hread] at hi
      intro j hj hji m hm
      have hj' := h.updating j hj
      rw [hm] at hj'
      exact hji (hsingle j hj i he hj'.underway hi.underway)

end Single

/-! ### What becomes of the updates -/

section Runs

variable {p : Platform} {s₀ s : State} {turns : List Turn} {tools : Finset ConnId}
  {user : ConnId → Str} {lines : ConnId → List Str} {table key : Str} {t : TablePtr} {v : Int}

theorem Boot.races (hboot : Boot s₀) (hfound : s₀.server.findTable table = some t)
    (hvalue : s₀.committed (t, key) = some (toString v)) :
    Races tools table key t v s₀ {} where
  inv := hboot.inv
  found := hfound
  updating i _ := by
    rw [hboot.conns]
    exact .rests (j := 0) (n := 0) (Nat.zero_le 5) rfl rfl ⟨rfl, rfl⟩ ⟨rfl, rfl, rfl⟩
  shows := by
    refine ⟨?_, fun hpending => absurd ?_ hpending⟩
    · rw [Nat.cast_zero, add_zero]
      exact hvalue
    · rw [hboot.pending]
      rfl

/-- What is known of the register at the end of a run. -/
theorem races_run {P : Prop} (hboot : Boot s₀) (hfound : s₀.server.findTable table = some t)
    (hlines : ∀ i ∈ tools, Asks (lines i) (autocommitted (user i) table key))
    (hvalue : s₀.committed (t, key) = some (toString v)) (hv : InInt v)
    (hroom : v + tools.card ≤ 2147483647)
    (halong : Transition.Along (State.step p)
      (fun s a => s.Updates p tools lines table key a ∧ (P → s.OneAtATime tools a)) s₀ turns)
    (hrun : Transition.run (State.step p) s₀ turns = some s) :
    ∃ r, Races tools table key t v s r ∧ Racing.Bounded tools r ∧
      (P → Racing.Exact tools r ∧ s.Single tools) := by
  refine Transition.along_invariant (I := fun s => ∃ r, Races tools table key t v s r ∧
    Racing.Bounded tools r ∧ (P → Racing.Exact tools r ∧ s.Single tools)) ?_ ?_ halong hrun
  · rintro s a s' ⟨r, hraces, hbounded, hexact⟩ ⟨hgiven, hone⟩ hstep
    obtain ⟨effect, c', hst⟩ := hraces.inv.stepped hstep
    have hsingle := fun hP => (hexact hP).2.step hst (hone hP)
    obtain ⟨r', rfl | ⟨e, he, hr'⟩, hraces'⟩ :=
      hraces.step hbounded hlines hv hroom hgiven hstep
    · exact ⟨r', hraces', hbounded, fun hP => ⟨(hexact hP).1, hsingle hP⟩⟩
    · refine ⟨r', hraces', hbounded.step he hr', fun hP => ⟨?_, hsingle hP⟩⟩
      obtain ⟨hexact, hbefore⟩ := hexact hP
      exact hexact.step he (hraces.apart hbefore he hr') hr'
  · refine ⟨{}, hboot.races hfound hvalue, Racing.bounded_start, fun _ => ⟨Racing.exact_start, ?_⟩⟩
    intro i _ j _ hunder
    rw [hboot.conns] at hunder
    exact absurd hunder (by decide)

/--
**Without `-t` updates are lost, but never all of them, and none is made twice.**  However the runs
of `incr_value` interleave with one another and with connections that do not write the key, the
committed value is at every moment the first one and at most one more for each run that has sent its
SET, and at least one more once a SET has been answered.  No update that has been answered is lost
if the runs do not overlap.
-/
theorem updates_race (hboot : Boot s₀) (hfound : s₀.server.findTable table = some t)
    (hlines : ∀ i ∈ tools, Asks (lines i) (autocommitted (user i) table key))
    (hvalue : s₀.committed (t, key) = some (toString v)) (hv : InInt v)
    (hroom : v + tools.card ≤ 2147483647)
    (halong : Transition.Along (State.step p)
      (fun s a => s.Updates p tools lines table key a) s₀ turns)
    (hrun : Transition.run (State.step p) s₀ turns = some s) :
    ∃ n : Nat, s.committed (t, key) = some (toString (v + n)) ∧
      n ≤ (tools.filter fun i => 5 ≤ (s.conns i).received.length).card ∧
      (∀ i ∈ tools, 5 ≤ (s.conns i).sent.length → 1 ≤ n) ∧
      (Transition.Along (State.step p) (State.OneAtATime tools) s₀ turns →
        (tools.filter fun i => 5 ≤ (s.conns i).sent.length).card ≤ n) := by
  have hgiven : Transition.Along (State.step p) (fun s a =>
      s.Updates p tools lines table key a ∧
        (Transition.Along (State.step p) (State.OneAtATime tools) s₀ turns →
          s.OneAtATime tools a)) s₀ turns := by
    by_cases hone : Transition.Along (State.step p) (State.OneAtATime tools) s₀ turns
    · exact (halong.and hone).mono fun _ _ h => ⟨h.1, fun _ => h.2⟩
    · exact halong.mono fun _ _ h => ⟨h, fun hyes => absurd hyes hone⟩
  obtain ⟨r, hraces, hbounded, hexact⟩ :=
    races_run hboot hfound hlines hvalue hv hroom hgiven hrun
  have hanswered : (tools.filter fun i => 5 ≤ (s.conns i).sent.length) ⊆ r.written tools := by
    intro i hi
    obtain ⟨hmem, hsent⟩ := Finset.mem_filter.mp hi
    exact Finset.mem_filter.mpr ⟨hmem, (hraces.updating i hmem).wrote.2 hsent⟩
  refine ⟨r.value, hraces.shows.committed, hbounded.value.trans (Finset.card_le_card ?_), ?_, ?_⟩
  · intro i hi
    obtain ⟨hmem, hwrote⟩ := Finset.mem_filter.mp hi
    exact Finset.mem_filter.mpr ⟨hmem, (hraces.updating i hmem).wrote.1 hwrote⟩
  · intro i hi hsent
    exact hbounded.first ⟨i, hanswered (Finset.mem_filter.mpr ⟨hi, hsent⟩)⟩
  · intro hone
    rw [(hexact hone).1.value]
    exact Finset.card_le_card hanswered

end Runs

/-- The lines of an `incr_value` for the user `a`. -/
def updateLines : List Str :=
  [bytes "LOGIN a\n", bytes "GET t k\n", bytes "PUSH 1\n", bytes "ADD\n", bytes "SET t k\n",
    bytes "BYE\n"]

def fetchTurns (i : ConnId) : List Turn :=
  [⟨i, .recv (bytes "LOGIN a\n")⟩, ⟨i, .recv (bytes "GET t k\n")⟩] ++ List.replicate 6 ⟨i, .go⟩

def storeTurns (i : ConnId) : List Turn :=
  [⟨i, .recv (bytes "PUSH 1\n")⟩, ⟨i, .recv (bytes "ADD\n")⟩, ⟨i, .recv (bytes "SET t k\n")⟩] ++
    List.replicate 7 ⟨i, .go⟩

/-- Both run on the value 5: one update is lost where both read first, and none where the second
comes after the first. -/
theorem updates_race_lost :
    (∃ s, Transition.run (State.step trapping) oneTable
        (fetchTurns 0 ++ fetchTurns 1 ++ storeTurns 0 ++ storeTurns 1) = some s ∧
      s.committed (0, bytes "k") = some (bytes "6")) ∧
    ∃ s, Transition.run (State.step trapping) oneTable
        (fetchTurns 0 ++ storeTurns 0 ++ fetchTurns 1 ++ storeTurns 1) = some s ∧
      s.committed (0, bytes "k") = some (bytes "7") := by
  have hlost : (Transition.run (State.step trapping) oneTable
      (fetchTurns 0 ++ fetchTurns 1 ++ storeTurns 0 ++ storeTurns 1)).map
        (fun s => s.committed (0, bytes "k")) = some (some (bytes "6")) := by decide +kernel
  have hordered : (Transition.run (State.step trapping) oneTable
      (fetchTurns 0 ++ storeTurns 0 ++ fetchTurns 1 ++ storeTurns 1)).map (fun s =>
        ((({0, 1} : Finset ConnId).filter fun i => 5 ≤ (s.conns i).received.length).card,
          (({0, 1} : Finset ConnId).filter fun i => 5 ≤ (s.conns i).sent.length).card))
      = some (2, 2) := by decide +kernel
  have hlines : ∀ i ∈ ({0, 1} : Finset ConnId),
      Asks updateLines (autocommitted (bytes "a") (bytes "t") (bytes "k")) := fun _ _ => by
    unfold Asks
    decide +kernel
  have halong : Transition.Along (State.step trapping) (fun s a =>
      s.Updates trapping {0, 1} (fun _ => updateLines) (bytes "t") (bytes "k") a) oneTable
      (fetchTurns 0 ++ storeTurns 0 ++ fetchTurns 1 ++ storeTurns 1) := by decide +kernel
  obtain ⟨s, hrun, hs⟩ := Option.map_eq_some_iff.mp hordered
  obtain ⟨hasked, hanswered⟩ := Prod.mk.inj hs
  obtain ⟨n, hvalue, hmost, -, hleast⟩ := updates_race (t := 0) (v := 5) boot_oneTable (by decide)
    hlines (by decide) (by decide) (by decide) halong hrun
  have hleast := hleast (by decide +kernel)
  obtain rfl : n = 2 := by omega
  exact ⟨Option.map_eq_some_iff.mp hlost, s, hrun, hvalue⟩

end KvServer
