/-
What the requests of `set_value` and `get_value` come to.

A key that `Has` its value keeps it through every turn that does not write the key.  For
the SET of `set_value` the connection goes to its table under the guard, writes, commits and
is done, and from the commit on the key has the value; for the GET of `get_value` it goes the
same way and finds the value there.  `setPlan` and `getPlan` are lawful plans in the sense of
`Proofs/Dialogue`.
-/
import KvServer.Proofs.Counter
import KvServer.Proofs.Dialogue
import KvServer.Proofs.Scope
import KvServer.Proofs.Values

namespace KvServer

/-! ### A committed value

A value that is committed with nothing pending over it is found by everybody, and only a SET
of its key can change that.
-/

/-- The value of the key is committed, and nothing is pending for it. -/
structure Table.Has (t : Table) (key value : Str) : Prop where
  committed : t.keyValue.lookup key = some value
  pending : t.keyValueTemp.lookup key = none

def Server.Has (sv : Server) (table key value : Str) : Prop :=
  ∃ t, sv.findTable table = some t ∧ (sv.tables t).Has key value

namespace Table

variable {t : Table} {key value other v : Str}

theorem has_commitChanges (h : t.visible key = some value) : t.commitChanges.Has key value :=
  ⟨(commitChanges_lookup t key).trans h, rfl⟩

namespace Has

theorem visible (h : t.Has key value) : t.visible key = some value := by
  rw [Table.visible, h.pending]
  exact h.committed

theorem set (h : t.Has key value) (hne : key ≠ other) : (t.set other v).Has key value :=
  ⟨h.committed, (AList.lookup_insert_ne hne).trans h.pending⟩

theorem rollbackChanges (h : t.Has key value) : t.rollbackChanges.Has key value :=
  ⟨h.committed, rfl⟩

end Has

end Table

/-- The turn does not write the key. -/
def State.Leaves (p : Platform) (table key : Str) (s : State) (a : Turn) : Prop :=
  ∀ t ∈ s.server.findTable table, ∀ x ∈ s.turn p a, x.1.writes ≠ some (t, key)

instance (p : Platform) (table key : Str) (s : State) (a : Turn) :
    Decidable (s.Leaves p table key a) := by
  unfold State.Leaves
  infer_instance

section Keeping

variable {p : Platform} {s s' : State} {a : Turn} {effect : Effect} {c' : Conn}
  {table key value : Str}

/-- **A key that has its value keeps it**, if it is not written. -/
theorem Stepped.has (hst : Stepped p s a effect c' s') (h : Inv s)
    (hhas : s.server.Has table key value) (hleaves : s.Leaves p table key a) :
    s'.server.Has table key value := by
  obtain ⟨t, hfound, ht⟩ := hhas
  have hwrites : effect.writes ≠ some (t, key) := hleaves t hfound _ hst.turn
  refine ⟨t, hst.findTable hfound, ?_⟩
  by_cases hcall : effect.call.table = some t
  · have hmodify : ∀ f : Table → Table, (f (s.server.tables t)).Has key value →
        ((s.server.modifyTable t f).tables t).Has key value := fun f hf => by
      have hself : (s.server.modifyTable t f).tables t = f (s.server.tables t) :=
        Function.update_self ..
      rwa [hself]
    rw [hst.server]
    cases effect with
    | lock u =>
        obtain rfl := Option.some.inj hcall
        exact hmodify (fun table => { table with tableMutex := some a.conn }) ⟨ht.committed, ht.pending⟩
    | unlock u =>
        obtain rfl := Option.some.inj hcall
        exact hmodify (fun table => { table with tableMutex := none }) ⟨ht.committed, ht.pending⟩
    | get u other => exact ht
    | set u other v =>
        obtain rfl := Option.some.inj hcall
        exact hmodify (Table.set · other v) (ht.set fun hsame => hwrites (hsame ▸ rfl))
    | commitChanges u =>
        obtain rfl := Option.some.inj hcall
        exact hmodify _ (Table.has_commitChanges ht.visible)
    | rollbackChanges u =>
        obtain rfl := Option.some.inj hcall
        exact hmodify _ ht.rollbackChanges
    | _ => cases hcall
  · rw [hst.server, apply_table_ne hcall fun _ _ => Nat.ne_of_lt (h.found _ _ hfound)]
    exact ht

/-- Who writes a key is at a SET of it. -/
theorem Moves.writes {sv : Server} {c : Conn} {ch : Choice} (h : Moves p sv c ch effect c')
    {t : TablePtr} (hwrites : effect.writes = some (t, key)) :
    ∃ table value, c.pc.access = some (.set table key value) := by
  cases effect with
  | set u other v =>
      obtain ⟨rfl, rfl⟩ := Prod.mk.inj (Option.some.inj hwrites)
      obtain ⟨table, hset⟩ := h.sets rfl
      exact ⟨table, v, hset⟩
  | _ => cases hwrites

/-! ### The way to a table outside a transaction

The same for GET and SET up to the call, which is why it is a definition of its own.
-/

/-- A GET or SET outside a transaction: it comes to its table under the guard, and if there
is no such table the answer is FAILED. -/
inductive Approach (sv : Server) (a : Access) (c c' : Conn) : Prop
  | nearer (pc : Pc) (haccess : pc.access = some a) (hc' : c' = { c with pc := pc })
  | notFound (hfound : sv.findTable a.table = none) {resp : Str} (hneg : Negative resp)
      (hsent : c'.sent = c.sent ++ [resp])
  | there {t : TablePtr} (hpc : c.pc = .guardCall a t) (hfound : sv.findTable a.table = some t)

theorem Moves.approach {sv : Server} {c : Conn} {ch : Choice} {x : Access}
    (h : Moves p sv c ch effect c') (hwf : c.WF) (hidle : c.inTransaction = false)
    (hx : c.pc.access = some x) (hwithin : c.pc.Within Set.univ sv) : Approach sv x c c' := by
  have hpoint := hwf.point
  unfold Conn.PointOk at hpoint
  cases h with
  | findLock hpc hfree =>
      rw [hpc] at hx
      exact .nearer (.findBody _) hx rfl
  | findBody hpc =>
      rw [hpc] at hx
      exact .nearer (.findUnlock _ _) hx rfl
  | notFound hpc hresp =>
      rw [hpc] at hx hwithin
      obtain rfl := Option.some.inj hx
      exact .notFound hwithin.2 hresp.negative rfl
  | foundNew hpc htx ht => cases hidle.symm.trans htx
  | foundLocked hpc htx ht => cases hidle.symm.trans htx
  | foundAuto hpc htx =>
      rw [hpc] at hx
      exact .nearer (.guardLock _ _) hx rfl
  | trylock hpc hfree =>
      rw [hpc] at hpoint
      cases hidle.symm.trans hpoint.1
  | conflict hpc hheld =>
      rw [hpc] at hpoint
      cases hidle.symm.trans hpoint.1
  | callGet hpc hget =>
      rw [hpc] at hpoint
      cases hidle.symm.trans hpoint.1
  | callGetFail hpc hget hresp =>
      rw [hpc] at hpoint
      cases hidle.symm.trans hpoint.1
  | callSet hpc =>
      rw [hpc] at hpoint
      cases hidle.symm.trans hpoint.1
  | guardLock hpc hfree =>
      rw [hpc] at hx
      exact .nearer (.guardCall _ _) hx rfl
  | guardGet hpc hget =>
      rw [hpc] at hx hwithin
      obtain rfl := Option.some.inj hx
      exact .there hpc hwithin.2
  | guardGetFail hpc hwhat hget =>
      rw [hpc] at hx hwithin
      obtain rfl := Option.some.inj hx
      exact .there hpc hwithin.2
  | guardSet hpc =>
      rw [hpc] at hx hwithin
      obtain rfl := Option.some.inj hx
      exact .there hpc hwithin.2
  | _ =>
      rw [‹c.pc = _›] at hx
      cases hx

end Keeping

/-! ### A request comes in

Whether a request is handled is a matter of its line: it is if it fits, and `decode` refuses
it otherwise.
-/

section Requests

variable {p : Platform} {s s' : State} {i : ConnId} {c' : Conn} {req : Message} {line got : Str}

/-- **A request is handled if it is sent**, and refused if it is not. -/
theorem request_arrives (hst : Stepped p s ⟨i, .recv got⟩ .none c' s')
    (hpc : (s.conns i).pc = .reading) (hreq : req.messageType.isRequest = true)
    (hvalid : req.isValid = true) (hline : encode req = .ok line)
    (hgot : got = (readLoop (maxEncodedLen - 1) line).1) :
    (Sent req ∧ got = line ∧ s'.conns i
        = Conn.attempt { s.conns i with received := (s.conns i).received ++ [got] }
          (handleRequest p req)) ∨
      ¬ Sent req ∧ ∃ resp, Negative resp ∧ (s'.conns i).sent = (s.conns i).sent ++ [resp] := by
  have hconn : s'.conns i = (s.conns i).chatWithClient p got := by
    rcases reading_step hpc hst.runs with ⟨line, hrecv, -, hc'⟩ | hrecv
    · obtain rfl := Choice.recv.inj hrecv
      exact hst.self.trans hc'
    · cases hrecv
  by_cases hsent : Sent req
  · obtain ⟨hwhole, hm⟩ := hsent.read hreq hvalid hline hgot
    exact .inl ⟨hsent, hwhole, hconn.trans (chatWithClient_ok p hm)⟩
  · obtain ⟨e, he⟩ := decode_of_not_sent hsent hreq hvalid hline hgot
    obtain ⟨resp, hneg, -, hresp, -⟩ := refused_malformed (p := p) (c := s.conns i) he
    exact .inr ⟨hsent, resp, hneg, hconn ▸ hresp⟩

/-- Outside a transaction, between two requests or in one of them. -/
structure Conn.Rests (c : Conn) (loggedIn : Bool) (stack : List Str) : Prop where
  idle : c.inTransaction = false
  loggedIn : c.loggedIn = loggedIn
  stack : c.stack.vector = stack

theorem Conn.Rests.received {c : Conn} {loggedIn : Bool} {stack : List Str}
    (h : c.Rests loggedIn stack) (lines : List Str) :
    Conn.Rests { c with received := lines } loggedIn stack :=
  ⟨h.idle, h.loggedIn, h.stack⟩

theorem receives_ok {resp : Str} (hresp : encode { messageType := .ok } = .ok resp) (buf : Str) :
    Receives resp [] buf { messageType := .ok } := by
  obtain rfl := Except.ok.inj (encode_ok.symm.trans hresp)
  exact receives_of_encode (m := { messageType := .ok }) rfl (by simp) encode_ok (by decide) [] buf

end Requests

/-! ### `set_value` -/

section SetValue

variable {p : Platform} {user table key value : Str} {i : ConnId} {s s' : State} {a : Turn}
  {effect : Effect} {c' : Conn}

theorem setValue_valid (huser : Identifier user) (htable : Identifier table)
    (hkey : Identifier key) (hvalue : Value value) :
    ∀ x ∈ setValueExchanges user table key value,
      x.request.messageType.isRequest = true ∧ x.request.isValid = true := by
  simp only [setValueExchanges, List.forall_mem_cons, List.not_mem_nil, false_implies, implies_true,
    and_true]
  exact ⟨⟨rfl, isValid_iff.mpr (.login huser)⟩, ⟨rfl, isValid_iff.mpr (.push hvalue)⟩,
    rfl, isValid_iff.mpr (.set htable hkey)⟩

/-- The SET being handled. -/
inductive Storing (table key value : Str) (sv : Server) (c : Conn) : Prop
  | approach (haccess : c.pc.access = some (.set table key value))
      (hwithin : c.pc.Within Set.univ sv)
  | written {t : TablePtr} (hpc : c.pc = .guardCommit t) (hfound : sv.findTable table = some t)
      (hvisible : (sv.tables t).visible key = some value)
  | committed {t : TablePtr} (hpc : c.pc = .guardUnlock t (.ok ())) (hhas : sv.Has table key value)

/-- The requests of `set_value` so far have been sent. -/
def SentUpTo (xs : List Exchange) (n : Nat) : Prop :=
  ∀ x ∈ xs.take n, Sent x.request

theorem SentUpTo.next {xs : List Exchange} {n : Nat} {x : Exchange} (h : SentUpTo xs n)
    (hx : xs[n]? = some x) (hsent : Sent x.request) : SentUpTo xs (n + 1) := by
  intro y hy
  rw [List.take_add_one, hx, Option.toList_some, List.mem_append, List.mem_singleton] at hy
  rcases hy with hy | rfl
  · exact h y hy
  · exact hsent

def setPlan (user table key value : Str) (i : ConnId) : Plan where
  exchanges := setValueExchanges user table key value
  response _ := { messageType := .ok }
  ready n s := (s.conns i).Rests (decide (0 < n)) (if n = 2 then [value] else []) ∧
    SentUpTo (setValueExchanges user table key value) n ∧ (n = 3 → s.server.Has table key value)
  busy n s := n = 2 ∧ (s.conns i).Rests true [] ∧
    SentUpTo (setValueExchanges user table key value) 3 ∧
    Storing table key value s.server (s.conns i)
  final sv := SentUpTo (setValueExchanges user table key value) 3 ∧ sv.Has table key value
  fails := True

theorem Stepped.leaves (hst : Stepped p s a effect c' s') (h : ∀ t, effect.writes ≠ some (t, key)) :
    s.Leaves p table key a := by
  intro t _ x hx
  obtain rfl := Option.some.inj (hst.turn.symm.trans hx)
  exact h t

/-- A request of `set_value` is answered, or on its way to its table. -/
theorem setPlan_line {n : Nat} {x : Exchange} {line got : Str} (huser : Identifier user)
    (htable : Identifier table) (hkey : Identifier key) (hvalue : Value value)
    (hready : (setPlan user table key value i).ready n s) (hpc : (s.conns i).pc = .reading)
    (hx : (setValueExchanges user table key value)[n]? = some x)
    (hline : encode x.request = .ok line) (hgot : got = (readLoop (maxEncodedLen - 1) line).1)
    (hst : Stepped p s ⟨i, .recv got⟩ .none c' s') :
    got = line ∧ (setPlan user table key value i).Next i n s s' ∨
      (setPlan user table key value i).Refuses i s s' := by
  obtain ⟨hrests, hupTo, -⟩ := hready
  obtain ⟨hreq, hvalid⟩ := setValue_valid huser htable hkey hvalue x (List.mem_of_getElem? hx)
  rcases request_arrives hst hpc hreq hvalid hline hgot with ⟨hsent, hwhole, hconn⟩ | ⟨-, href⟩
  · refine .inl ⟨hwhole, ?_⟩
    have hupTo' := hupTo.next hx hsent
    have hrests := hrests.received ((s.conns i).received ++ [got])
    rcases n with _ | _ | _ | n
    · obtain rfl := Option.some.inj hx
      rw [attempt_login rfl hrests.loggedIn] at hconn
      refine .answered encode_ok (by rw [hconn]) ⟨?_, hupTo', nofun⟩ (by rw [hconn])
      exact hconn ▸ ⟨hrests.idle, rfl, hrests.stack⟩
    · obtain rfl := Option.some.inj hx
      rw [attempt_push hrests.loggedIn] at hconn
      refine .answered encode_ok (by rw [hconn]) ⟨?_, hupTo', nofun⟩ (by rw [hconn])
      exact hconn ▸ ⟨hrests.idle, hrests.loggedIn, congrArg (value :: ·) hrests.stack⟩
    · obtain rfl := Option.some.inj hx
      rw [attempt_set hrests.loggedIn hrests.stack] at hconn
      refine .busy ⟨rfl, ?_, hupTo', ?_⟩ (by rw [hconn])
      · exact hconn ▸ ⟨hrests.idle, hrests.loggedIn, rfl⟩
      · exact hconn ▸ .approach rfl (Set.mem_univ _)
    · cases hx
  · exact .inr ⟨trivial, href⟩

/-- **The SET goes to its table, writes, commits, and is answered.** -/
theorem setPlan_go {n : Nat} {ch : Choice} (hs : Inv s)
    (hbusy : (setPlan user table key value i).busy n s) (hst : Stepped p s ⟨i, ch⟩ effect c' s') :
    (setPlan user table key value i).Next i n s s' := by
  obtain ⟨rfl, hrests, hupTo, hstoring⟩ := hbusy
  have hself : s'.conns i = c' := hst.self
  have hmoves : Moves p s.server (s.conns i) ch effect c' := hst.moves
  cases hstoring with
  | approach haccess hwithin =>
      have hnear : c'.pc.Within Set.univ s'.server := by
        rw [hst.server]
        refine hmoves.within hwithin fun line _ m _ => ?_
        exact ⟨fun _ => ⟨[], Set.mem_univ _⟩, fun _ => Set.mem_univ _⟩
      cases hmoves.approach (hs.wf i) hrests.idle haccess hwithin with
      | nearer pc hpc hc' =>
          rw [← hself] at hnear hc'
          refine .busy ⟨rfl, ?_, hupTo, .approach (by rw [hc']; exact hpc) hnear⟩ (by rw [hc'])
          exact hc' ▸ ⟨hrests.idle, hrests.loggedIn, hrests.stack⟩
      | notFound hfound hneg hsent => exact .refused ⟨trivial, _, hneg, hself ▸ hsent⟩
      | @there t hpc hfound =>
          cases hmoves with
          | guardSet hat =>
              obtain ⟨hx, rfl⟩ := Pc.guardCall.inj (hpc.symm.trans hat)
              obtain ⟨rfl, rfl, rfl⟩ := Access.set.inj hx
              refine .busy ⟨rfl, ?_, hupTo, .written (by rw [hself]) (hst.findTable hfound) ?_⟩
                (by rw [hself])
              · exact hself ▸ ⟨hrests.idle, hrests.loggedIn, hrests.stack⟩
              · have htable : s'.server.tables t = (s.server.tables t).set key value := by
                  rw [hst.server]
                  exact Function.update_self ..
                rw [htable, Table.visible_set, if_pos rfl]
          | _ => cases hpc.symm.trans ‹(s.conns i).pc = _›
  | @written t hpc hfound hvisible =>
      cases hmoves with
      | guardCommit hat =>
          obtain rfl := Pc.guardCommit.inj (hpc.symm.trans hat)
          have htable : s'.server.tables t = (s.server.tables t).commitChanges := by
            rw [hst.server]
            exact Function.update_self ..
          refine .busy ⟨rfl, ?_, hupTo, .committed (by rw [hself]) ⟨t, hst.findTable hfound, ?_⟩⟩
            (by rw [hself])
          · exact hself ▸ ⟨hrests.idle, hrests.loggedIn, hrests.stack⟩
          · rw [htable]
            exact Table.has_commitChanges hvisible
      | _ => cases hpc.symm.trans ‹(s.conns i).pc = _›
  | @committed t hpc hhas =>
      cases hmoves with
      | guardUnlock hat hresp =>
          obtain ⟨rfl, rfl⟩ := Pc.guardUnlock.inj (hpc.symm.trans hat)
          cases hresp with
          | ok =>
              refine .answered encode_ok (by rw [hself]) ⟨?_, hupTo, fun _ => ?_⟩ (by rw [hself])
              · exact hself ▸ ⟨hrests.idle, hrests.loggedIn, hrests.stack⟩
              · exact hst.has hs hhas (hst.leaves fun _ => nofun)
      | _ => cases hpc.symm.trans ‹(s.conns i).pc = _›

/-- What others do leaves it alone, if they do not write the key. -/
theorem Storing.other (h : Storing table key value s.server (s.conns i)) (hs : Inv s)
    (hst : Stepped p s a effect c' s') (hi : i ≠ a.conn) (hleaves : s.Leaves p table key a) :
    Storing table key value s'.server (s'.conns i) := by
  have hsame := hst.other hi
  cases h with
  | approach haccess hwithin => exact .approach (hsame ▸ haccess) (hst.within_other hs hi hwithin)
  | @written t hpc hfound hvisible =>
      have hheld : t ∈ (s.conns i).view.held := by simp [Conn.view, hpc, TwoPhase.View.held]
      refine .written (hsame ▸ hpc) (hst.findTable hfound) ?_
      rw [hst.frame hs hi hheld]
      exact hvisible
  | committed hpc hhas => exact .committed (hsame ▸ hpc) (hst.has hs hhas hleaves)

/-- **The plan of `set_value` is lawful**, where nobody else writes the key. -/
theorem setPlan_lawful (huser : Identifier user) (htable : Identifier table)
    (hkey : Identifier key) (hvalue : Value value) :
    (setPlan user table key value i).Lawful p i (State.Leaves p table key) where
  sends _ _ := .inl trivial
  line _ hready hpc hx hline hgot hst :=
    setPlan_line huser htable hkey hvalue hready hpc hx hline hgot hst
  go hs hbusy hst := setPlan_go hs hbusy hst
  other hs hst hi hleaves := by
    have hsame := hst.other hi
    refine ⟨fun n hready => ?_, fun n hbusy => ?_, fun hfinal => ?_⟩
    · obtain ⟨hrests, hupTo, hhas⟩ := hready
      exact ⟨hsame ▸ hrests, hupTo, fun hn => hst.has hs (hhas hn) hleaves⟩
    · obtain ⟨hn, hrests, hupTo, hstoring⟩ := hbusy
      exact ⟨hn, hsame ▸ hrests, hupTo, hstoring.other hs hst hi hleaves⟩
    · exact ⟨hfinal.1, hst.has hs hfinal.2 hleaves⟩
  idle hready := hready.1.idle
  handling hbusy := by
    obtain ⟨-, -, -, hstoring⟩ := hbusy
    cases hstoring with
    | approach haccess hwithin =>
        refine ⟨fun hpc => ?_, fun hpc => ?_, fun hpc => ?_⟩ <;>
          (rw [hpc] at haccess; cases haccess)
    | written hpc => simp [hpc]
    | committed hpc => simp [hpc]
  ended hready := ⟨hready.2.1, hready.2.2 rfl⟩
  awaits _ := by simp [setPlan, setValueExchanges]
  response hx hresp := by
    have hreply : ∀ x ∈ setValueExchanges user table key value, x.reply = .ok := by
      simp [setValueExchanges]
    exact ⟨(hreply _ (List.mem_of_getElem? hx)).symm, receives_ok hresp⟩

end SetValue

/-! ### `get_value` -/

section GetValue

variable {p : Platform} {user table key value : Str} {i : ConnId} {s s' : State} {a : Turn}
  {effect : Effect} {c' : Conn}

theorem getValue_valid (huser : Identifier user) (htable : Identifier table)
    (hkey : Identifier key) :
    ∀ x ∈ getValueExchanges user table key,
      x.request.messageType.isRequest = true ∧ x.request.isValid = true := by
  simp only [getValueExchanges, List.forall_mem_cons, List.not_mem_nil, false_implies, implies_true,
    and_true]
  exact ⟨⟨rfl, isValid_iff.mpr (.login huser)⟩, ⟨rfl, isValid_iff.mpr (.get htable hkey)⟩,
    rfl, by decide⟩

/-- **Where the requests of `set_value` could be sent, those of `get_value` can.** -/
theorem getValue_sent (h : SentUpTo (setValueExchanges user table key value) 3) :
    ∀ x ∈ getValueExchanges user table key, Sent x.request := by
  simp only [SentUpTo, setValueExchanges, List.take_succ_cons, List.take_zero,
    List.forall_mem_cons] at h
  obtain ⟨hlogin, -, hset, -⟩ := h
  simp only [getValueExchanges, List.forall_mem_cons, List.not_mem_nil, false_implies, implies_true,
    and_true]
  refine ⟨hlogin, ⟨?_, hset.noNul⟩, ⟨bytes "TOP\n", by decide, by decide⟩, by simp⟩
  -- GET is as long as SET
  obtain ⟨line, hline, hlen⟩ := hset.encodes
  obtain ⟨word, hword, rfl, -⟩ := encode_eq_ok.mp hline
  obtain rfl : bytes "SET" = word := Except.ok.inj hword
  have hsame : (bytes "GET" ++ joined [table, key] ++ [newline]).length
      = (bytes "SET" ++ joined [table, key] ++ [newline]).length := by
    simp only [List.length_append]
    rfl
  have hfits : (bytes "GET" ++ joined [table, key] ++ [newline]).length ≤ maxEncodedLen - 1 :=
    hsame ▸ hlen
  exact ⟨_, encode_eq_ok.mpr ⟨_, rfl, rfl, Nat.le_trans hfits (Nat.sub_le _ _)⟩, hfits⟩

/-- **A value that could be pushed can be sent back.** -/
theorem storable_of_sent (h : SentUpTo (setValueExchanges user table key value) 3)
    (hvalue : Value value) : Storable value := by
  simp only [SentUpTo, setValueExchanges, List.take_succ_cons, List.take_zero,
    List.forall_mem_cons] at h
  obtain ⟨-, hpush, -, -⟩ := h
  refine ⟨hvalue, hpush.noNul value (List.mem_singleton_self _), ?_⟩
  obtain ⟨line, hline, hlen⟩ := hpush.encodes
  obtain ⟨word, hword, rfl, -⟩ := encode_eq_ok.mp hline
  obtain rfl : bytes "PUSH" = word := Except.ok.inj hword
  have hword : (bytes "PUSH").length = 4 := by decide
  simp only [joined, List.map_cons, List.map_nil, List.flatten_cons, List.flatten_nil,
    List.length_append, List.length_cons, List.length_nil, hword] at hlen
  omega

/-- The GET being handled. -/
inductive Fetching (table key value : Str) (sv : Server) (c : Conn) : Prop
  | approach (hrests : c.Rests true []) (haccess : c.pc.access = some (.get table key))
      (hwithin : c.pc.Within Set.univ sv)
  | fetched {t : TablePtr} (hrests : c.Rests true [value]) (hpc : c.pc = .guardUnlock t (.ok ()))

def getPlan (user table key value : Str) (i : ConnId) : Plan where
  exchanges := getValueExchanges user table key
  response n := if n = 2 then { messageType := .data, args := [value] } else { messageType := .ok }
  ready n s := (s.conns i).Rests (decide (0 < n)) (if 2 ≤ n then [value] else []) ∧
    s.server.Has table key value
  busy n s := n = 1 ∧ Fetching table key value s.server (s.conns i) ∧ s.server.Has table key value
  final _ := True
  fails := False

/-- A request of `get_value` is answered, or on its way to its table. -/
theorem getPlan_line {n : Nat} {x : Exchange} {line got : Str} (huser : Identifier user)
    (htable : Identifier table) (hkey : Identifier key) (hvalue : Storable value)
    (hsent : ∀ x ∈ getValueExchanges user table key, Sent x.request)
    (hready : (getPlan user table key value i).ready n s) (hpc : (s.conns i).pc = .reading)
    (hx : (getValueExchanges user table key)[n]? = some x)
    (hline : encode x.request = .ok line) (hgot : got = (readLoop (maxEncodedLen - 1) line).1)
    (hst : Stepped p s ⟨i, .recv got⟩ .none c' s') :
    got = line ∧ (getPlan user table key value i).Next i n s s' := by
  obtain ⟨hrests, hhas⟩ := hready
  obtain ⟨hreq, hvalid⟩ := getValue_valid huser htable hkey x (List.mem_of_getElem? hx)
  have hhas' : s'.server.Has table key value := by
    rw [hst.server]
    exact hhas
  rcases request_arrives hst hpc hreq hvalid hline hgot with ⟨-, hwhole, hconn⟩ | ⟨hnot, -⟩
  · refine ⟨hwhole, ?_⟩
    have hrests := hrests.received ((s.conns i).received ++ [got])
    rcases n with _ | _ | _ | n
    · obtain rfl := Option.some.inj hx
      rw [attempt_login rfl hrests.loggedIn] at hconn
      refine .answered encode_ok (by rw [hconn]) ⟨?_, hhas'⟩ (by rw [hconn])
      exact hconn ▸ ⟨hrests.idle, rfl, hrests.stack⟩
    · obtain rfl := Option.some.inj hx
      rw [attempt_get hrests.loggedIn] at hconn
      refine .busy ⟨rfl, .approach ?_ (by rw [hconn]; rfl) ?_, hhas'⟩ (by rw [hconn])
      · exact hconn ▸ ⟨hrests.idle, hrests.loggedIn, hrests.stack⟩
      · rw [hconn]
        exact Set.mem_univ _
    · obtain rfl := Option.some.inj hx
      obtain ⟨resp, hresp⟩ := hvalue.data
      rw [attempt_top hrests.loggedIn hrests.stack hresp] at hconn
      refine .answered hresp (by rw [hconn]) ⟨?_, hhas'⟩ (by rw [hconn])
      exact hconn ▸ ⟨hrests.idle, hrests.loggedIn, hrests.stack⟩
    · cases hx
  · exact absurd (hsent x (List.mem_of_getElem? hx)) hnot

/-- **The GET goes to its table, finds the value, and is answered.** -/
theorem getPlan_go {n : Nat} {ch : Choice} (hs : Inv s)
    (hbusy : (getPlan user table key value i).busy n s) (hst : Stepped p s ⟨i, ch⟩ effect c' s') :
    (getPlan user table key value i).Next i n s s' := by
  obtain ⟨rfl, hfetching, hhas⟩ := hbusy
  have hself : s'.conns i = c' := hst.self
  have hmoves : Moves p s.server (s.conns i) ch effect c' := hst.moves
  have hreads : ∀ t, effect.writes ≠ some (t, key) := by
    intro t hwrites
    obtain ⟨table', value', hset⟩ := hmoves.writes hwrites
    cases hfetching with
    | approach _ haccess _ => cases hset.symm.trans haccess
    | fetched _ hpc =>
        rw [hpc] at hset
        cases hset
  have hhas' := hst.has hs hhas (hst.leaves hreads)
  cases hfetching with
  | approach hrests haccess hwithin =>
      have hnear : c'.pc.Within Set.univ s'.server := by
        rw [hst.server]
        refine hmoves.within hwithin fun line _ m _ => ?_
        exact ⟨fun _ => ⟨[], Set.mem_univ _⟩, fun _ => Set.mem_univ _⟩
      obtain ⟨u, hu, hvalue⟩ := hhas
      cases hmoves.approach (hs.wf i) hrests.idle haccess hwithin with
      | nearer pc hpc hc' =>
          rw [← hself] at hnear hc'
          refine .busy ⟨rfl, .approach ?_ (by rw [hc']; exact hpc) hnear, hhas'⟩ (by rw [hc'])
          exact hc' ▸ ⟨hrests.idle, hrests.loggedIn, hrests.stack⟩
      | notFound hfound hneg hsent => cases hfound.symm.trans hu
      | @there t hpc hfound =>
          obtain rfl : u = t := Option.some.inj (hu.symm.trans hfound)
          have hget := Table.get_eq_ok.mpr hvalue.visible
          cases hmoves with
          | guardGet hat hgot =>
              obtain ⟨hx, rfl⟩ := Pc.guardCall.inj (hpc.symm.trans hat)
              obtain ⟨rfl, rfl⟩ := Access.get.inj hx
              obtain rfl := Except.ok.inj (hget.symm.trans hgot)
              refine .busy ⟨rfl, .fetched ?_ (by rw [hself]), hhas'⟩ (by rw [hself])
              exact hself ▸ ⟨hrests.idle, hrests.loggedIn, congrArg (value :: ·) hrests.stack⟩
          | guardGetFail hat _ hgot =>
              obtain ⟨hx, rfl⟩ := Pc.guardCall.inj (hpc.symm.trans hat)
              obtain ⟨rfl, rfl⟩ := Access.get.inj hx
              cases hget.symm.trans hgot
          | _ => cases hpc.symm.trans ‹(s.conns i).pc = _›
  | @fetched t hrests hpc =>
      cases hmoves with
      | guardUnlock hat hresp =>
          obtain ⟨rfl, rfl⟩ := Pc.guardUnlock.inj (hpc.symm.trans hat)
          cases hresp with
          | ok =>
              refine .answered encode_ok (by rw [hself]) ⟨?_, hhas'⟩ (by rw [hself])
              exact hself ▸ ⟨hrests.idle, hrests.loggedIn, hrests.stack⟩
      | _ => cases hpc.symm.trans ‹(s.conns i).pc = _›

/-- **The plan of `get_value` is lawful**, where nobody else writes the key. -/
theorem getPlan_lawful (huser : Identifier user) (htable : Identifier table)
    (hkey : Identifier key) (hvalue : Storable value)
    (hsent : ∀ x ∈ getValueExchanges user table key, Sent x.request) :
    (getPlan user table key value i).Lawful p i (State.Leaves p table key) where
  sends _ hx := by
    obtain ⟨line, hline, -⟩ := (hsent _ (List.mem_of_getElem? hx)).encodes
    exact .inr ⟨line, hline⟩
  line _ hready hpc hx hline hgot hst :=
    .inl (getPlan_line huser htable hkey hvalue hsent hready hpc hx hline hgot hst)
  go hs hbusy hst := getPlan_go hs hbusy hst
  other hs hst hi hleaves := by
    have hsame := hst.other hi
    refine ⟨fun n hready => ?_, fun n hbusy => ?_, id⟩
    · exact ⟨hsame ▸ hready.1, hst.has hs hready.2 hleaves⟩
    · obtain ⟨hn, hfetching, hhas⟩ := hbusy
      refine ⟨hn, ?_, hst.has hs hhas hleaves⟩
      cases hfetching with
      | approach hrests haccess hwithin =>
          exact .approach (hsame ▸ hrests) (hsame ▸ haccess) (hst.within_other hs hi hwithin)
      | fetched hrests hpc => exact .fetched (hsame ▸ hrests) (hsame ▸ hpc)
  idle hready := hready.1.idle
  handling hbusy := by
    obtain ⟨-, hfetching, -⟩ := hbusy
    cases hfetching with
    | approach _ haccess _ =>
        refine ⟨fun hpc => ?_, fun hpc => ?_, fun hpc => ?_⟩ <;>
          (rw [hpc] at haccess; cases haccess)
    | fetched _ hpc => simp [hpc]
  ended _ := trivial
  awaits := nofun
  response {n x resp} hx hresp := by
    rcases n with _ | _ | _ | n
    · obtain rfl := Option.some.inj hx
      exact ⟨rfl, receives_ok hresp⟩
    · obtain rfl := Option.some.inj hx
      exact ⟨rfl, receives_ok hresp⟩
    · obtain rfl := Option.some.inj hx
      exact ⟨rfl, (hvalue.receives hresp).2 []⟩
    · cases hx

end GetValue

end KvServer
