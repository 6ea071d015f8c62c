/-
A tool and its connection, in turn.

`Wired` says what is on its way between the two.  A `Plan` is what the server is to make of
the requests of a tool, and `Dialogue` lists where the two can be: about to ask, the request
on its way, being handled, answered; refused or given up; or done.  Each event at the
connection leads from one to another, and the turns of other connections keep them.
-/
import KvServer.Model.Tools
import KvServer.Proofs.Framing
import KvServer.Proofs.Runs

namespace KvServer

/-! ### The bytes on their way

While a dialogue is in order, at most one line is under way in one of the directions, so it is
enough to name it.
-/

structure Wired (k : Task) (c : Conn) (toServer toTool : Str) : Prop where
  written : k.written.flatten = c.received.flatten ++ toServer
  sent : ∃ old, c.sent.flatten = old ++ toTool ∧ k.consumed = old.length

namespace Wired

variable {k k' : Task} {c c' : Conn} {toServer toTool rest line got : Str} {gots resps : List Str}

theorem incoming (h : Wired k c toServer toTool) : k.incoming c = toServer := by
  rw [Task.incoming, h.written, List.drop_left]

theorem unread (h : Wired k c toServer toTool) : k.unread c = toTool := by
  obtain ⟨old, hsent, hconsumed⟩ := h.sent
  rw [Task.unread, hsent, hconsumed, List.drop_left]

theorem write (h : Wired k c toServer toTool) (hwritten : k'.written = k.written ++ [line])
    (hconsumed : k'.consumed = k.consumed) : Wired k' c (toServer ++ line) toTool where
  written := by rw [hwritten, List.flatten_append, h.written, List.flatten_singleton, List.append_assoc]
  sent := hconsumed ▸ h.sent

theorem read (h : Wired k c toServer (got ++ rest)) (hwritten : k'.written = k.written)
    (hconsumed : k'.consumed = k.consumed + got.length) : Wired k' c toServer rest where
  written := hwritten ▸ h.written
  sent := by
    obtain ⟨old, hsent, hold⟩ := h.sent
    exact ⟨old ++ got, by rw [hsent, List.append_assoc], by rw [hconsumed, hold, List.length_append]⟩

theorem turn (h : Wired k c (gots.flatten ++ rest) toTool)
    (hreceived : c'.received = c.received ++ gots) (hsent : c'.sent = c.sent ++ resps) :
    Wired k c' rest (toTool ++ resps.flatten) where
  written := by rw [hreceived, List.flatten_append, h.written, List.append_assoc]
  sent := by
    obtain ⟨old, hold, hconsumed⟩ := h.sent
    exact ⟨old, by rw [hsent, List.flatten_append, hold, List.append_assoc], hconsumed⟩

end Wired

/-- A refusal that has not been read is not the less one for what follows. -/
theorem negative_unread {k : Task} {c c' : Conn} {resps : List Str} (h : Negative (k.unread c))
    (hsent : c'.sent = c.sent ++ resps) : Negative (k.unread c') := by
  have hbound : k.consumed ≤ c.sent.flatten.length := by
    by_contra hlong
    obtain ⟨b, rest, heq, -⟩ := h
    rw [Task.unread, List.drop_eq_nil_of_le (Nat.le_of_not_le hlong)] at heq
    cases heq
  rw [Task.unread, hsent, List.flatten_append, List.drop_append_of_le_length hbound]
  exact h.append _

/-! ### A request is read

A request that leaves no room for the NUL is cut, and one with a NUL in it loses its newline;
either is refused by `decode`.
-/

/-- A request that leaves its receiver room for the NUL, and has none in it. -/
structure Sent (req : Message) : Prop where
  encodes : ∃ line, encode req = .ok line ∧ line.length ≤ maxEncodedLen - 1
  noNul : ∀ arg ∈ req.args, nul ∉ arg

theorem mem_joined_of_mem {args : List Str} {arg : Str} {c : Byte} (harg : arg ∈ args)
    (hc : c ∈ arg) : c ∈ joined args :=
  List.mem_flatten.mpr ⟨blank :: arg, List.mem_map_of_mem harg, List.mem_cons_of_mem _ hc⟩

section Requests

variable {req : Message} {line got : Str}

/-- **A request that is sent is read.** -/
theorem Sent.read (h : Sent req) (hreq : req.messageType.isRequest = true)
    (hvalid : req.isValid = true) (hline : encode req = .ok line)
    (hgot : got = (readLoop (maxEncodedLen - 1) line).1) :
    got = line ∧ decode (cstr got) = .ok req := by
  obtain ⟨line', hline', hlen⟩ := h.encodes
  obtain rfl : line' = line := Except.ok.inj (hline'.symm.trans hline)
  obtain ⟨body, hbody, hnewline, hnul⟩ := encode_line (request_printable hreq hvalid h.noNul) hline
  have hshort : body.length < maxEncodedLen - 1 := by
    rwa [hbody, List.length_append, List.length_singleton] at hlen
  have hread := readLoop_line hnewline [] (maxEncodedLen - 1) hshort
  rw [← hbody] at hread
  have hwhole : got = line' := by rw [hgot, hread]
  have hclean : nul ∉ line' := by
    rw [hbody, List.mem_append, List.mem_singleton]
    exact not_or.mpr ⟨hnul, by decide⟩
  rw [hwhole, cstr_eq_self hclean]
  exact ⟨rfl, decode_eq_ok.mpr (encode_encodes hvalid hline)⟩

/-- One that is not does not decode. -/
theorem decode_of_not_sent (h : ¬ Sent req) (hreq : req.messageType.isRequest = true)
    (hvalid : req.isValid = true) (hline : encode req = .ok line)
    (hgot : got = (readLoop (maxEncodedLen - 1) line).1) : ∃ e, decode (cstr got) = .error e := by
  obtain ⟨word, hword, hshape, -⟩ := encode_eq_ok.mp hline
  have hvalues := (isValid_iff.mp hvalid).values (isText_of_isRequest hreq)
  have hnewline : newline ∉ word ++ joined req.args := by
    intro hc
    rcases List.mem_append.mp hc with hc | hc
    · exact absurd ((commandStr_value hword).noSpace _ hc) (by decide)
    · rcases mem_joined hc with hc | ⟨arg, harg, hc⟩
      · exact absurd hc (by decide)
      · exact absurd ((hvalues arg harg).noSpace _ hc) (by decide)
  by_cases hlong : maxEncodedLen - 1 ≤ (word ++ joined req.args).length
  · -- the piece that fits has no newline
    rw [hshape, readLoop_cut hnewline _ _ hlong] at hgot
    have hpiece : newline ∉ got := fun hc => hnewline (List.mem_of_mem_take (hgot ▸ hc))
    exact decode_unterminated (newline_notMem_cstr hpiece)
  · rw [hshape, readLoop_line hnewline [] _ (by omega)] at hgot
    rw [hgot]
    refine decode_nul hnewline ?_
    by_contra hnul
    refine h ⟨⟨line, hline, ?_⟩, fun arg harg hc => ?_⟩
    · rw [hshape, List.length_append, List.length_singleton]
      omega
    · exact hnul (List.mem_append_right _ (mem_joined_of_mem harg hc))

end Requests

/-! ### What the server is to make of a tool's requests

A plan is stated by the state of the server before each request, while it is handled, and at
the end. That it is lawful is to be shown by looking at the server only; the tool's side is
done here, once for all plans.
-/

structure Plan where
  exchanges : List Exchange
  /-- the reply to each of them -/
  response : Nat → Message
  /-- between two requests, with so many answered -/
  ready : Nat → State → Prop
  /-- while a request is being handled -/
  busy : Nat → State → Prop
  /-- what the tool leaves behind -/
  final : Server → Prop
  /-- A request may be refused. -/
  fails : Prop

/-- What has been printed after so many replies. -/
def Plan.printed (P : Plan) : Nat → List Str
  | 0 => []
  | n + 1 => P.printed n ++ (P.exchanges[n]?.map fun x => x.output (P.response n)).getD []

/-- A request is refused. -/
def Plan.Refuses (P : Plan) (i : ConnId) (s s' : State) : Prop :=
  P.fails ∧ ∃ resp, Negative resp ∧ (s'.conns i).sent = (s.conns i).sent ++ [resp]

/-- How a request goes on. -/
inductive Plan.Next (P : Plan) (i : ConnId) (n : Nat) (s s' : State) : Prop
  | busy (hbusy : P.busy n s') (hsent : (s'.conns i).sent = (s.conns i).sent)
  | answered {resp : Str} (hresp : encode (P.response n) = .ok resp)
      (hpc : (s'.conns i).pc = .reading) (hready : P.ready (n + 1) s')
      (hsent : (s'.conns i).sent = (s.conns i).sent ++ [resp])
  | refused (h : P.Refuses i s s')

/-- The plan of connection `i` is what the server does, where the turns of others meet `Q`. -/
structure Plan.Lawful (P : Plan) (p : Platform) (i : ConnId) (Q : State → Turn → Prop) : Prop where
  sends : ∀ {n s x}, P.ready n s → P.exchanges[n]? = some x →
    P.fails ∨ ∃ line, encode x.request = .ok line
  line : ∀ {n s s' c' x line got}, Inv s → P.ready n s → (s.conns i).pc = .reading →
    P.exchanges[n]? = some x → encode x.request = .ok line →
    got = (readLoop (maxEncodedLen - 1) line).1 → Stepped p s ⟨i, .recv got⟩ .none c' s' →
      got = line ∧ P.Next i n s s' ∨ P.Refuses i s s'
  go : ∀ {n s s' c' ch effect}, Inv s → P.busy n s → Stepped p s ⟨i, ch⟩ effect c' s' →
    P.Next i n s s'
  other : ∀ {s s' a effect c'}, Inv s → Stepped p s a effect c' s' → i ≠ a.conn → Q s a →
    (∀ n, P.ready n s → P.ready n s') ∧ (∀ n, P.busy n s → P.busy n s') ∧
      (P.final s.server → P.final s'.server)
  idle : ∀ {n s}, P.ready n s → (s.conns i).inTransaction = false
  handling : ∀ {n s}, P.busy n s →
    (s.conns i).pc ≠ .reading ∧ (s.conns i).pc ≠ .closed ∧ (s.conns i).pc ≠ .terminated
  ended : ∀ {s}, P.ready P.exchanges.length s → P.final s.server
  awaits : P.fails → ∀ x ∈ P.exchanges, x.reply = .ok
  response : ∀ {n x resp}, P.exchanges[n]? = some x → encode (P.response n) = .ok resp →
    (P.response n).messageType = x.reply ∧ ∀ buf, Receives resp [] buf (P.response n)

/-- Where a tool and its connection can be. -/
inductive Dialogue (P : Plan) (i : ConnId) (k : Task) (s : State) : Prop
  | ask {n : Nat} (hn : n ≤ P.exchanges.length) (hk : k.errand = .ask (P.exchanges.drop n))
      (hprinted : k.printed = P.printed n) (hpc : (s.conns i).pc = .reading)
      (hready : P.ready n s) (hwired : Wired k (s.conns i) [] [])
  | sent {n : Nat} {x : Exchange} {line : Str} (hx : P.exchanges[n]? = some x)
      (hline : encode x.request = .ok line) (hk : k.errand = .await x (P.exchanges.drop (n + 1)))
      (hprinted : k.printed = P.printed n) (hpc : (s.conns i).pc = .reading)
      (hready : P.ready n s) (hwired : Wired k (s.conns i) line [])
  | busy {n : Nat} {x : Exchange} (hx : P.exchanges[n]? = some x)
      (hk : k.errand = .await x (P.exchanges.drop (n + 1))) (hprinted : k.printed = P.printed n)
      (hbusy : P.busy n s) (hwired : Wired k (s.conns i) [] [])
  | replied {n : Nat} {x : Exchange} {resp : Str} (hx : P.exchanges[n]? = some x)
      (hresp : encode (P.response n) = .ok resp)
      (hk : k.errand = .await x (P.exchanges.drop (n + 1))) (hprinted : k.printed = P.printed n)
      (hpc : (s.conns i).pc = .reading) (hready : P.ready (n + 1) s)
      (hwired : Wired k (s.conns i) [] resp)
  | refused (hfails : P.fails) {x : Exchange} {xs : List Exchange} (hk : k.errand = .await x xs)
      (hx : x.reply = .ok) (hneg : Negative (k.unread (s.conns i)))
  | failed (hfails : P.fails) (hk : k.errand = .returned 1)
  | bye (hk : k.errand = .returned 0) (hprinted : k.printed = P.printed P.exchanges.length)
      (hpc : (s.conns i).pc = .reading) (hidle : (s.conns i).inTransaction = false)
      (hfinal : P.final s.server) (hwired : Wired k (s.conns i) byeLine [])
  | gone (hk : k.errand = .returned 0) (hprinted : k.printed = P.printed P.exchanges.length)
      (hpc : (s.conns i).pc = .closed) (hfinal : P.final s.server)

/-! ### From one to another -/

section Events

variable {P : Plan} {p : Platform} {i : ConnId} {Q : State → Turn → Prop} {k k' : Task}
  {s s' : State} {a : Turn} {ch : Choice} {effect : Effect} {c' : Conn}

/-- **The tool writes.** -/
theorem Dialogue.write (h : Dialogue P i k s) (hP : P.Lawful p i Q) (hwrite : k.write = some k') :
    Dialogue P i k' s := by
  unfold Task.write at hwrite
  cases h with
  | @ask n hn hk hprinted hpc hready hwired =>
      rw [hk] at hwrite
      rcases Nat.lt_or_eq_of_le hn with hn | rfl
      · have hx : P.exchanges[n]? = some P.exchanges[n] := List.getElem?_eq_getElem hn
        rw [List.drop_eq_getElem_cons hn] at hwrite
        dsimp only at hwrite
        cases hline : encode P.exchanges[n].request with
        | ok line =>
            rw [hline] at hwrite
            obtain rfl := Option.some.inj hwrite
            exact .sent hx hline rfl hprinted hpc hready (hwired.write rfl rfl)
        | error e =>
            rw [hline] at hwrite
            obtain rfl := Option.some.inj hwrite
            rcases hP.sends hready hx with hfails | ⟨line, hok⟩
            · exact .failed hfails rfl
            · cases hline.symm.trans hok
      · rw [List.drop_length] at hwrite
        simp only [encode_bye, Option.some.injEq] at hwrite
        subst hwrite
        exact .bye rfl hprinted hpc (hP.idle hready) (hP.ended hready) (hwired.write rfl rfl)
  | sent hx hline hk => simp [hk] at hwrite
  | busy hx hk => simp [hk] at hwrite
  | replied hx hresp hk => simp [hk] at hwrite
  | refused hfails hk => simp [hk] at hwrite
  | failed hfails hk => simp [hk] at hwrite
  | bye hk => simp [hk] at hwrite
  | gone hk => simp [hk] at hwrite

/-- **The tool reads.** -/
theorem Dialogue.read (h : Dialogue P i k s) (hP : P.Lawful p i Q)
    (harrived : Arrived (k.unread (s.conns i)) ∨ (s.conns i).pc = .closed)
    (hread : k.read (k.unread (s.conns i)) = some k') : Dialogue P i k' s := by
  unfold Task.read at hread
  cases h with
  | ask hn hk => simp [hk] at hread
  | sent hx hline hk hprinted hpc hready hwired =>
      rw [hwired.unread, hpc] at harrived
      exact absurd harrived (by simp [not_arrived_nil])
  | busy hx hk hprinted hbusy hwired =>
      rw [hwired.unread] at harrived
      exact absurd harrived (by simp [not_arrived_nil, (hP.handling hbusy).2.1])
  | @replied n x resp hx hresp hk hprinted hpc hready hwired =>
      obtain ⟨htype, hreceives⟩ := hP.response hx hresp
      obtain ⟨hn, -, hdecode⟩ := hreceives k.buf
      rw [List.append_nil] at hn hdecode
      rw [hwired.unread, hk] at hread
      simp only [hdecode, htype, ne_eq, not_true_eq_false, if_false, Option.some.injEq] at hread
      subst hread
      refine .ask (List.getElem?_eq_some_iff.mp hx).1 rfl ?_ hpc hready ?_
      · show k.printed ++ _ = P.printed n ++ _
        rw [hprinted, hx]
        rfl
      · have hwhole : Wired k (s.conns i) [] (resp ++ []) := by rwa [List.append_nil]
        exact hwhole.read rfl (congrArg (k.consumed + ·) hn)
  | refused hfails hk hx hneg =>
      have hnot := hneg.not_holdsOk k.buf
      rw [hk] at hread
      dsimp only at hread
      cases hm : decode (cstr (rioReadlineb (k.unread (s.conns i)) k.buf maxEncodedLen).buf) with
      | error e =>
          rw [hm] at hread
          obtain rfl := Option.some.inj hread
          exact .failed hfails rfl
      | ok m =>
          rw [hm] at hread
          dsimp only at hread
          rw [if_pos fun hok => hnot ⟨m, hm, hok.trans hx⟩] at hread
          obtain rfl := Option.some.inj hread
          exact .failed hfails rfl
  | failed hfails hk => simp [hk] at hread
  | bye hk => simp [hk] at hread
  | gone hk => simp [hk] at hread

/-- With nothing on its way and its tool still there, a connection that is reading waits. -/
theorem not_delivers (hincoming : k.incoming (s.conns i) = []) (hreturned : k.hasReturned = false)
    (hpc : (s.conns i).pc = .reading) (hmoves : Moves p s.server (s.conns i) ch effect c')
    (hdelivers : k.Delivers (s.conns i) ch) : False := by
  cases hmoves with
  | request hread hpos hlen h =>
      obtain ⟨hline, -⟩ := hdelivers
      rw [hincoming] at hline
      subst hline
      exact absurd hpos (Nat.lt_irrefl 0)
  | eof hread =>
      obtain ⟨-, hback⟩ := hdelivers
      rw [hreturned] at hback
      cases hback
  | _ => cases hpc.symm.trans ‹(s.conns i).pc = _›

/-- How a request goes on is where the two can be then. -/
theorem Plan.Next.dialogue {n : Nat} {x : Exchange} (h : P.Next i n s s')
    (hok : P.fails → ∀ x ∈ P.exchanges, x.reply = .ok) (hx : P.exchanges[n]? = some x)
    (hk : k.errand = .await x (P.exchanges.drop (n + 1))) (hprinted : k.printed = P.printed n)
    (hwired : ∀ resps, (s'.conns i).sent = (s.conns i).sent ++ resps →
      Wired k (s'.conns i) [] resps.flatten) : Dialogue P i k s' := by
  cases h with
  | busy hbusy hsent =>
      exact .busy hx hk hprinted hbusy (hwired [] (by rw [hsent, List.append_nil]))
  | @answered resp hresp hpc hready hsent =>
      refine .replied hx hresp hk hprinted hpc hready ?_
      have hwired := hwired [resp] hsent
      rwa [List.flatten_singleton] at hwired
  | refused h =>
      obtain ⟨hfails, resp, hneg, hsent⟩ := h
      refine .refused hfails hk (hok hfails x (List.mem_of_getElem? hx)) ?_
      rwa [(hwired [resp] hsent).unread, List.flatten_singleton]

/-- **The server's turn, at the connection.** -/
theorem Dialogue.turn (h : Dialogue P i k s) (hP : P.Lawful p i Q) (hs : Inv s)
    (hst : Stepped p s ⟨i, ch⟩ effect c' s') (hdelivers : k.Delivers (s.conns i) ch) :
    Dialogue P i k s' := by
  have hself : s'.conns i = c' := hst.self
  have hmoves : Moves p s.server (s.conns i) ch effect c' := hst.moves
  cases h with
  | ask hn hk hprinted hpc hready hwired =>
      exact (not_delivers hwired.incoming (by simp [Task.hasReturned, hk]) hpc hmoves hdelivers).elim
  | replied hx hresp hk hprinted hpc hready hwired =>
      exact (not_delivers hwired.incoming (by simp [Task.hasReturned, hk]) hpc hmoves hdelivers).elim
  | @sent n x line hx hline hk hprinted hpc hready hwired =>
      rcases reading_step hpc hst.runs with ⟨got, rfl, rfl, rfl⟩ | rfl
      · have hgot := hdelivers.1
        rw [hwired.incoming] at hgot
        rcases hP.line hs hready hpc hx hline hgot hst with ⟨rfl, hnext⟩ | ⟨hfails, resp, hneg, hsent⟩
        · refine hnext.dialogue hP.awaits hx hk hprinted fun resps hsent => ?_
          have hwired' : Wired k (s.conns i) ([got].flatten ++ []) [] := by
            rwa [List.flatten_singleton, List.append_nil]
          refine hwired'.turn ?_ hsent
          rw [hself]
          exact hmoves.received
        · refine .refused hfails hk (hP.awaits hfails x (List.mem_of_getElem? hx)) ?_
          obtain ⟨old, hold, hconsumed⟩ := hwired.sent
          rw [List.append_nil] at hold
          rwa [Task.unread, hsent, hconsumed, List.flatten_append, hold, List.drop_left,
            List.flatten_singleton]
      · have hnone := hdelivers.1
        rw [hwired.incoming] at hnone
        exact absurd hnone (encode_ne_nil hline)
  | busy hx hk hprinted hbusy hwired =>
      refine (hP.go hs hbusy hst).dialogue hP.awaits hx hk hprinted fun resps hsent => ?_
      have hwired' : Wired k (s.conns i) (List.flatten [] ++ []) [] := hwired
      refine hwired'.turn ?_ hsent
      rw [hself, hmoves.received_same (hP.handling hbusy).1, List.append_nil]
  | refused hfails hk hx hneg =>
      obtain ⟨more, hmore⟩ := hmoves.grows.1
      exact .refused hfails hk hx (negative_unread hneg (hself ▸ hmore.symm))
  | failed hfails hk => exact .failed hfails hk
  | bye hk hprinted hpc hidle hfinal hwired =>
      rcases reading_step hpc hst.runs with ⟨got, rfl, rfl, hc'⟩ | rfl
      · have hgot := hdelivers.1
        rw [hwired.incoming] at hgot
        obtain rfl : got = byeLine := hgot
        refine .gone hk hprinted ?_ ?_
        · rw [hself, hc', chat_bye hidle]
        · rw [hst.server]
          exact hfinal
      · have hnone := hdelivers.1
        rw [hwired.incoming] at hnone
        exact absurd hnone (by decide)
  | gone hk hprinted hpc hfinal => exact absurd hpc hmoves.grows.2.1

/-- The turns of others. -/
theorem Dialogue.other (h : Dialogue P i k s) (hP : P.Lawful p i Q) (hs : Inv s)
    (hst : Stepped p s a effect c' s') (hi : i ≠ a.conn) (hQ : Q s a) : Dialogue P i k s' := by
  obtain ⟨hready', hbusy', hfinal'⟩ := hP.other hs hst hi hQ
  have hsame := hst.other hi
  cases h with
  | ask hn hk hprinted hpc hready hwired =>
      exact .ask hn hk hprinted (hsame ▸ hpc) (hready' _ hready) (hsame ▸ hwired)
  | sent hx hline hk hprinted hpc hready hwired =>
      exact .sent hx hline hk hprinted (hsame ▸ hpc) (hready' _ hready) (hsame ▸ hwired)
  | busy hx hk hprinted hbusy hwired =>
      exact .busy hx hk hprinted (hbusy' _ hbusy) (hsame ▸ hwired)
  | replied hx hresp hk hprinted hpc hready hwired =>
      exact .replied hx hresp hk hprinted (hsame ▸ hpc) (hready' _ hready) (hsame ▸ hwired)
  | refused hfails hk hx hneg => exact .refused hfails hk hx (hsame ▸ hneg)
  | failed hfails hk => exact .failed hfails hk
  | bye hk hprinted hpc hidle hfinal hwired =>
      exact .bye hk hprinted (hsame ▸ hpc) (hsame ▸ hidle) (hfinal' hfinal) (hsame ▸ hwired)
  | gone hk hprinted hpc hfinal => exact .gone hk hprinted (hsame ▸ hpc) (hfinal' hfinal)

end Events

end KvServer
