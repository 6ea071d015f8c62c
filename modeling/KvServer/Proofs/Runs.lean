/-
One run of `incr_value -t` against its connection.

`Stage` lists where a run can be: about to write a request, the request on its way,
handled, answered with OK; refused or given up (`lost`), with nothing committed; or
finished.  The tool's steps and the server's turns at its connection lead from stage to
stage, and COMMIT is answered in the one step from the seventh request to its OK.
-/
import KvServer.Proofs.Mains
import KvServer.Proofs.Requests
import KvServer.Proofs.Serializability

namespace KvServer

/-! ### What the server makes of a request's line

The names given to the tool may be of any length, so a request may be cut in the server's
buffer. Then it does not decode; otherwise it is what was sent. The user name is the exception,
for it is no identifier and may break into several words.
-/

section Lines

variable {user table key line got : Str} {m : Message} {x : Exchange} {j : Nat}

theorem increment_printable (huser : Printable user) (htable : Identifier table)
    (hkey : Identifier key) (hreq : (increment user table key)[j]? = some x) :
    ∀ arg ∈ x.request.args, Printable arg := by
  have hname : ∀ {s : Str}, Identifier s → Printable s := fun h => .of_value h.value fun hc => by
    have := h.toNat _ hc
    simp [nul] at this
  have hmem := List.mem_of_getElem? hreq
  have hone : Printable (bytes "1") := ⟨by decide, by decide⟩
  simp only [increment, incrValueExchanges, if_true, List.cons_append, List.nil_append,
    List.mem_cons, List.not_mem_nil, or_false] at hmem
  intro arg harg
  rcases hmem with rfl | rfl | rfl | rfl | rfl | rfl | rfl <;>
    simp only [List.mem_cons, List.not_mem_nil, or_false] at harg
  · exact harg ▸ huser
  · rcases harg with rfl | rfl
    · exact hname htable
    · exact hname hkey
  · exact harg ▸ hone
  · rcases harg with rfl | rfl
    · exact hname htable
    · exact hname hkey

theorem increment_valid (htable : Identifier table) (hkey : Identifier key) (hj : j ≠ 0)
    (hreq : (increment user table key)[j]? = some x) : x.request.isValid = true := by
  have hlen := (List.getElem?_eq_some_iff.mp hreq).1
  rw [increment_length] at hlen
  have hcases : j = 1 ∨ j = 2 ∨ j = 3 ∨ j = 4 ∨ j = 5 ∨ j = 6 := by omega
  rcases hcases with rfl | rfl | rfl | rfl | rfl | rfl <;>
    obtain rfl := Option.some.inj hreq
  · decide
  · exact isValid_iff.mpr (.get htable hkey)
  · decide
  · decide
  · exact isValid_iff.mpr (.set htable hkey)
  · decide

/-- `incr_value` insists on OK throughout. -/
theorem increment_reply (hreq : (increment user table key)[j]? = some x) : x.reply = .ok := by
  have hmem := List.mem_of_getElem? hreq
  simp only [increment, incrValueExchanges, if_true, List.cons_append, List.nil_append,
    List.mem_cons, List.not_mem_nil, or_false] at hmem
  rcases hmem with rfl | rfl | rfl | rfl | rfl | rfl | rfl <;> rfl

/-- A line that begins with LOGIN decodes to a LOGIN, if it decodes. -/
theorem decode_login {rest : Str} (h : decode (bytes "LOGIN" ++ blank :: rest ++ [newline]) = .ok m) :
    m.messageType = .login := by
  obtain ⟨⟨word, tail, hword, hsplit, htail⟩, -⟩ := (decode_eq_ok.mp h).line
  rw [List.dropLast_concat] at hsplit
  have hstart : (bytes "LOGIN" ++ blank :: rest).dropWhile isSpace = bytes "LOGIN" ++ blank :: rest :=
    rfl
  rw [hstart] at hsplit
  have hhead : tail ≠ [] → tail.head? = some blank := by
    generalize m.args = args at htail
    cases htail with
    | bare => exact fun hne => absurd rfl hne
    | text _ _ => exact fun _ => rfl
    | words _ _ => exact fun _ => rfl
  obtain ⟨rfl, -⟩ := word_unique (by decide) (blank_notMem (commandStr_value hword)) hsplit hhead
  have htype : commandType (bytes "LOGIN") = .ok .login := by decide
  exact Except.ok.inj ((commandType_eq_ok.mpr hword).symm.trans htype)

/-- **What the server reads of a request is the request, or does not decode.** -/
theorem request_decodes (huser : Printable user) (htable : Identifier table) (hkey : Identifier key)
    (hreq : (increment user table key)[j]? = some x) (hline : encode x.request = .ok line)
    (hgot : got = (readLoop (maxEncodedLen - 1) line).1) (hm : decode (cstr got) = .ok m) :
    got = line ∧ (m = x.request ∨ j = 0 ∧ m.messageType = .login) := by
  have hargs := increment_printable huser htable hkey hreq
  obtain ⟨body, hbody, hnewline, hnul⟩ := encode_line hargs hline
  by_cases hshort : body.length < maxEncodedLen - 1
  · have hread := readLoop_line hnewline [] (maxEncodedLen - 1) hshort
    rw [← hbody] at hread
    have hwhole : got = line := by rw [hgot, hread]
    have hclean : nul ∉ line := by
      rw [hbody]
      simp only [List.mem_append, List.mem_singleton, not_or]
      exact ⟨hnul, by decide⟩
    rw [hwhole, cstr_eq_self hclean] at hm
    refine ⟨hwhole, ?_⟩
    by_cases hj : j = 0
    · subst hj
      obtain rfl := Option.some.inj hreq
      obtain ⟨word, hword, hshape, -⟩ := encode_eq_ok.mp hline
      obtain rfl := Except.ok.inj hword
      have hlogin : line = bytes "LOGIN" ++ blank :: user ++ [newline] := by simp [hshape, joined]
      rw [hlogin] at hm
      exact .inr ⟨rfl, decode_login hm⟩
    · have hvalid := increment_valid htable hkey hj hreq
      have hdecode := decode_eq_ok.mpr (encode_encodes hvalid hline)
      exact .inl (Except.ok.inj (hm.symm.trans hdecode))
  · -- the line does not fit the buffer, and what fits has no newline
    have hread := readLoop_cut hnewline [newline] (maxEncodedLen - 1) (by omega)
    rw [← hbody] at hread
    rw [hread] at hgot
    have hlast := (decode_eq_ok.mp hm).terminated
    have hmem : newline ∈ cstr got := List.mem_of_getLast? hlast
    have hsub : (cstr got).Sublist body := by
      rw [hgot]
      exact (List.takeWhile_sublist _).trans (List.take_sublist _ _)
    exact absurd (hsub.subset hmem) hnewline

end Lines

/-! ### The stages of a run

At each stage of a run that has not failed it is known what is on its way in either direction,
and that is one line at most.
-/

/-- What has been answered of a run before request `j`: its COMMIT, when that is behind it. -/
def Done (p : Platform) (loc : TablePtr × Str) (j : Nat) (done : List Item) : Prop :=
  if j = 7 then ∃ item, done = [item] ∧ Increment p loc item.ops else done = []

/-- A connection that aborts, or whose process has ended. -/
def Aborting (c : Conn) : Prop :=
  c.pc = .terminated ∨ ∃ what, c.pc.loop = some (.abort what)

/-- A run that has been refused, or is about to be, or has given up. -/
structure Stranded (k : Task) (c : Conn) : Prop where
  errand : k.errand = .returned 1 ∨ (∃ x xs, k.errand = .await x xs ∧ x.reply = .ok) ∧
    (Negative (k.unread c) ∨ k.unread c = [] ∧ Aborting c)
  lost : Lost c ∨ Aborting c
  incoming : k.incoming c = [] ∨ c.pc = .closed ∨ c.pc.loop = some .destroy

/-- A run with its connection, the operations recorded for the connection and the items
answered on it. -/
inductive Stage (p : Platform) (user table key : Str) (t : TablePtr) (k : Task) (c : Conn)
    (ops : Ops) (done : List Item) : Prop
  | ask {j : Nat} (hj : j ≤ 7) (herrand : k.errand = .ask ((increment user table key).drop j))
      (hpc : c.pc = .reading) (hready : Ready p key t j c ops) (hin : k.incoming c = [])
      (hout : k.unread c = []) (hdone : Done p (t, key) j done)
  | sent {j : Nat} {x : Exchange} {line : Str}
      (hreq : (increment user table key)[j]? = some x) (hline : encode x.request = .ok line)
      (herrand : k.errand = .await x ((increment user table key).drop (j + 1)))
      (hpc : c.pc = .reading) (hready : Ready p key t j c ops) (hin : k.incoming c = line)
      (hout : k.unread c = []) (hdone : done = [])
  | busy {j : Nat} {x : Exchange} (hreq : (increment user table key)[j]? = some x)
      (herrand : k.errand = .await x ((increment user table key).drop (j + 1)))
      (hbusy : Busy p table key t j c ops) (hin : k.incoming c = []) (hout : k.unread c = [])
      (hdone : done = [])
  | replied {j : Nat} {x : Exchange} (hj : j < 7)
      (hreq : (increment user table key)[j]? = some x)
      (herrand : k.errand = .await x ((increment user table key).drop (j + 1)))
      (hpc : c.pc = .reading) (hready : Ready p key t (j + 1) c ops) (hin : k.incoming c = [])
      (hout : k.unread c = okLine) (hdone : Done p (t, key) (j + 1) done)
  | lost (hstranded : Stranded k c) (hdone : done = [])
  | bye (herrand : k.errand = .returned 0) (hpc : c.pc = .reading) (htx : c.inTransaction = false)
      (hin : k.incoming c = byeLine) (hdone : Done p (t, key) 7 done)
  | gone (herrand : k.errand = .returned 0) (hpc : c.pc = .closed) (hdone : Done p (t, key) 7 done)

theorem Ready.congr {p : Platform} {key : Str} {t : TablePtr} {j : Nat} {c c' : Conn} {ops : Ops}
    (h : Ready p key t j c ops) (htx : c'.inTransaction = c.inTransaction)
    (hstack : c'.stack = c.stack) : Ready p key t j c' ops := by
  unfold Ready at h ⊢
  rw [htx, hstack]
  exact h

theorem done_lt {p : Platform} {loc : TablePtr × Str} {j : Nat} {done : List Item}
    (h : Done p loc j done) (hj : j ≠ 7) : done = [] := by
  unfold Done at h
  rwa [if_neg hj] at h

theorem done_of_lt {p : Platform} {loc : TablePtr × Str} {j : Nat} {done : List Item} (hj : j ≠ 7)
    (h : done = []) : Done p loc j done := by
  unfold Done
  rwa [if_neg hj]

theorem aborting_not_closed {c : Conn} (h : Aborting c) : c.pc ≠ .closed := by
  rcases h with h | ⟨what, h⟩
  · rw [h]
    exact nofun
  · intro hpc
    rw [hpc] at h
    cases h

section Stages

variable {p : Platform} {user table key : Str} {t : TablePtr} {k k' : Task} {c c' : Conn}
  {ops ops' : Ops} {done done' : List Item}

/-- **The tool writes.** -/
theorem Stage.write (h : Stage p user table key t k c ops done) (horder : InOrder k c)
    (hwrite : k.write = some k') : Stage p user table key t k' c ops done := by
  unfold Task.write at hwrite
  cases h with
  | @ask j hj herrand hpc hready hin hout hdone =>
      rw [herrand] at hwrite
      rcases Nat.lt_or_eq_of_le hj with hj | rfl
      · obtain ⟨x, hreq⟩ : ∃ x, (increment user table key)[j]? = some x :=
          ⟨_, List.getElem?_eq_getElem (by rw [increment_length]; exact hj)⟩
        have hdrop : (increment user table key).drop j
            = x :: (increment user table key).drop (j + 1) := by
          rw [List.drop_eq_getElem?_toList_append, hreq]
          rfl
        rw [hdrop] at hwrite
        dsimp only at hwrite
        cases hencode : encode x.request with
        | ok line =>
            rw [hencode] at hwrite
            obtain rfl := Option.some.inj hwrite
            refine .sent hreq hencode rfl hpc hready ?_ hout (done_lt hdone (Nat.ne_of_lt hj))
            rw [Task.incoming_written horder.received rfl, hin, List.nil_append]
        | error e =>
            rw [hencode] at hwrite
            obtain rfl := Option.some.inj hwrite
            exact .lost ⟨.inl rfl, .inl (.inl hpc), .inl hin⟩ (done_lt hdone (Nat.ne_of_lt hj))
      · have hnone : (increment user table key).drop 7 = [] := rfl
        rw [hnone] at hwrite
        simp only [encode_bye, Option.some.injEq] at hwrite
        obtain rfl := hwrite
        refine .bye rfl hpc hready ?_ hdone
        rw [Task.incoming_written horder.received rfl, hin, List.nil_append]
  | sent hreq hline herrand hpc hready hin hout hdone =>
      rw [herrand] at hwrite
      cases hwrite
  | busy hreq herrand hbusy hin hout hdone =>
      rw [herrand] at hwrite
      cases hwrite
  | replied hj hreq herrand hpc hready hin hout hdone =>
      rw [herrand] at hwrite
      cases hwrite
  | lost hstranded hdone =>
      rcases hstranded.errand with herrand | ⟨⟨x, xs, herrand, -⟩, -⟩
      · rw [herrand] at hwrite
        cases hwrite
      · rw [herrand] at hwrite
        cases hwrite
  | bye herrand hpc htx hin hdone =>
      rw [herrand] at hwrite
      cases hwrite
  | gone herrand hpc hdone =>
      rw [herrand] at hwrite
      cases hwrite

/-- A busy connection has not been closed. -/
theorem Busy.not_closed {j : Nat} (h : Busy p table key t j c ops) : c.pc ≠ .closed := by
  intro hpc
  cases h with
  | get h _ _ =>
      rw [hpc] at h
      cases h
  | set h _ _ =>
      rw [hpc] at h
      cases h
  | commit h _ _ =>
      rw [hpc] at h
      cases h

theorem read_okLine (buf : Str) : ∃ more, rioReadlineb okLine buf maxEncodedLen
    = { n := 3, buf := okLine ++ nul :: more, rest := [] } :=
  ⟨_, rfl⟩

/-- A tool after a read that does not leave an OK in the buffer. -/
theorem read_refused {arrived : Str} {x : Exchange} {xs : List Exchange}
    (herrand : k.errand = .await x xs) (hreply : x.reply = .ok) (hread : k.read arrived = some k')
    (hrefused : ¬ HoldsOk (rioReadlineb arrived k.buf maxEncodedLen).buf) :
    k'.errand = .returned 1 := by
  unfold Task.read at hread
  rw [herrand] at hread
  dsimp only at hread
  cases hm : decode (cstr (rioReadlineb arrived k.buf maxEncodedLen).buf) with
  | error e =>
      rw [hm] at hread
      obtain rfl := Option.some.inj hread
      rfl
  | ok m =>
      rw [hm] at hread
      dsimp only at hread
      rw [hreply, if_pos fun hok => hrefused ⟨m, hm, hok⟩] at hread
      obtain rfl := Option.some.inj hread
      rfl

/-- **The tool reads.** -/
theorem Stage.read (h : Stage p user table key t k c ops done)
    (harrived : Arrived (k.unread c) ∨ c.pc = .closed) (hread : k.read (k.unread c) = some k') :
    Stage p user table key t k' c ops done := by
  cases h with
  | ask hj herrand hpc hready hin hout hdone =>
      simp [Task.read, herrand] at hread
  | sent hreq hline herrand hpc hready hin hout hdone =>
      rw [hout, hpc] at harrived
      exact absurd harrived (by simp [not_arrived_nil])
  | busy hreq herrand hbusy hin hout hdone =>
      rw [hout] at harrived
      exact absurd harrived (by simp [not_arrived_nil, hbusy.not_closed])
  | @replied j x hj hreq herrand hpc hready hin hout hdone =>
      obtain ⟨more, hok⟩ := read_okLine k.buf
      have hdecode : decode (cstr (okLine ++ nul :: more)) = .ok { messageType := .ok } := by
        rw [cstr_append_nul]
        decide
      rw [hout] at hread
      unfold Task.read at hread
      simp only [herrand, hok, hdecode, increment_reply hreq, ne_eq, not_true_eq_false, if_false,
        Option.some.injEq] at hread
      subst hread
      refine .ask hj rfl hpc hready ?_ ?_ hdone
      · rw [← hin]
        exact Task.incoming_congr rfl rfl
      · rw [Task.unread_read (k := k) (n := 3) rfl, hout]
        rfl
  | lost hstranded hdone =>
      rcases hstranded.errand with herrand | ⟨⟨x, xs, herrand, hreply⟩, hnegative | ⟨hout, habort⟩⟩
      · simp [Task.read, herrand] at hread
      · have hexited := read_refused herrand hreply hread (hnegative.not_holdsOk k.buf)
        refine .lost ⟨.inl hexited, hstranded.lost, ?_⟩ hdone
        rw [Task.incoming_congr (Task.read_counts hread).2.1 rfl]
        exact hstranded.incoming
      · rw [hout] at harrived
        exact absurd harrived (by simp [not_arrived_nil, aborting_not_closed habort])
  | bye herrand hpc htx hin hdone => simp [Task.read, herrand] at hread
  | gone herrand hpc hdone => simp [Task.read, herrand] at hread

/-! ### The server's turns

A turn at rest takes the next request, and inside a request it goes on with it. In a transaction
COMMIT is the one request whose answer is recorded.
-/

/-- Nothing that has only been read or refused is answered as a commit. -/
theorem answers_reading (hpc : c.pc = .reading) (v : TwoPhase.View TablePtr) :
    c.view.answers v = false ∧ c.view.ends v = false := by
  have hplain : c.view = if c.inTransaction then .inside c.lockedTables else .outside :=
    Conn.plain_reading hpc
  rw [hplain]
  split
  · exact ⟨rfl, rfl⟩
  · exact ⟨rfl, rfl⟩

theorem answers_lost (h : Lost c ∨ Aborting c) (v : TwoPhase.View TablePtr) :
    c.view.answers v = false := by
  rcases h with (hpc | hpc | hloop) | hpc | ⟨what, hloop⟩
  · exact (answers_reading hpc v).1
  · simp [Conn.view, hpc, TwoPhase.View.answers]
  · cases hpc : c.pc <;> rw [hpc] at hloop <;> cases hloop <;>
      simp [Conn.view, hpc, Ending.commits, TwoPhase.View.answers]
  · simp only [Conn.view, hpc]
    split <;> rfl
  · cases hpc : c.pc <;> rw [hpc] at hloop <;> cases hloop <;>
      simp [Conn.view, hpc, Ending.commits, TwoPhase.View.answers]

/-- A request that is refused, granted or under way leads to the stage it should. -/
theorem Outcome.stage {j : Nat} {x : Exchange} (h : Outcome p table key t j c c' ops')
    (hreq : (increment user table key)[j]? = some x)
    (herrand : k.errand = .await x ((increment user table key).drop (j + 1)))
    (hbound : k.consumed ≤ c.sent.flatten.length) (hin : k.incoming c = [])
    (hout : k.unread c = []) : Stage p user table key t k c' ops' [] := by
  cases h with
  | refused h =>
      have hin' : k.incoming c' = [] := by rw [Task.incoming_congr rfl h.received, hin]
      rcases h.answer with ⟨resp, hresp, hsent, hlost⟩ | ⟨hsent, habort⟩
      · refine .lost ⟨.inr ⟨⟨_, _, herrand, increment_reply hreq⟩, .inl ?_⟩, .inl hlost, .inl hin'⟩ rfl
        rw [Task.unread_sent hbound hsent, hout]
        exact hresp
      · refine .lost ⟨.inr ⟨⟨_, _, herrand, increment_reply hreq⟩, .inr ⟨?_, habort⟩⟩, .inr habort, .inl hin'⟩ rfl
        rw [Task.unread_congr rfl hsent, hout]
  | granted hj h hready =>
      refine .replied (by omega) hreq herrand h.point hready ?_ ?_ (done_of_lt (by omega) rfl)
      · rw [Task.incoming_congr rfl h.received, hin]
      · rw [Task.unread_sent hbound h.sent, hout, List.nil_append]
  | busy hreceived hsent hbusy =>
      refine .busy hreq herrand hbusy ?_ ?_ rfl
      · rw [Task.incoming_congr rfl hreceived, hin]
      · rw [Task.unread_congr rfl hsent, hout]

variable {sv : Server} {ch : Choice} {effect : Effect}

/-- A connection at rest moves only at end of input, if there is nothing to read. -/
theorem idle_moves (hmoves : Moves p sv c ch effect c') (hpc : c.pc = .reading)
    (hin : k.incoming c = [])
    (hrecv : ∀ line, ch = .recv line → line = (readLoop (maxEncodedLen - 1) (k.incoming c)).1) :
    ch = .eof ∧ c' = { c with pc := c.leave } := by
  cases hmoves with
  | request hat hpos hlen h =>
      have hline := hrecv _ rfl
      rw [hin] at hline
      subst hline
      exact absurd hpos (Nat.lt_irrefl 0)
  | eof hat => exact ⟨rfl, rfl⟩
  | _ => cases hpc.symm.trans ‹c.pc = _›

/-- A step at a connection at rest is a request or the end of input. -/
theorem reading_step (hpc : c.pc = .reading) (hstep : c.step p sv ch = some (effect, c')) :
    (∃ line, ch = .recv line ∧ effect = .none ∧ c' = c.chatWithClient p line) ∨ ch = .eof := by
  cases ch with
  | recv line =>
      simp only [Conn.step] at hstep
      split at hstep
      · obtain ⟨rfl, rfl⟩ := Prod.mk.inj (Option.some.inj hstep)
        exact .inl ⟨line, rfl, rfl, rfl⟩
      · cases hstep
  | eof => exact .inr rfl
  | go => simp [Conn.step, Conn.go, hpc] at hstep
  | visit u => simp [Conn.step, hpc] at hstep

/-- From one point of a loop to another. -/
theorem Stranded.loop (h : Stranded k c) {e : Ending} (hloop : c.pc.loop = some e)
    (hloop' : c'.pc.loop = some e) (hsent : c'.sent = c.sent) (hreceived : c'.received = c.received) :
    Stranded k c' := by
  have hunread : k.unread c' = k.unread c := Task.unread_congr rfl hsent
  have hincoming : k.incoming c' = k.incoming c := Task.incoming_congr rfl hreceived
  have habort : Aborting c → Aborting c' := by
    rintro (hpc | ⟨what, hwhat⟩)
    · rw [hpc] at hloop
      cases hloop
    · exact .inr ⟨what, by rw [hloop', ← hloop, hwhat]⟩
  have hlost : Lost c → Lost c' := by
    rintro (hpc | hpc | hdestroy)
    · rw [hpc] at hloop
      cases hloop
    · rw [hpc] at hloop
      cases hloop
    · exact .inr (.inr (by rw [hloop', ← hloop, hdestroy]))
  refine ⟨?_, h.lost.imp hlost habort, ?_⟩
  · rw [hunread]
    exact h.errand.imp_right (And.imp_right (Or.imp_right (And.imp_right habort)))
  · rw [hincoming]
    rcases h.incoming with hin | hpc | hdestroy
    · exact .inl hin
    · rw [hpc] at hloop
      cases hloop
    · exact .inr (.inr (by rw [hloop', ← hloop, hdestroy]))

/-- A run that has come to nothing stays so. -/
theorem Stranded.turn (h : Stranded k c) (horder : InOrder k c) (hmoves : Moves p sv c ch effect c')
    (hrecv : ∀ line, ch = .recv line → line = (readLoop (maxEncodedLen - 1) (k.incoming c)).1)
    (heof : ch = .eof → k.hasReturned) : Stranded k c' := by
  have hcases := h.lost
  have hreading : c.pc = .reading → Stranded k c' := by
    intro hpc
    have hin : k.incoming c = [] := h.incoming.resolve_right (by simp [hpc, Pc.loop])
    obtain ⟨rfl, rfl⟩ := idle_moves hmoves hpc hin hrecv
    refine ⟨.inl ?_, .inl (lost_leave rfl), .inl hin⟩
    rcases h.errand with herrand | ⟨⟨x, xs, herrand, -⟩, -⟩
    · exact herrand
    · have hreturned := heof rfl
      simp [Task.hasReturned, herrand] at hreturned
  cases hmoves with
  | request hpc _ _ _ => exact hreading hpc
  | eof hpc => exact hreading hpc
  | @visit e rest u hpc ht =>
      exact h.loop (e := e) (by rw [hpc]; rfl) rfl rfl rfl
  | @release e rest u hpc =>
      exact h.loop (e := e) (by rw [hpc]; rfl) rfl rfl rfl
  | finishAbort hpc hline =>
      have hin : k.incoming c = [] := h.incoming.resolve_right (by simp [hpc, Pc.loop])
      refine ⟨?_, .inl (.inl rfl), .inl hin⟩
      refine h.errand.imp_right (And.imp_right fun hout => .inl ?_)
      rw [Task.unread_sent horder.consumed rfl]
      rcases hout with hneg | ⟨hnone, -⟩
      · exact hneg.append _
      · rw [hnone]
        exact negative_text rfl hline
  | finishCrash hpc hline =>
      have hin : k.incoming c = [] := h.incoming.resolve_right (by simp [hpc, Pc.loop])
      refine ⟨h.errand.imp_right (And.imp_right ?_), .inr (.inl rfl), .inl hin⟩
      exact Or.imp_right (And.imp_right fun _ => .inl rfl)
  | finishDestroy hpc =>
      refine ⟨h.errand.imp_right (And.imp_right ?_), .inl (.inr (.inl rfl)), .inr (.inl rfl)⟩
      rintro (hneg | ⟨-, habort⟩)
      · exact .inl hneg
      · exact absurd habort (by simp [Aborting, Pc.loop, hpc])
  | _ => simp [Lost, Aborting, Pc.loop, *] at hcases

theorem encode_ne_nil {m : Message} {line : Str} (h : encode m = .ok line) : line ≠ [] := by
  obtain ⟨word, -, rfl, -⟩ := encode_eq_ok.mp h
  simp

/-- What a BYE makes of a connection outside a transaction. -/
theorem chat_bye (htx : c.inTransaction = false) : c.chatWithClient p byeLine = { c with
    received := c.received ++ [byeLine], sent := c.sent ++ [okLine], pc := .closed } := by
  have hdecode : decode (cstr byeLine) = .ok { messageType := .bye } := by decide
  rw [chatWithClient_bye p hdecode rfl, Conn.leave, if_neg (by simp [htx])]

/-- The server takes a request of the run. -/
theorem received_stage {j : Nat} {x : Exchange} {line got : Str} (huser : Printable user)
    (htable : Identifier table) (hkey : Identifier key)
    (hreq : (increment user table key)[j]? = some x) (hline : encode x.request = .ok line)
    (hgot : got = (readLoop (maxEncodedLen - 1) line).1)
    (herrand : k.errand = .await x ((increment user table key).drop (j + 1))) (horder : InOrder k c)
    (hready : Ready p key t j c ops) (hin : k.incoming c = line) (hout : k.unread c = []) :
    Stage p user table key t k (c.chatWithClient p got) (opsRead c ops) [] := by
  cases hm : decode (cstr got) with
  | error e =>
      obtain ⟨resp, hneg, hreceived, hsent, hpc⟩ := refused_malformed (p := p) (c := c) hm
      refine .lost ⟨.inr ⟨⟨_, _, herrand, increment_reply hreq⟩, .inl ?_⟩, .inl (.inr hpc), .inr hpc⟩ rfl
      rw [Task.unread_sent horder.consumed hsent, hout]
      exact hneg
  | ok m =>
      obtain ⟨hwhole, hreqm⟩ := request_decodes huser htable hkey hreq hline hgot hm
      have hready' : Ready p key t j { c with received := c.received ++ [got] } ops :=
        hready.congr rfl rfl
      rw [chatWithClient_ok p hm]
      refine (outcome hreq hreqm hready').stage hreq herrand horder.consumed ?_ ?_
      · have hincoming : k.incoming { c with received := c.received ++ [got] }
            = (k.incoming c).drop got.length := Task.incoming_received rfl
        rw [hincoming, hin, hwhole, List.drop_length]
      · rw [← hout]
        exact Task.unread_congr rfl rfl

/-- A step of a COMMIT under way: the loop goes on, or the COMMIT is answered. -/
theorem Moves.committing (h : Moves p sv c ch effect c') (hloop : c.pc.loop = some .commit) :
    (∀ visible ops, opsNext visible ops (c.call ch effect) = ops) ∧ c'.received = c.received ∧
      (c'.pc.loop = some .commit ∧ c'.inTransaction = c.inTransaction ∧ c'.sent = c.sent ∧
          c.view.answers c'.view = false ∧ c.view.ends c'.view = false ∨
        c'.pc = .reading ∧ c'.inTransaction = false ∧ c'.sent = c.sent ++ [okLine] ∧
          c.view.answers c'.view = true) := by
  cases h with
  | @visit e rest u hpc ht =>
      obtain rfl : e = .commit := by
        rw [hpc] at hloop
        exact Option.some.inj hloop
      refine ⟨fun _ _ => rfl, rfl, .inl ⟨rfl, rfl, rfl, ?_, ?_⟩⟩
      · simp [Conn.view, hpc, Ending.commits, TwoPhase.View.answers]
      · simp [Conn.view, hpc, TwoPhase.View.ends]
  | @release e rest u hpc =>
      obtain rfl : e = .commit := by
        rw [hpc] at hloop
        exact Option.some.inj hloop
      refine ⟨fun _ _ => rfl, rfl, .inl ⟨rfl, rfl, rfl, ?_, ?_⟩⟩
      · simp [Conn.view, hpc, Ending.commits, TwoPhase.View.answers]
      · simp [Conn.view, hpc, TwoPhase.View.ends]
  | finishCommit hpc =>
      refine ⟨fun _ _ => rfl, rfl, .inr ⟨rfl, rfl, rfl, ?_⟩⟩
      simp [Conn.view, hpc, Ending.commits, TwoPhase.View.answers]
  | _ =>
      rw [‹c.pc = _›] at hloop
      cases hloop

/-- **The server's turn.** -/
theorem Stage.turn {item : Item} (h : Stage p user table key t k c ops done) (horder : InOrder k c)
    (hwf : c.WF) (huser : Printable user) (htable : Identifier table) (hkey : Identifier key)
    (hfound : sv.findTable table = some t) (hstep : c.step p sv ch = some (effect, c'))
    (hrecv : ∀ line, ch = .recv line → line = (readLoop (maxEncodedLen - 1) (k.incoming c)).1)
    (heof : ch = .eof → k.incoming c = [] ∧ k.hasReturned)
    (hops : c.view.ends c'.view = false →
      ops' = opsNext (fun u => (sv.tables u).visible) ops (c.call ch effect))
    (hitem : item.ops = opsNext (fun u => (sv.tables u).visible) ops (c.call ch effect))
    (hanswered : done' = if c.view.answers c'.view then done ++ [item] else done) :
    Stage p user table key t k c' ops' done' := by
  have hmoves := step_moves hwf hstep
  have hkeep : c.view.answers c'.view = false → done' = done := fun hno => by
    rw [hanswered, hno]
    exact if_neg Bool.false_ne_true
  have hrest : c.pc = .reading → k.incoming c = [] → k.hasReturned = false →
      Stage p user table key t k c' ops' done' := by
    intro hpc hin herrand
    obtain ⟨hch, -⟩ := idle_moves hmoves hpc hin hrecv
    have hreturned := (heof hch).2
    rw [herrand] at hreturned
    cases hreturned
  cases h with
  | ask hj herrand hpc hready hin hout hdone => exact hrest hpc hin (by simp [Task.hasReturned, herrand])
  | replied hj hreq herrand hpc hready hin hout hdone => exact hrest hpc hin (by simp [Task.hasReturned, herrand])
  | lost hstranded hdone =>
      rw [hkeep (answers_lost hstranded.lost _)]
      exact .lost (hstranded.turn horder hmoves hrecv fun hch => (heof hch).2) hdone
  | @sent j x line hreq hline herrand hpc hready hin hout hdone =>
      obtain ⟨hno, hends⟩ := answers_reading hpc c'.view
      rw [hkeep hno, hdone]
      rcases reading_step hpc hstep with ⟨got, rfl, rfl, rfl⟩ | rfl
      · have hgot := hrecv got rfl
        rw [hin] at hgot
        rw [hops hends, opsNext_recv]
        exact received_stage huser htable hkey hreq hline hgot herrand horder hready hin hout
      · exact absurd (hin.symm.trans (heof rfl).1) (encode_ne_nil hline)
  | @busy j x hreq herrand hbusy hin hout hdone =>
      cases hbusy with
      | get hat htx hstack =>
          have hview := hat.view htx
          rw [hkeep (by rw [hview]; rfl), hdone, hops (by rw [hview]; rfl),
            hmoves.call_eq hat.ne_reading]
          exact ((Busy.get hat htx hstack).moves (by decide) hfound hmoves).stage hreq herrand
            horder.consumed hin hout
      | set hat htx hbump =>
          have hview := hat.view htx
          rw [hkeep (by rw [hview]; rfl), hdone, hops (by rw [hview]; rfl),
            hmoves.call_eq hat.ne_reading]
          exact ((Busy.set hat htx hbump).moves (by decide) hfound hmoves).stage hreq herrand
            horder.consumed hin hout
      | commit hloop htx hinc =>
          obtain ⟨hcall, hreceived, hcourse⟩ := hmoves.committing hloop
          have hin' : k.incoming c' = [] := (Task.incoming_congr rfl hreceived).trans hin
          rcases hcourse with ⟨hloop', htx', hsent, hno, hends⟩ | ⟨hpc', htx', hsent, hyes⟩
          · have hout' : k.unread c' = [] := (Task.unread_congr rfl hsent).trans hout
            rw [hkeep hno, hdone, hops hends, hcall]
            exact .busy hreq herrand (.commit hloop' (htx'.trans htx) hinc) hin' hout' rfl
          · refine .replied (by decide) hreq herrand hpc' htx' hin' ?_ ?_
            · rw [Task.unread_sent horder.consumed hsent, hout, List.nil_append]
            · rw [hanswered, hdone, if_pos hyes]
              refine ⟨item, rfl, ?_⟩
              rw [hitem, hcall]
              exact hinc
  | bye herrand hpc htx hin hdone =>
      rw [hkeep (answers_reading hpc _).1]
      rcases reading_step hpc hstep with ⟨got, rfl, rfl, rfl⟩ | rfl
      · have hgot := hrecv got rfl
        rw [hin] at hgot
        obtain rfl : got = byeLine := hgot
        rw [chat_bye htx]
        exact .gone herrand rfl hdone
      · exact absurd (hin.symm.trans (heof rfl).1) (by decide)
  | gone herrand hpc hdone =>
      cases ch with
      | recv line => simp [Conn.step, hpc] at hstep
      | eof => simp [Conn.step, hpc] at hstep
      | go => simp [Conn.step, Conn.go, hpc] at hstep
      | visit u => simp [Conn.step, hpc] at hstep

end Stages

/-! ### All that is known of a run -/

structure Tracked (p : Platform) (user table key : Str) (t : TablePtr) (k : Task) (c : Conn)
    (ops : Ops) (done : List Item) : Prop where
  stage : Stage p user table key t k c ops done
  inOrder : InOrder k c

section Tracked

variable {p : Platform} {user table key buf : Str} {t : TablePtr} {k k' : Task} {c c' : Conn}
  {ops ops' : Ops} {done done' : List Item}

theorem tracked_start :
    Tracked p user table key t (.start (increment user table key) buf) {} [] [] where
  stage := .ask (Nat.zero_le 7) rfl rfl ⟨rfl, rfl⟩ rfl rfl (done_of_lt (by decide) rfl)
  inOrder := ⟨Nat.le_refl 0, Nat.le_refl 0⟩

theorem Tracked.write (h : Tracked p user table key t k c ops done) (hwrite : k.write = some k') :
    Tracked p user table key t k' c ops done :=
  ⟨h.stage.write h.inOrder hwrite, h.inOrder.write hwrite⟩

theorem Tracked.read (h : Tracked p user table key t k c ops done)
    (harrived : Arrived (k.unread c) ∨ c.pc = .closed) (hread : k.read (k.unread c) = some k') :
    Tracked p user table key t k' c ops done :=
  ⟨h.stage.read harrived hread, h.inOrder.read hread⟩

/-- A run is over with a COMMIT answered and exit code 0, or with nothing answered and 1. -/
theorem Tracked.ended (h : Tracked p user table key t k c ops done) (hpc : c.pc = .closed)
    {code : Nat} (hreturned : k.errand = .returned code) :
    done.length = (if code = 0 then 1 else 0) ∧ ∀ item ∈ done, Increment p (t, key) item.ops := by
  cases h.stage with
  | lost hstranded hdone =>
      rcases hstranded.errand with herrand | ⟨⟨x, xs, herrand, -⟩, -⟩
      · cases hreturned.symm.trans herrand
        rw [hdone]
        exact ⟨rfl, nofun⟩
      · cases hreturned.symm.trans herrand
  | gone herrand _ hdone =>
      obtain ⟨item, rfl, hincrement⟩ := hdone
      cases hreturned.symm.trans herrand
      exact ⟨rfl, fun x hx => List.mem_singleton.mp hx ▸ hincrement⟩
  | busy _ _ hbusy _ _ _ => exact absurd hpc hbusy.not_closed
  | ask _ _ hreading _ _ _ _ => cases hpc.symm.trans hreading
  | sent _ _ _ hreading _ _ _ _ => cases hpc.symm.trans hreading
  | replied _ _ _ hreading _ _ _ _ => cases hpc.symm.trans hreading
  | bye _ hreading _ _ _ => cases hpc.symm.trans hreading

end Tracked

end KvServer
