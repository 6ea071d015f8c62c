/-
The server executes the lines of its input, and nothing out of a line it rejects.

What a client sends is a stream of bytes.  `accepted` says which requests are in it: those
of its lines, one after the other, up to the first line that is not one.  A line that does
not fit the buffer is cut, but the piece that is read has no newline and is rejected, and
the connection is given up before the rest is looked at.
-/
import KvServer.Proofs.Replies
import KvServer.Proofs.Solo

namespace KvServer

/-! ### What is in a stream of bytes

`accepted` is said of the stream without buffers or reads. That the server cannot look past a
line that does not fit is `read_cases`: what it stores of such a line is rejected.
-/

/-- The lines of a stream that are terminated. -/
def streamLines (input : Str) : List Str :=
  (input.splitOn newline).dropLast.map (· ++ [newline])

/-- The requests in the lines of a stream. -/
def accepted (loggedIn : Bool) : List Str → List Message
  | [] => []
  | line :: rest =>
      if maxEncodedLen - 1 < line.length ∨ nul ∈ line then []
      else
        match decode line with
        | .error _ => []
        | .ok m =>
            if loggedIn ∧ m.messageType.isResponse then []
            else if m.messageType = .bye then [m]
            else m :: accepted (loggedIn || m.messageType = .login) rest

theorem streamLines_line {line : Str} (h : newline ∉ line) (more : Str) :
    streamLines (line ++ newline :: more) = (line ++ [newline]) :: streamLines more := by
  unfold streamLines
  rw [List.splitOn_append_cons_self_of_not_mem h, List.dropLast_cons_of_ne_nil (by simp)]
  rfl

theorem streamLines_unterminated {input : Str} (h : newline ∉ input) : streamLines input = [] := by
  unfold streamLines
  rw [List.splitOn_eq_singleton h]
  rfl

theorem decode_unterminated {s : Str} (h : newline ∉ s) : ∃ e, decode s = .error e := by
  cases hs : decode s with
  | error e => exact ⟨e, rfl⟩
  | ok m => exact absurd (List.mem_of_getLast? (decode_eq_ok.mp hs).terminated) h

theorem newline_notMem_cstr {buf : Str} (h : newline ∉ buf) : newline ∉ cstr buf :=
  fun hc => h ((List.takeWhile_sublist _).subset hc)

/-- With a NUL in it a line loses its newline. -/
theorem decode_nul {line : Str} (h : newline ∉ line) (hnul : nul ∈ line) :
    ∃ e, decode (cstr (line ++ [newline])) = .error e := by
  obtain ⟨before, after, rfl, hbefore⟩ := List.eq_append_cons_of_mem hnul
  rw [List.append_assoc, List.cons_append, cstr_append_nul]
  exact decode_unterminated (newline_notMem_cstr fun hc => h (List.mem_append_left _ hc))

/--
**What one `rio_readlineb` stores** is a line of the stream and can be decoded as it is, or
is rejected; then there is no request in the rest of the stream.
-/
theorem read_cases {rest line : Str} (hread : (readLoop (maxEncodedLen - 1) rest).1 = line) :
    (∃ e, decode (cstr line) = .error e) ∧ (∀ loggedIn, accepted loggedIn (streamLines rest) = []) ∨
    cstr line = line ∧ line.length ≤ maxEncodedLen - 1 ∧ nul ∉ line ∧
      streamLines rest = line :: streamLines (rest.drop line.length) := by
  by_cases hnewline : newline ∈ rest
  · obtain ⟨body, more, rfl, hbody⟩ := List.eq_append_cons_of_mem hnewline
    have hlines := streamLines_line hbody more
    by_cases hlong : maxEncodedLen - 1 ≤ body.length
    · -- too long: the piece has no newline
      rw [readLoop_cut hbody _ _ hlong] at hread
      have hpiece : newline ∉ line := fun hc => hbody (List.mem_of_mem_take (hread ▸ hc))
      refine .inl ⟨decode_unterminated (newline_notMem_cstr hpiece), fun loggedIn => ?_⟩
      have hlength : maxEncodedLen - 1 < (body ++ [newline]).length := by
        rw [List.length_append, List.length_singleton]
        omega
      rw [hlines, accepted, if_pos (.inl hlength)]
    · rw [readLoop_line hbody more _ (by omega)] at hread
      obtain rfl : body ++ [newline] = line := hread
      by_cases hnul : nul ∈ body
      · refine .inl ⟨decode_nul hbody hnul, fun loggedIn => ?_⟩
        rw [hlines, accepted, if_pos (.inr (List.mem_append_left _ hnul))]
      · have hclean : nul ∉ body ++ [newline] := by
          rw [List.mem_append, List.mem_singleton]
          exact not_or.mpr ⟨hnul, by decide⟩
        refine .inr ⟨cstr_eq_self hclean, ?_, hclean, ?_⟩
        · rw [List.length_append, List.length_singleton]
          omega
        · have hdrop : (body ++ newline :: more).drop (body ++ [newline]).length = more := by
            rw [List.append_cons body newline more, List.drop_left]
          rw [hlines, hdrop]
  · -- the end of the input cuts it off
    have hsplit := readLoop_append (maxEncodedLen - 1) rest
    rw [hread] at hsplit
    have hpiece : newline ∉ line := fun hc =>
      hnewline (hsplit ▸ List.mem_append_left _ hc)
    refine .inl ⟨decode_unterminated (newline_notMem_cstr hpiece), fun loggedIn => ?_⟩
    rw [streamLines_unterminated hnewline, accepted]

/-! ### How a line is answered

Every request but BYE leaves a session that goes on, with an answer that is not ERROR, or ends
the process. An ERROR therefore comes of a line that is no request, or of a TOP that cannot be
sent.
-/

/-- A session that has been given an answer other than ERROR and goes on, or has crashed. -/
def Solo.GoesOn (σ σ' : Solo) : Prop :=
  σ'.status = .crashed ∨ σ'.status = σ.status ∧
    ∃ resp, σ'.sent = σ.sent ++ [resp] ∧ isErrorLine resp = false

section GoesOn

variable {p : Platform} {σ σ' : Solo}

theorem goesOn_ok (h : σ'.status = σ.status) (hsent : σ'.sent = σ.sent) : σ.GoesOn σ'.ok :=
  .inr ⟨h, okLine, by rw [Solo.ok, hsent], by decide⟩

theorem goesOn_respond {resp : Message} (h : σ'.status = σ.status) (hsent : σ'.sent = σ.sent)
    (htype : resp.messageType ≠ .error) : σ.GoesOn (σ'.respond resp) := by
  unfold Solo.respond
  cases hline : encode resp with
  | ok line => exact .inr ⟨h, line, by rw [hsent], by simp [encode_isError hline, htype]⟩
  | error e => exact .inl rfl

theorem goesOn_failed (h : σ'.status = σ.status) (hsent : σ'.sent = σ.sent) (what : Str) :
    σ.GoesOn (σ'.failed what) :=
  goesOn_respond h hsent nofun

theorem goesOn_access (h : σ'.status = σ.status) (hsent : σ'.sent = σ.sent) (a : Access) :
    σ.GoesOn (σ'.access a) := by
  unfold Solo.access
  split
  · cases a with
    | get name key =>
        show σ.GoesOn (σ'.get name key)
        unfold Solo.get
        split
        · exact goesOn_ok h hsent
        · exact goesOn_failed h hsent _
    | set name key value => exact goesOn_ok h hsent
  · exact goesOn_failed h hsent _

theorem goesOn_arithmetic (op : ArithOp) : σ.GoesOn (σ.arithmetic p op) := by
  unfold Solo.arithmetic
  split
  · split
    · exact goesOn_ok rfl rfl
    · rename_i e he
      rcases result_error he with ⟨what, rfl⟩ | rfl
      · exact goesOn_failed rfl rfl what
      · exact .inl rfl
  · exact goesOn_failed rfl rfl _

theorem goesOn_top (hstack : ∀ v ∈ σ.stack, Storable v) : σ.GoesOn σ.top := by
  unfold Solo.top
  split
  · exact goesOn_failed rfl rfl _
  · rename_i value rest heq
    obtain ⟨line, hline⟩ := (hstack value (by simp [heq])).data
    rw [hline]
    exact .inr ⟨rfl, line, rfl, by simp [encode_isError hline]⟩

/-- **A request** other than BYE is answered, and the session goes on. -/
theorem request_goesOn {m : Message} (hstack : ∀ v ∈ σ.stack, Storable v)
    (hbye : m.messageType ≠ .bye) (hresponse : ¬ (σ.loggedIn ∧ m.messageType.isResponse))
    (hnone : m.messageType ≠ .none) : σ.GoesOn (σ.request p m) := by
  unfold Solo.request
  split
  · exact goesOn_failed rfl rfl _
  · rename_i hin
    cases htype : m.messageType with
    | none => exact absurd htype hnone
    | bye => exact absurd htype hbye
    | login =>
        show σ.GoesOn σ.login
        unfold Solo.login
        split
        · exact goesOn_failed rfl rfl _
        · exact goesOn_ok rfl rfl
    | create =>
        show σ.GoesOn (σ.create _)
        unfold Solo.create
        split
        · exact goesOn_failed rfl rfl _
        · exact goesOn_ok rfl rfl
    | get => exact goesOn_access rfl rfl _
    | set =>
        show σ.GoesOn (σ.takeSet _ _)
        unfold Solo.takeSet
        split
        · exact goesOn_failed rfl rfl _
        · exact goesOn_access rfl rfl _
    | push => exact goesOn_ok rfl rfl
    | pop =>
        show σ.GoesOn σ.pop
        unfold Solo.pop
        split
        · exact goesOn_failed rfl rfl _
        · exact goesOn_ok rfl rfl
    | top => exact goesOn_top hstack
    | add => exact goesOn_arithmetic .add
    | sub => exact goesOn_arithmetic .sub
    | mul => exact goesOn_arithmetic .mul
    | div => exact goesOn_arithmetic .div
    | begin =>
        show σ.GoesOn σ.begin
        unfold Solo.begin
        split
        · exact goesOn_failed rfl rfl _
        · exact goesOn_ok rfl rfl
    | commit =>
        show σ.GoesOn σ.commit
        unfold Solo.commit
        split
        · exact goesOn_ok rfl rfl
        · exact goesOn_failed rfl rfl _
    | _ =>
        rw [htype] at hin hresponse
        cases hlog : σ.loggedIn with
        | true => exact absurd ⟨hlog, rfl⟩ hresponse
        | false => exact absurd ⟨nofun, nofun, by rw [hlog]; rfl⟩ hin

end GoesOn

/-! ### The lines of a connection

Answers keep count with the lines, so which lines have been executed can be seen from what was
sent; no record is needed beside the run.
-/

/-- The requests among some lines that have been answered, and not with ERROR. -/
def executedOf (received sent : List Str) : List Message :=
  (received.zip sent).filterMap fun (line, resp) =>
    if isErrorLine resp then none else (decode (cstr line)).toOption

def Conn.executed (c : Conn) : List Message := executedOf c.received c.sent

/-- What a connection has not read of its input. -/
def Conn.unread (c : Conn) (input : Str) : Str := input.drop c.received.flatten.length

section Lines

variable {p : Platform} {sv : Server} {c c' : Conn} {ch : Choice} {effect : Effect} {line : Str}

/-- A request that is neither BYE nor refused is answered, or answered later, or traps. -/
theorem line_goesOn {m : Message} (hstack : ∀ v ∈ c.stack.vector, Storable v)
    (hm : decode (cstr line) = .ok m) (hbye : m.messageType ≠ .bye)
    (hresponse : ¬ (c.loggedIn ∧ m.messageType.isResponse)) :
    (c.chatWithClient p line).pc.gone = false ∧ ∃ more,
      (c.chatWithClient p line).sent = c.sent ++ more ∧ ∀ resp ∈ more, isErrorLine resp = false := by
  have hserved := served p line c
  have hnone : m.messageType ≠ .none := by
    intro htype
    obtain ⟨⟨word, tail, hword, -⟩, -⟩ := (decode_eq_ok.mp hm).line
    rw [htype] at hword
    cases hword
  -- the tables do not matter to the way a request is answered
  let st : Store := ⟨fun _ => false, fun _ _ => none, fun _ _ => none⟩
  have hsettle := line_settle p c st line
  have hgoes : (c.session st).GoesOn ((c.session st).request p m) :=
    request_goesOn hstack hbye hresponse hnone
  rw [Solo.line, hm] at hsettle
  change _ = (c.session st).request p m at hsettle
  rw [← hsettle] at hgoes
  generalize c.chatWithClient p line = c' at hserved hgoes
  cases hserved with
  | reply hresp htx hlogin hstack =>
      rcases hgoes with hcrash | ⟨-, resp, hsent, hcalm⟩
      · cases hcrash
      · refine ⟨rfl, [_], rfl, fun resp' hmem => ?_⟩
        obtain rfl := List.mem_singleton.mp hmem
        obtain rfl : _ = resp := List.singleton_inj.mp (List.append_cancel_left hsent)
        exact hcalm
  | leave hresp hleft =>
      rcases hgoes with hcrash | ⟨hlive, -⟩
      · cases hcrash.symm.trans (leave_status rfl)
      · cases hlive.symm.trans (leave_status rfl)
  | _ => exact ⟨rfl, [], (List.append_nil _).symm, List.forall_mem_nil _⟩

theorem executedOf_append {received sent : List Str} (h : sent.length = received.length)
    (line resp : Str) : executedOf (received ++ [line]) (sent ++ [resp])
      = executedOf received sent ++ executedOf [line] [resp] := by
  unfold executedOf
  rw [List.zip_append h.symm, List.filterMap_append]

theorem executedOf_calm {received sent : List Str} {ms : List Message}
    (hdecoded : received.map (fun line => decode (cstr line)) = ms.map .ok)
    (hcalm : ∀ resp ∈ sent, isErrorLine resp = false) :
    executedOf received sent = ms.take sent.length := by
  induction received generalizing sent ms with
  | nil =>
      obtain rfl := List.map_eq_nil_iff.mp hdecoded.symm
      simp [executedOf]
  | cons line received ih =>
      obtain ⟨m, ms, rfl, hm, hms⟩ := List.map_eq_cons_iff.mp hdecoded.symm
      cases sent with
      | nil => rfl
      | cons resp sent =>
          have hrest := ih hms.symm fun r hr => hcalm r (List.mem_cons_of_mem _ hr)
          have hresp := hcalm resp List.mem_cons_self
          unfold executedOf at hrest ⊢
          rw [List.zip_cons_cons,
            List.filterMap_cons_some (b := m) (by simp [hresp, ← hm, Except.toOption]),
            hrest]
          rfl

/-- A connection that goes on has read requests, and has more to read. -/
structure Going (input : Str) (c : Conn) (ms : List Message) : Prop where
  decoded : c.received.map (fun line => decode (cstr line)) = ms.map .ok
  calm : ∀ resp ∈ c.sent, isErrorLine resp = false
  rest : accepted false (streamLines input)
    = ms ++ accepted c.loggedIn (streamLines (c.unread input))

/-- What a connection has read and answered, as far as its input goes. -/
structure Framed (input : Str) (c : Conn) : Prop where
  counted : c.sent.length + c.pc.owes = c.received.length
  going : c.pc.gone = false → ∃ ms, Going input c ms
  gone : c.pc.gone = true → c.executed = accepted false (streamLines input)

theorem Going.executed {input : Str} {ms : List Message} (h : Going input c ms) :
    c.executed = ms.take c.sent.length :=
  executedOf_calm h.decoded h.calm

/-- Between two requests, all that has been read has been executed. -/
theorem Going.executed_reading {input : Str} {ms : List Message} (h : Going input c ms)
    (hcounted : c.sent.length = c.received.length) : c.executed = ms := by
  have hlength := congrArg List.length h.decoded
  rw [List.length_map, List.length_map] at hlength
  rw [h.executed, hcounted, hlength, List.take_length]

theorem unread_line {input : Str} (hreceived : c'.received = c.received ++ [line]) :
    c'.unread input = (c.unread input).drop line.length := by
  unfold Conn.unread
  rw [hreceived, List.drop_drop, List.flatten_append, List.length_append, List.flatten_singleton]

/-- The last line of a connection has nothing after it. -/
theorem Going.last {input resp : Str} {ms : List Message} (h : Going input c ms)
    (hcounted : c.sent.length = c.received.length) (hpc : c'.pc = c.leave)
    (hreceived : c'.received = c.received ++ [line]) (hsent : c'.sent = c.sent ++ [resp])
    (hlast : accepted c.loggedIn (streamLines (c.unread input)) = executedOf [line] [resp]) :
    Framed input c' where
  counted := by
    rw [hpc, hreceived, hsent, leave_owes, List.length_append, List.length_append, hcounted]
    rfl
  going hgone := by
    rw [hpc, leave_gone] at hgone
    cases hgone
  gone _ := by
    rw [Conn.executed, hreceived, hsent, executedOf_append hcounted, h.rest, hlast]
    exact congrArg (· ++ _) (h.executed_reading hcounted)

/-- An answer with ERROR is to no request. -/
theorem executedOf_error {resp : Str} (h : isErrorLine resp = true) :
    executedOf [line] [resp] = [] := by
  simp [executedOf, h]

/-- Who is logged in after a line. -/
theorem line_loggedIn {m : Message} (hm : decode (cstr line) = .ok m)
    (hstranger : c.loggedIn = false → c.Stranger) :
    (c.chatWithClient p line).loggedIn = (c.loggedIn || m.messageType = .login) := by
  cases hin : c.loggedIn with
  | true => exact (served p line c).loggedIn hin
  | false =>
      rcases (hstranger hin).line p line with ⟨hnot, hstill⟩ | ⟨m', hm', htype, heq⟩
      · rw [hstill.loggedIn, Bool.false_or]
        exact (decide_eq_false (hnot m hm)).symm
      · obtain rfl := Except.ok.inj (hm.symm.trans hm')
        rw [heq, Bool.false_or]
        exact (decide_eq_true htype).symm

/-- **A line that is read** is the next of the input, or the last of the connection. -/
theorem Framed.reads {input : Str} (h : Framed input c) (hpc : c.pc = .reading)
    (hstack : ∀ v ∈ c.stack.vector, Storable v) (hstranger : c.loggedIn = false → c.Stranger)
    (hread : (readLoop (maxEncodedLen - 1) (c.unread input)).1 = line) :
    Framed input (c.chatWithClient p line) := by
  obtain ⟨ms, hgoing⟩ := h.going (by rw [hpc]; rfl)
  have hcounted : c.sent.length = c.received.length := by simpa [hpc, Pc.owes] using h.counted
  have hserved := served p line c
  have hreceived : (c.chatWithClient p line).received = c.received ++ [line] := hserved.received
  rcases read_cases hread with ⟨⟨e, he⟩, hnone⟩ | ⟨hcstr, hshort, hclean, hlines⟩
  · -- no line of the input
    obtain ⟨what, resp, -, hresp, heq⟩ := chatWithClient_error p (c := c) he
    rw [heq]
    refine hgoing.last hcounted rfl rfl rfl ?_
    rw [hnone, executedOf_error (by simp [encode_isError hresp])]
  · have hnext : accepted c.loggedIn (streamLines (c.unread input)) =
        match decode line with
        | .error _ => []
        | .ok m =>
            if c.loggedIn ∧ m.messageType.isResponse then []
            else if m.messageType = .bye then [m]
            else m :: accepted (c.loggedIn || m.messageType = .login)
              (streamLines ((c.unread input).drop line.length)) := by
      rw [hlines, accepted, if_neg (not_or.mpr ⟨Nat.not_lt.mpr hshort, hclean⟩)]
    cases hm : decode line with
    | error e =>
        obtain ⟨what, resp, -, hresp, heq⟩ := chatWithClient_error p (c := c) (hcstr ▸ hm)
        rw [heq]
        refine hgoing.last hcounted rfl rfl rfl ?_
        rw [hnext, hm, executedOf_error (by simp [encode_isError hresp])]
    | ok m =>
        rw [hm] at hnext
        have hm' : decode (cstr line) = .ok m := by rw [hcstr, hm]
        by_cases hresponse : c.loggedIn ∧ m.messageType.isResponse
        · have hreq : m.messageType.isRequest = false := by
            have hanswer := hresponse.2
            cases htype : m.messageType <;> rw [htype] at hanswer <;> first | rfl | cases hanswer
          obtain ⟨what, resp, -, hresp, heq⟩ :=
            chatWithClient_refused p hm' hresponse.1 (.inl hreq)
          rw [heq]
          refine hgoing.last hcounted rfl rfl rfl ?_
          rw [hnext, executedOf_error (by simp [encode_isError hresp])]
          exact if_pos hresponse
        · by_cases hbye : m.messageType = .bye
          · rw [chatWithClient_bye p hm' hbye]
            refine hgoing.last hcounted rfl rfl rfl ?_
            rw [hnext]
            dsimp only
            rw [if_neg hresponse, if_pos hbye]
            have hok : isErrorLine okLine = false := by decide
            simp [executedOf, hok, hm', Except.toOption]
          · obtain ⟨hgone, more, hsent, hcalm⟩ := line_goesOn (p := p) hstack hm' hbye hresponse
            have hlogin := line_loggedIn (p := p) hm' hstranger
            refine ⟨?_, fun _ => ⟨ms ++ [m], ?_, ?_, ?_⟩, fun h => by cases hgone.symm.trans h⟩
            · exact (hserved.answered).trans (by rw [hcounted, hreceived, List.length_append]; rfl)
            · rw [hreceived, List.map_append, hgoing.decoded, List.map_append]
              simp [hm']
            · intro resp hresp
              rw [hsent] at hresp
              rcases List.mem_append.mp hresp with hold | hnew
              · exact hgoing.calm resp hold
              · exact hcalm resp hnew
            · rw [hgoing.rest, hnext, hlogin, unread_line hreceived, List.append_assoc]
              dsimp only
              rw [if_neg hresponse, if_neg hbye]
              rfl

/-- At the end of the input there is no request left. -/
theorem Framed.hangs_up {input : Str} (h : Framed input c) (hpc : c.pc = .reading)
    (hend : c.unread input = []) : Framed input { c with pc := c.leave } where
  counted := by
    have hcounted := h.counted
    rw [hpc] at hcounted
    exact (congrArg (c.sent.length + ·) (leave_owes c)).trans hcounted
  going hgone := by cases (leave_gone c).symm.trans hgone
  gone _ := by
    obtain ⟨ms, hgoing⟩ := h.going (by rw [hpc]; rfl)
    have hcounted : c.sent.length = c.received.length := by simpa [hpc, Pc.owes] using h.counted
    rw [hgoing.rest, hend, streamLines_unterminated (by simp), accepted, List.append_nil]
    exact hgoing.executed_reading hcounted

theorem Answers.calm {result : Except Exn Unit} {resp : Str} (h : Answers result resp) :
    isErrorLine resp = false := by
  cases h with
  | ok => decide
  | failed hwhat hline => simp [encode_isError hline]

/-- What a step inside a request does to what has been answered. -/
theorem Moves.calm (h : Moves p sv c ch effect c') (hpc : c.pc ≠ .reading) :
    c'.loggedIn = c.loggedIn ∧ ∃ more, c'.sent = c.sent ++ more ∧
      (∀ resp ∈ more, isErrorLine resp = false) ∧ (c.pc.gone = true → more = []) := by
  have hone : ∀ {resp : Str}, isErrorLine resp = false → c.pc.gone = false →
      ∃ more, c.sent ++ [resp] = c.sent ++ more ∧ (∀ resp ∈ more, isErrorLine resp = false) ∧
        (c.pc.gone = true → more = []) := fun {resp} hresp hgone =>
    ⟨[resp], rfl, fun r hr => by rwa [List.mem_singleton.mp hr], fun h => by cases hgone.symm.trans h⟩
  have hok : isErrorLine okLine = false := by decide
  cases h with
  | request hread hpos hlen h => exact absurd hread hpc
  | eof hread => exact absurd hread hpc
  | createUnlock hpc hresp => exact ⟨rfl, hone hresp.calm (by rw [hpc]; rfl)⟩
  | notFound hpc hresp => exact ⟨rfl, hone hresp.calm (by rw [hpc]; rfl)⟩
  | callGet hpc hget => exact ⟨rfl, hone hok (by rw [hpc]; rfl)⟩
  | callGetFail hpc hget hresp => exact ⟨rfl, hone hresp.calm (by rw [hpc]; rfl)⟩
  | callSet hpc => exact ⟨rfl, hone hok (by rw [hpc]; rfl)⟩
  | guardUnlock hpc hresp => exact ⟨rfl, hone hresp.calm (by rw [hpc]; rfl)⟩
  | finishCommit hpc => exact ⟨rfl, hone hok (by rw [hpc]; rfl)⟩
  | finishAbort hpc hline =>
      exact ⟨rfl, hone (by simp [encode_isError hline]) (by rw [hpc]; rfl)⟩
  | _ => exact ⟨rfl, [], (List.append_nil _).symm, nofun, fun _ => rfl⟩

theorem Framed.step {input : Str} (h : Framed input c) (hmoves : Moves p sv c ch effect c')
    (hpc : c.pc ≠ .reading) : Framed input c' := by
  have hreceived := hmoves.received_same hpc
  have hgone := hmoves.gone hpc
  obtain ⟨hlogin, more, hsent, hcalm, hnone⟩ := hmoves.calm hpc
  refine ⟨hmoves.answered h.counted, fun hgoing => ?_, fun hgone' => ?_⟩
  · obtain ⟨ms, hms⟩ := h.going (hgone ▸ hgoing)
    refine ⟨ms, hreceived ▸ hms.decoded, fun resp hresp => ?_, ?_⟩
    · rw [hsent] at hresp
      rcases List.mem_append.mp hresp with hold | hnew
      · exact hms.calm resp hold
      · exact hcalm resp hnew
    · rw [hlogin, Conn.unread, hreceived]
      exact hms.rest
  · rw [hgone] at hgone'
    rw [Conn.executed, hreceived, hsent, hnone hgone', List.append_nil]
    exact h.gone hgone'

end Lines

/-! ### Runs

The input is fixed before the run, and what a turn reads is what `rio_readlineb` makes of the
rest of it.
-/

/-- Connection `i` reads the bytes of `input`, as `rio_readlineb` has them, and comes to the
end of it when they have all been read. -/
def State.Fed (input : Str) (i : ConnId) (s : State) (a : Turn) : Prop :=
  a.conn = i →
    match a.choice with
    | .recv line => (readLoop (maxEncodedLen - 1) ((s.conns i).unread input)).1 = line
    | .eof => (s.conns i).unread input = []
    | _ => True

instance (input : Str) (i : ConnId) (s : State) : ∀ a, Decidable (s.Fed input i a)
  | ⟨j, .recv line⟩ =>
      inferInstanceAs (Decidable (j = i →
        (readLoop (maxEncodedLen - 1) ((s.conns i).unread input)).1 = line))
  | ⟨j, .eof⟩ => inferInstanceAs (Decidable (j = i → (s.conns i).unread input = []))
  | ⟨_, .go⟩ => .isTrue fun _ => trivial
  | ⟨_, .visit _⟩ => .isTrue fun _ => trivial

section System

variable {p : Platform} {s s' : State} {a : Turn} {turns : List Turn} {input : Str} {i : ConnId}

theorem Framed.turn (h : Framed input (s.conns i)) (hstored : Stored s) (hstrangers : Strangers s)
    (hfed : s.Fed input i a) (hstep : s.step p a = some s') : Framed input (s'.conns i) := by
  obtain ⟨effect, c', hst⟩ := hstored.inv.stepped hstep
  by_cases hi : i = a.conn
  · subst hi
    rw [hst.self]
    by_cases hpc : (s.conns a.conn).pc = .reading
    · have hfed := hfed rfl
      have hrun := hst.runs
      cases hch : a.choice with
      | recv line =>
          rw [hch] at hfed
          simp only [hch, Conn.step] at hrun
          split at hrun
          · obtain ⟨rfl, rfl⟩ := Prod.mk.inj (Option.some.inj hrun)
            exact h.reads hpc (hstored.conns a.conn).stack (hstrangers a.conn) hfed
          · cases hrun
      | eof =>
          rw [hch] at hfed
          simp only [hch, Conn.step, if_pos hpc] at hrun
          obtain ⟨rfl, rfl⟩ := Prod.mk.inj (Option.some.inj hrun)
          exact h.hangs_up hpc hfed
      | go => simp [hch, Conn.step, Conn.go, hpc] at hrun
      | visit t => simp [hch, Conn.step, hpc] at hrun
    · exact h.step hst.moves hpc
  · rw [hst.other hi]
    exact h

theorem framed_initial (input : Str) : Framed input {} where
  counted := rfl
  going _ := ⟨[], rfl, nofun, rfl⟩
  gone h := by cases h

/--
**The server executes exactly the lines that were sent**: at any time, a beginning of the
requests in the stream; between two requests, all but those it has not read; and in the
end, when the connection is closed, all of them.
-/
theorem executes_the_stream
    (hfed : Transition.Along (State.step p) (State.Fed input i) State.initial turns)
    (hrun : Transition.run (State.step p) State.initial turns = some s) :
    (s.conns i).executed <+: accepted false (streamLines input) ∧
    ((s.conns i).pc = .reading → accepted false (streamLines input) = (s.conns i).executed
      ++ accepted (s.conns i).loggedIn (streamLines ((s.conns i).unread input))) ∧
    ((s.conns i).pc = .closed → (s.conns i).executed = accepted false (streamLines input)) := by
  obtain ⟨-, -, hframed⟩ := Transition.along_invariant
    (I := fun s => Stored s ∧ Strangers s ∧ Framed input (s.conns i))
    (fun h hfed hstep => ⟨h.1.step hstep, h.2.1.step h.1.inv hstep, h.2.2.turn h.1 h.2.1 hfed hstep⟩)
    ⟨stored_initial, boot_initial.strangers, framed_initial input⟩ hfed hrun
  refine ⟨?_, fun hpc => ?_, fun hpc => hframed.gone (by rw [hpc]; rfl)⟩
  · cases hgone : (s.conns i).pc.gone with
    | true => exact hframed.gone hgone ▸ List.prefix_rfl
    | false =>
        obtain ⟨ms, hms⟩ := hframed.going hgone
        rw [hms.executed, hms.rest]
        exact (List.take_prefix _ _).trans (List.prefix_append _ _)
  · obtain ⟨ms, hms⟩ := hframed.going (by rw [hpc]; rfl)
    have hcounted : (s.conns i).sent.length = (s.conns i).received.length := by
      simpa [hpc, Pc.owes] using hframed.counted
    rw [hms.executed_reading hcounted]
    exact hms.rest

end System

/-- The third line has a NUL in it, so the fourth is not looked at. -/
def spoiledInput : Str :=
  bytes "LOGIN a\nPUSH 1\nPUSH 2" ++ nul :: bytes "\nPUSH 3\n"

def spoiled : List Turn :=
  [⟨0, .recv (bytes "LOGIN a\n")⟩, ⟨0, .recv (bytes "PUSH 1\n")⟩,
    ⟨0, .recv (bytes "PUSH 2" ++ nul :: bytes "\n")⟩]

theorem executes_the_stream_spoiled :
    ∃ s, Transition.run (State.step trapping) State.initial spoiled = some s ∧
      (s.conns 0).executed = [{ messageType := .login, args := [bytes "a"] },
        { messageType := .push, args := [bytes "1"] }] := by
  have hclosed : (Transition.run (State.step trapping) State.initial spoiled).map
      (fun s => (s.conns 0).pc) = some .closed := by decide +kernel
  have hfed : Transition.Along (State.step trapping) (State.Fed spoiledInput 0) State.initial
      spoiled := by decide +kernel
  have haccepted : accepted false (streamLines spoiledInput)
      = [{ messageType := .login, args := [bytes "a"] },
        { messageType := .push, args := [bytes "1"] }] := by decide +kernel
  obtain ⟨s, hrun, hpc⟩ := Option.map_eq_some_iff.mp hclosed
  exact ⟨s, hrun, ((executes_the_stream hfed hrun).2.2 hpc).trans haccepted⟩

end KvServer
