/-
What the clients see of the server are the bytes on its descriptors.

Each run of the server on its descriptors is one of the server proper (`Refines`), so what holds of
every run of that holds here.  What the descriptors add is in `Carries` and `Sends`: the requests
that a connection executes are those in the bytes that `read` has brought, however they came, and
the bytes that `write` has taken are those of its responses, in their order.
-/
import KvServer.Model.Wire
import KvServer.Proofs.Descriptor
import KvServer.Proofs.Framing
import KvServer.Proofs.Quiescence

namespace KvServer

/-! ### What `rio_readlineb` leaves

There are four ways for it to come back, and in each the bytes that are left are those behind
what was taken.
-/

namespace Rio

variable {rp rp' : Rio} {calls : List ReadResult} {n : Nat} {input buf : Str} {line : LineRead}

theorem readLoop_ne_nil (h : Complete (n + 1) input) : (readLoop (n + 1) input).1 ≠ [] := by
  cases input with
  | nil => exact absurd h not_complete_nil
  | cons c cs =>
      unfold readLoop
      split <;> simp

/-- **How `rio_readlineb` comes back** when it has used up its calls. -/
inductive Returns (rp : Rio) (calls : List ReadResult) : LineRead → Rio → Prop
  /-- with a line, whatever comes after it -/
  | line {got : Str} {line : LineRead} {rp' : Rio} (hn : line.n = got.length) (hpos : got ≠ [])
      (hgot : line.buf.take got.length = got)
      (hsplit : rp.unread ++ brought calls = got ++ rp'.unread)
      (hread : ∀ more, (readLoop (maxEncodedLen - 1) (rp.unread ++ brought calls ++ more)).1 = got) :
      Returns rp calls line rp'
  /-- with what there was before the end of the input -/
  | last {got : Str} {line : LineRead} (hn : line.n = got.length) (hpos : got ≠ [])
      (hgot : line.buf.take got.length = got) (hsplit : rp.unread ++ brought calls = got)
      (hread : (readLoop (maxEncodedLen - 1) got).1 = got) (hline : newline ∉ got) :
      Returns rp calls line {}
  | eof {line : LineRead} (hn : line.n = 0) (hsplit : rp.unread ++ brought calls = []) :
      Returns rp calls line {}
  | failed {line : LineRead} (hn : line.n < 0) : Returns rp calls line {}

theorem readlineb_returns (h : rp.readlineb buf maxEncodedLen calls = some (line, rp', [])) :
    Returns rp calls line rp' := by
  obtain ⟨n, hn⟩ : ∃ n, maxEncodedLen - 1 = n + 1 := ⟨1022, rfl⟩
  have hread : ∀ input : Str, input ≠ [] → (rioReadlineb input buf maxEncodedLen).n
      = (readLoop (maxEncodedLen - 1) input).1.length ∧
      (rioReadlineb input buf maxEncodedLen).buf.take (readLoop (maxEncodedLen - 1) input).1.length
        = (readLoop (maxEncodedLen - 1) input).1 ∧
      (rioReadlineb input buf maxEncodedLen).rest = (readLoop (maxEncodedLen - 1) input).2 := by
    intro input hne
    simp [rioReadlineb, hne]
  by_cases hcomplete : Complete (maxEncodedLen - 1) (rp.stream calls)
  · obtain ⟨rp₁, rest, hreturned, hrest, hstop⟩ := readlineb_complete (by decide) buf hcomplete
    obtain ⟨rfl, rfl, rfl⟩ : _ = line ∧ rp₁ = rp' ∧ rest = [] := by
      simpa using hreturned.symm.trans h
    have hne : rp.stream calls ≠ [] := by
      intro hnil
      rw [hnil, hn] at hcomplete
      exact not_complete_nil hcomplete
    obtain ⟨hlength, htake, hafter⟩ := hread _ hne
    refine .line ?_ ?_ htake ?_ fun more => ?_
    · exact congrArg Int.ofNat hlength
    · rw [hn] at hcomplete ⊢
      exact readLoop_ne_nil hcomplete
    · rw [hafter, stream, brought, List.append_nil] at hrest
      rw [hrest]
      exact (readLoop_append _ _).symm
    · exact (congrArg Prod.fst (readLoop_arrived hcomplete more) :)
  · obtain ⟨hblocked, heof, hfailed⟩ := readlineb_incomplete (by decide) buf hcomplete
    cases hstop : stop calls with
    | none => cases (hblocked hstop).symm.trans h
    | some x =>
        obtain ⟨how, rest⟩ := x
        cases how with
        | eof =>
            obtain ⟨hreturned, -⟩ := heof rest hstop
            obtain ⟨rfl, rfl, -⟩ : _ = line ∧ {} = rp' ∧ rest = [] := by
              simpa using hreturned.symm.trans h
            by_cases hne : rp.stream calls = []
            · exact .eof (by simp [rioReadlineb, hne]) hne
            · obtain ⟨hlength, htake, -⟩ := hread _ hne
              have hall := readLoop_incomplete hcomplete
              rw [hall] at hlength htake
              refine .last (congrArg Int.ofNat hlength) hne htake rfl ?_ fun hline => hcomplete ?_
              · exact congrArg Prod.fst hall
              · by_cases hlong : maxEncodedLen - 1 ≤ (rp.stream calls).length
                · exact .inr hlong
                · exact .inl (by rwa [List.take_of_length_le (by omega)])
        | failed =>
            obtain ⟨buf', hreturned⟩ := hfailed rest hstop
            obtain ⟨rfl, rfl, -⟩ : _ = line ∧ {} = rp' ∧ rest = [] := by
              simpa using hreturned.symm.trans h
            exact .failed (show (-1 : Int) < 0 by decide)

end Rio

/-! ### One connection

Reading and writing do not meet except in the connection between them, so each has its own
invariant.
-/

section Connection

variable {p : Platform} {sv : Server} {c c' : Conn} {ch : Choice} {effect : Effect} {got : Str}

theorem Framed.begun {input : Str} (h : Framed input c) :
    c.executed <+: accepted false (streamLines input) := by
  cases hgone : c.pc.gone with
  | true => exact h.gone hgone ▸ List.prefix_rfl
  | false =>
      obtain ⟨ms, hms⟩ := h.going hgone
      rw [hms.executed, hms.rest]
      exact (List.take_prefix _ _).trans (List.prefix_append _ _)

/-- What has been said is not taken back. -/
theorem Moves.says_more (h : Moves p sv c ch effect c') : ∃ more, c'.sent = c.sent ++ more := by
  cases h with
  | request hpc hpos hlen h =>
      cases h with
      | reply | leave => exact ⟨[_], rfl⟩
      | _ => exact ⟨[], (List.append_nil _).symm⟩
  | _ => first | exact ⟨[_], rfl⟩ | exact ⟨[], (List.append_nil _).symm⟩

theorem Moves.executed_gone (h : Moves p sv c ch effect c') (hgone : c.pc.gone = true) :
    c'.executed = c.executed := by
  have hpc : c.pc ≠ .reading := by
    intro hpc
    rw [hpc] at hgone
    cases hgone
  obtain ⟨-, more, hsent, -, hnone⟩ := h.calm hpc
  rw [Conn.executed, h.received_same hpc, hsent, hnone hgone, List.append_nil]
  rfl

namespace Link

/-- What `read` has brought of a connection's input is what it has read of it, and what is in the
internal buffer; of what is there it executes what there is to execute. -/
structure Carries (l : Link) (c : Conn) : Prop where
  begun : c.executed <+: accepted false (streamLines l.delivered)
  going : c.pc.gone = false →
    l.delivered = c.received.flatten ++ l.rp.unread ∧ ∀ more, Framed (l.delivered ++ more) c
  gone : c.pc.gone = true → l.readFailed = false → Framed l.delivered c

/-- What `write` has taken, and is still to take, is what the connection has said. -/
structure Sends (l : Link) (c : Conn) : Prop where
  sublist : (l.written ++ l.outgoing).Sublist c.sent.flatten
  whole : l.writeFailed = false → l.written ++ l.outgoing = c.sent.flatten

variable {l : Link}

theorem Carries.outgoing (h : l.Carries c) (said : Str) :
    { l with outgoing := said }.Carries c :=
  ⟨h.begun, h.going, h.gone⟩

/-- A step inside a request. -/
theorem Carries.step (h : l.Carries c) (hmoves : Moves p sv c ch effect c')
    (hpc : c.pc ≠ .reading) : l.Carries c' := by
  have hgone := hmoves.gone hpc
  have hgoing : c'.pc.gone = false →
      l.delivered = c'.received.flatten ++ l.rp.unread ∧ ∀ more, Framed (l.delivered ++ more) c' := by
    intro hlive
    obtain ⟨hsplit, hframed⟩ := h.going (hgone ▸ hlive)
    exact ⟨hmoves.received_same hpc ▸ hsplit, fun more => (hframed more).step hmoves hpc⟩
  refine ⟨?_, hgoing, fun hgone' hread => (h.gone (hgone ▸ hgone') hread).step hmoves hpc⟩
  cases hlive : c'.pc.gone with
  | false => exact List.append_nil l.delivered ▸ ((hgoing hlive).2 []).begun
  | true => exact hmoves.executed_gone (hgone ▸ hlive) ▸ h.begun

/-- What a connection that reads has still to read. -/
theorem Carries.unread (h : l.Carries c) (hpc : c.pc = .reading) (more : Str) :
    c.unread (l.delivered ++ more) = l.rp.unread ++ more := by
  rw [Conn.unread, (h.going (by rw [hpc]; rfl)).1, List.append_assoc, List.drop_left]

theorem Carries.framed (h : l.Carries c) (hpc : c.pc = .reading) (more : Str) :
    Framed (l.delivered ++ more) c :=
  (h.going (by rw [hpc]; rfl)).2 more

section Read

variable {calls : List ReadResult} {rp : Rio} {failed : Bool}

/-- The connection reads a line. -/
theorem Carries.line (h : l.Carries c) (hpc : c.pc = .reading)
    (hstack : ∀ v ∈ c.stack.vector, Storable v) (hstranger : c.loggedIn = false → c.Stranger)
    (hsplit : l.rp.unread ++ brought calls = got ++ rp.unread)
    (hread : ∀ more,
      (readLoop (maxEncodedLen - 1) (l.rp.unread ++ brought calls ++ more)).1 = got) :
    { l with rp := rp, delivered := l.delivered ++ brought calls, readFailed := failed }.Carries
      (c.chatWithClient p got) := by
  have hframed : ∀ more,
      Framed (l.delivered ++ brought calls ++ more) (c.chatWithClient p got) := by
    intro more
    rw [List.append_assoc]
    refine (h.framed hpc _).reads hpc hstack hstranger ?_
    rw [h.unread hpc, ← List.append_assoc]
    exact hread more
  have hnow := List.append_nil (l.delivered ++ brought calls) ▸ hframed []
  refine ⟨hnow.begun, fun _ => ⟨?_, hframed⟩, fun _ _ => hnow⟩
  show l.delivered ++ brought calls = _
  rw [(h.going (by rw [hpc]; rfl)).1, (served p got c).received, List.append_assoc, hsplit]
  simp

/-- The connection reads what there was before the end of its input, and gives up. -/
theorem Carries.last (h : l.Carries c) (hpc : c.pc = .reading)
    (hstack : ∀ v ∈ c.stack.vector, Storable v) (hstranger : c.loggedIn = false → c.Stranger)
    (hsplit : l.rp.unread ++ brought calls = got)
    (hread : (readLoop (maxEncodedLen - 1) got).1 = got) (hline : newline ∉ got) :
    { l with rp := rp, delivered := l.delivered ++ brought calls, readFailed := failed }.Carries
      (c.chatWithClient p got) := by
  have hnow : Framed (l.delivered ++ brought calls) (c.chatWithClient p got) := by
    refine (h.framed hpc _).reads hpc hstack hstranger ?_
    rw [h.unread hpc, hsplit]
    exact hread
  refine ⟨hnow.begun, fun hlive => ?_, fun _ _ => hnow⟩
  obtain ⟨e, he⟩ := decode_unterminated (newline_notMem_cstr hline)
  obtain ⟨what, resp, -, -, heq⟩ := chatWithClient_error p (c := c) he
  rw [heq, leave_gone] at hlive
  cases hlive

/-- The connection hangs up. -/
theorem Carries.hangs_up (h : l.Carries c) (hpc : c.pc = .reading)
    (hend : failed = false → l.rp.unread ++ brought calls = []) :
    { l with rp := rp, delivered := l.delivered ++ brought calls, readFailed := failed }.Carries
      { c with pc := c.leave } := by
  refine ⟨(h.framed hpc (brought calls)).begun, fun hlive => ?_, fun _ hread => ?_⟩
  · cases (leave_gone c).symm.trans hlive
  · refine (h.framed hpc (brought calls)).hangs_up hpc ?_
    rw [h.unread hpc]
    exact hend hread

end Read

/-- A turn of a connection with nothing to write. -/
theorem Sends.turn (h : l.Sends c) (hout : l.outgoing = []) (hmoves : Moves p sv c ch effect c') :
    { l with outgoing := (c'.sent.drop c.sent.length).flatten }.Sends c' := by
  obtain ⟨more, hsent⟩ := hmoves.says_more
  have hsaid : (c'.sent.drop c.sent.length).flatten = more.flatten := by
    rw [hsent, List.drop_left]
  have hflat : c'.sent.flatten = c.sent.flatten ++ more.flatten := by
    rw [hsent, List.flatten_append]
  have hwritten : l.written = l.written ++ l.outgoing := by rw [hout, List.append_nil]
  rw [hsaid]
  refine ⟨?_, fun hwrite => ?_⟩
  · show (l.written ++ more.flatten).Sublist _
    rw [hwritten, hflat]
    exact h.sublist.append (List.Sublist.refl _)
  · show l.written ++ more.flatten = _
    rw [hwritten, h.whole hwrite, hflat]

/-- A call of `write`. -/
theorem Sends.write (h : l.Sends c) (result : WriteResult) :
    { l with
      outgoing := (writeRound l.outgoing result).getD []
      written := l.written ++ result.taken l.outgoing
      writeFailed := l.writeFailed || result == WriteResult.failed }.Sends c := by
  cases hround : writeRound l.outgoing result with
  | some left =>
      have hsplit : l.written ++ result.taken l.outgoing ++ left = l.written ++ l.outgoing := by
        rw [List.append_assoc, writeRound_append hround]
      refine ⟨?_, fun hwrite => ?_⟩
      · exact hsplit ▸ h.sublist
      · exact hsplit.trans (h.whole (Bool.or_eq_false_iff.mp hwrite).1)
  | none =>
      obtain rfl : result = .failed := by
        cases result with
        | failed => rfl
        | _ => cases hround
      refine ⟨?_, fun hwrite => ?_⟩
      · show (l.written ++ [] ++ []).Sublist _
        rw [List.append_nil, List.append_nil]
        exact (List.sublist_append_left _ _).trans h.sublist
      · cases (Bool.or_eq_false_iff.mp hwrite).2

end Link

end Connection

/-! ### What is said is lines

A client can only tell the responses apart if each of them is one line, so that the stream of
them has the same lines again.
-/

/-- A newline is at the end, and nowhere else. -/
def SingleLine (line : Str) : Prop := ∃ body, line = body ++ [newline] ∧ newline ∉ body

/-- What a connection has said is lines, and what it will say of a transaction is one. -/
structure Conn.Speaks (c : Conn) : Prop where
  abort : ∀ what, c.pc.loop = some (.abort what) → Printable what
  sent : ∀ line ∈ c.sent, SingleLine line

section Speaks

variable {p : Platform} {sv : Server} {c c' : Conn} {ch : Choice} {effect : Effect}
  {line resp : Str}

theorem encode_singleLine {m : Message} (hargs : ∀ arg ∈ m.args, Printable arg)
    (h : encode m = .ok line) : SingleLine line := by
  obtain ⟨body, rfl, hbody, -⟩ := encode_line hargs h
  exact ⟨body, rfl, hbody⟩

theorem encode_text_singleLine {type : MessageType} {what : Str} (hwhat : Printable what)
    (h : encode { messageType := type, args := [what] } = .ok line) : SingleLine line :=
  encode_singleLine (m := { messageType := type, args := [what] })
    (fun _ harg => List.mem_singleton.mp harg ▸ hwhat) h

theorem Reply.singleLine (h : Reply c resp) (hstack : ∀ v ∈ c.stack.vector, Storable v) :
    SingleLine resp := by
  cases h with
  | ok => exact encode_singleLine (m := { messageType := .ok }) (fun _ h => by cases h) encode_ok
  | @data value _ rest hvector hline =>
      have hvalue := hstack value (by rw [hvector]; exact List.mem_cons_self)
      exact encode_text_singleLine (.of_value hvalue.value hvalue.noNul) hline
  | failed hwhat hline | error hwhat hline =>
      exact encode_text_singleLine hwhat.sendable.printable hline

/-- Outside the loops there is nothing to be said later. -/
theorem Conn.Speaks.of_loop (hloop : c.pc.loop = none) (hsent : ∀ line ∈ c.sent, SingleLine line) :
    c.Speaks where
  abort _ h := by cases hloop.symm.trans h
  sent := hsent

theorem Conn.Speaks.adds (h : c.Speaks) (hresp : SingleLine resp) :
    ∀ line ∈ c.sent ++ [resp], SingleLine line := by
  intro line hline
  rcases List.mem_append.mp hline with hold | hnew
  · exact h.sent line hold
  · rwa [List.mem_singleton.mp hnew]

theorem leave_not_abort (c : Conn) (what : Str) : c.leave.loop ≠ some (.abort what) := by
  unfold Conn.leave
  split <;> simp [Pc.loop]

theorem printable_conflict {a : Access} (ha : a.Clean) :
    Printable (bytes "Could not acquire lock on table " ++ a.table) := by
  have hname := ha.printable
  refine ⟨fun hc => ?_, fun hc => ?_⟩
  · rcases List.mem_append.mp hc with hc | hc
    · exact absurd hc (by decide)
    · exact hname.noNul hc
  · rcases List.mem_append.mp hc with hc | hc
    · exact absurd hc (by decide)
    · exact hname.noNewline hc

theorem Served.speaks (h : Served p line c c') (hstack : ∀ v ∈ c.stack.vector, Storable v)
    (hc : c.Speaks) : c'.Speaks := by
  cases h with
  | reply hresp htx hlogin hvalues =>
      exact .of_loop rfl (hc.adds (hresp.singleLine hstack))
  | nested hm htype htx =>
      refine ⟨fun what hwhat => ?_, hc.sent⟩
      cases hwhat
      have htext : Text (bytes "Nested transaction not allowed") := by decide
      exact htext.sendable.printable
  | leave hresp hleft =>
      exact ⟨fun what h => absurd h (leave_not_abort c what), hc.adds (hresp.singleLine hstack)⟩
  | commit hm htype htx =>
      refine ⟨fun what hwhat => ?_, hc.sent⟩
      cases hwhat
  | _ => exact .of_loop rfl hc.sent

/-- **A step** says a line, if anything. -/
theorem Moves.speaks (h : Moves p sv c ch effect c') (hstock : c.Stocked) (hc : c.Speaks) :
    c'.Speaks := by
  cases h with
  | request hpc hpos hlen h =>
      refine h.speaks hstock.stack ⟨hc.abort, hc.sent⟩
  | eof hpc => exact ⟨fun what h => absurd h (leave_not_abort c what), hc.sent⟩
  | createUnlock hpc hresp | notFound hpc hresp | callGetFail hpc hget hresp
  | guardUnlock hpc hresp =>
      exact .of_loop rfl (hc.adds ((hresp.reply c).singleLine hstock.stack))
  | callGet | callSet | finishCommit =>
      exact .of_loop rfl (hc.adds ((Reply.ok (c := c)).singleLine hstock.stack))
  | conflict hpc hheld =>
      refine ⟨fun what hwhat => ?_, hc.sent⟩
      cases hwhat
      exact printable_conflict (hstock.access _ (by rw [hpc]; rfl))
  | visit hpc ht | release hpc =>
      exact ⟨fun what hwhat => hc.abort what (by rw [hpc]; exact hwhat), hc.sent⟩
  | finishAbort hpc hline =>
      refine .of_loop rfl (hc.adds (encode_text_singleLine (hc.abort _ ?_) hline))
      rw [hpc]
      rfl
  | _ => exact .of_loop rfl hc.sent

end Speaks

/-- The lines that have been said are those that can be read. -/
theorem streamLines_flatten {lines : List Str} (h : ∀ line ∈ lines, SingleLine line) :
    streamLines lines.flatten = lines := by
  induction lines with
  | nil => exact streamLines_unterminated (by simp)
  | cons line rest ih =>
      obtain ⟨body, rfl, hbody⟩ := h line List.mem_cons_self
      have hrest := ih fun line hline => h line (List.mem_cons_of_mem _ hline)
      rw [List.flatten_cons, List.append_assoc, List.singleton_append, streamLines_line hbody,
        hrest]

/-- What has arrived of a stream has the first of its lines in it. -/
theorem streamLines_prefix (input more : Str) :
    streamLines input <+: streamLines (input ++ more) := by
  induction hn : input.length using Nat.strong_induction_on generalizing input with
  | _ n ih =>
      subst hn
      by_cases hline : newline ∈ input
      · obtain ⟨body, rest, rfl, hbody⟩ := List.eq_append_cons_of_mem hline
        rw [List.append_assoc, List.cons_append, streamLines_line hbody, streamLines_line hbody]
        refine (List.prefix_cons_inj _).mpr (ih rest.length ?_ rest rfl)
        rw [List.length_append, List.length_cons]
        omega
      · rw [streamLines_unterminated hline]
        exact List.nil_prefix

theorem speaks_run {p : Platform} {s : State} {turns : List Turn}
    (hrun : Transition.run (State.step p) State.initial turns = some s) (i : ConnId) :
    (s.conns i).Speaks := by
  refine (Transition.run_invariant (I := fun m => Stored m ∧ (m.conns i).Speaks) ?_
    ⟨stored_initial, .of_loop rfl fun _ h => by cases h⟩ hrun).2
  rintro m a m' ⟨hm, hspeaks⟩ hstep
  obtain ⟨effect, c', hst⟩ := hm.inv.stepped hstep
  refine ⟨hm.step hstep, ?_⟩
  by_cases hi : i = a.conn
  · subst hi
    rw [hst.self]
    exact hst.moves.speaks (hm.conns a.conn) hspeaks
  · rw [hst.other hi]
    exact hspeaks

/-! ### Runs

The descriptors refine the server: every event is a turn or none. The two invariants above are
carried along beside that.
-/

namespace Wire

variable {p : Platform} {w w' : Wire} {e : Event} {events : List Event} {a : Turn} {l : Link}
  {i : ConnId} {s : State}

theorem turn_eq_some : w.turn p a l = some w' ↔
    w.killed = false ∧ l.outgoing = [] ∧ ∃ s, w.state.step p a = some s ∧
      w' = { w with state := s }.setLink a.conn { l with
        outgoing := ((s.conns a.conn).sent.drop (w.state.conns a.conn).sent.length).flatten } := by
  unfold turn
  split
  · rename_i hno
    constructor
    · intro h
      cases h
    · rintro ⟨hkilled, hout, -⟩
      simp [hkilled, hout] at hno
  · rename_i hyes
    obtain ⟨hkilled, hout⟩ := not_or.mp hyes
    simp only [Option.map_eq_some_iff]
    constructor
    · rintro ⟨s, hs, rfl⟩
      exact ⟨by simpa using hkilled, not_not.mp hout, s, hs, rfl⟩
    · rintro ⟨-, -, s, hs, rfl⟩
      exact ⟨s, hs, rfl⟩

/-- What an event comes to. -/
inductive Occurs (p : Platform) (w : Wire) : Event → Wire → Prop
  | readline {i : ConnId} {buf : Str} {calls : List ReadResult} {line : Rio.LineRead} {rp : Rio}
      {w' : Wire} (hread : (w.links i).rp.readlineb buf maxEncodedLen calls = some (line, rp, []))
      (hturn : w.turn p ⟨i, choice line⟩
        { w.links i with
          rp := rp
          delivered := (w.links i).delivered ++ brought calls
          readFailed := line.n < 0 } = some w') :
      Occurs p w (.readline i buf calls) w'
  | own {e : Event} {a : Turn} {w' : Wire} (hown : a.choice.own = true)
      (hturn : w.turn p a (w.links a.conn) = some w') : Occurs p w e w'
  | write {i : ConnId} (result : WriteResult) : Occurs p w (.write i result)
      (w.setLink i { w.links i with
        outgoing := (writeRound (w.links i).outgoing result).getD []
        written := (w.links i).written ++ result.taken (w.links i).outgoing
        writeFailed := (w.links i).writeFailed || result == WriteResult.failed })
  | broken {i : ConnId} : Occurs p w (.broken i) { w with killed := true }

theorem step_occurs (h : w.step p e = some w') : w.Occurs p e w' := by
  cases e with
  | readline i buf calls =>
      simp only [step] at h
      split at h
      · exact .readline ‹_› h
      · cases h
  | write i result =>
      simp only [step] at h
      split at h
      · cases h
        exact .write result
      · cases h
  | broken i =>
      simp only [step] at h
      split at h
      · cases h
        exact .broken
      · cases h
  | go i => exact .own (a := ⟨i, .go⟩) rfl h
  | visit i t => exact .own (a := ⟨i, .visit t⟩) rfl h

/-- **An event is a turn of the server, or none.** -/
theorem Occurs.refines (h : w.Occurs p e w') :
    ∃ turns, Transition.run (State.step p) w.state turns = some w'.state := by
  have hone : ∀ {a l}, w.turn p a l = some w' →
      ∃ turns, Transition.run (State.step p) w.state turns = some w'.state := by
    intro a l hturn
    obtain ⟨-, -, s, hs, rfl⟩ := turn_eq_some.mp hturn
    exact ⟨[a], Transition.run_cons_eq_some.mpr ⟨s, hs, rfl⟩⟩
  cases h with
  | readline hread hturn => exact hone hturn
  | own hown hturn => exact hone hturn
  | write | broken => exact ⟨[], rfl⟩

/-- What holds of every run on descriptors. -/
structure Sound (w : Wire) : Prop where
  stored : Stored w.state
  strangers : Strangers w.state
  carries : ∀ i, (w.links i).Carries (w.state.conns i)
  sends : ∀ i, (w.links i).Sends (w.state.conns i)

theorem sound_initial : initial.Sound where
  stored := stored_initial
  strangers := boot_initial.strangers
  carries _ := ⟨List.nil_prefix, fun _ => ⟨rfl, fun more => framed_initial more⟩, fun h => by cases h⟩
  sends _ := ⟨List.Sublist.refl _, fun _ => rfl⟩

/-- A turn, where its descriptor keeps up with it. -/
theorem Sound.turn (h : w.Sound) (hturn : w.turn p a l = some w')
    (hsends : l.Sends (w.state.conns a.conn))
    (hcarries : ∀ {effect c' s}, Stepped p w.state a effect c' s → l.Carries c') : w'.Sound := by
  obtain ⟨-, hout, s, hs, rfl⟩ := turn_eq_some.mp hturn
  obtain ⟨effect, c', hst⟩ := h.stored.inv.stepped hs
  refine ⟨h.stored.step hs, h.strangers.step h.stored.inv hs, fun i => ?_, fun i => ?_⟩
  · by_cases hi : i = a.conn
    · subst hi
      simp only [setLink, Function.update_self, hst.self]
      exact (hcarries hst).outgoing _
    · simp only [setLink, Function.update_of_ne hi, hst.other hi]
      exact h.carries i
  · by_cases hi : i = a.conn
    · subst hi
      simp only [setLink, Function.update_self, hst.self]
      exact hsends.turn hout hst.moves
    · simp only [setLink, Function.update_of_ne hi, hst.other hi]
      exact h.sends i

/-- A descriptor changes, and the server does not. -/
theorem Sound.setLink (h : w.Sound) (hcarries : l.Carries (w.state.conns i))
    (hsends : l.Sends (w.state.conns i)) : (w.setLink i l).Sound := by
  refine ⟨h.stored, h.strangers, fun j => ?_, fun j => ?_⟩
  · by_cases hj : j = i
    · subst hj
      simp only [Wire.setLink, Function.update_self]
      exact hcarries
    · simp only [Wire.setLink, Function.update_of_ne hj]
      exact h.carries j
  · by_cases hj : j = i
    · subst hj
      simp only [Wire.setLink, Function.update_self]
      exact hsends
    · simp only [Wire.setLink, Function.update_of_ne hj]
      exact h.sends j

theorem choice_recv {line : Rio.LineRead} {got : Str} (hn : line.n = got.length) (hpos : got ≠ [])
    (hgot : line.buf.take got.length = got) : choice line = .recv got := by
  have hlength := List.length_pos_iff.mpr hpos
  rw [choice, if_pos (by omega), hn, Int.toNat_natCast, hgot]

theorem choice_eof {line : Rio.LineRead} (hn : line.n ≤ 0) : choice line = .eof :=
  if_neg (by omega)

/-- **`rio_readlineb` returns**, with a line or without. -/
theorem Sound.readline (h : w.Sound) {buf : Str} {calls : List ReadResult} {line : Rio.LineRead}
    {rp : Rio} (hread : (w.links i).rp.readlineb buf maxEncodedLen calls = some (line, rp, []))
    (hturn : w.turn p ⟨i, choice line⟩
      { w.links i with
        rp := rp
        delivered := (w.links i).delivered ++ brought calls
        readFailed := line.n < 0 } = some w') : w'.Sound := by
  have hcarries := h.carries i
  have hstack := (h.stored.conns i).stack
  have hstranger := h.strangers i
  refine h.turn hturn ⟨(h.sends i).sublist, (h.sends i).whole⟩ fun {effect c' s} hst => ?_
  have hrun := hst.runs
  have hrecv : ∀ {got}, choice line = .recv got →
      (w.state.conns i).pc = .reading ∧ c' = (w.state.conns i).chatWithClient p got := by
    intro got hchoice
    simp only [hchoice, Conn.step] at hrun
    split at hrun
    · exact ⟨And.left ‹_›, (Prod.mk.inj (Option.some.inj hrun)).2.symm⟩
    · cases hrun
  have heof : choice line = .eof → (w.state.conns i).pc = .reading ∧
      c' = { w.state.conns i with pc := (w.state.conns i).leave } := by
    intro hchoice
    simp only [hchoice, Conn.step] at hrun
    split at hrun
    · exact ⟨‹_›, (Prod.mk.inj (Option.some.inj hrun)).2.symm⟩
    · cases hrun
  cases Rio.readlineb_returns hread with
  | line hn hpos hgot hsplit hline =>
      obtain ⟨hpc, rfl⟩ := hrecv (choice_recv hn hpos hgot)
      exact hcarries.line hpc hstack hstranger hsplit hline
  | last hn hpos hgot hsplit hline hnewline =>
      obtain ⟨hpc, rfl⟩ := hrecv (choice_recv hn hpos hgot)
      exact hcarries.last hpc hstack hstranger hsplit hline hnewline
  | eof hn hsplit =>
      obtain ⟨hpc, rfl⟩ := heof (choice_eof (Int.le_of_eq hn))
      exact hcarries.hangs_up hpc fun _ => hsplit
  | failed hn =>
      obtain ⟨hpc, rfl⟩ := heof (choice_eof (Int.le_of_lt hn))
      exact hcarries.hangs_up hpc fun hno => absurd hn (of_decide_eq_false hno)

/-- **An event** keeps all that. -/
theorem Sound.occurs (h : w.Sound) (hoccurs : w.Occurs p e w') : w'.Sound := by
  cases hoccurs with
  | readline hread hturn => exact h.readline hread hturn
  | @own _ a _ hown hturn =>
      exact h.turn hturn (h.sends a.conn) fun hst =>
        (h.carries a.conn).step hst.moves (hst.moves.own_busy hown)
  | @write i result =>
      exact h.setLink ⟨(h.carries i).begun, (h.carries i).going, (h.carries i).gone⟩
        ((h.sends i).write result)
  | broken => exact ⟨h.stored, h.strangers, h.carries, h.sends⟩

/-- **A run on descriptors** is sound, and is a run of the server. -/
theorem sound_run (hrun : Transition.run (step p) initial events = some w) :
    w.Sound ∧ ∃ turns, Transition.run (State.step p) State.initial turns = some w.state := by
  refine ⟨Transition.run_invariant (fun h hstep => Sound.occurs h (step_occurs hstep))
    sound_initial hrun, ?_⟩
  have hsim : ∀ {v : Wire} {s : State} {e : Event} {v' : Wire}, v.state = s → v.step p e = some v' →
      ∃ turns s', Transition.run (State.step p) s turns = some s' ∧ v'.state = s' := by
    rintro v s e v' rfl hstep
    obtain ⟨turns, hturns⟩ := (step_occurs hstep).refines
    exact ⟨turns, _, hturns, rfl⟩
  obtain ⟨turns, s, hturns, rfl⟩ :=
    Transition.run_simulates (R := fun v s => v.state = s) hsim rfl hrun
  exact ⟨turns, hturns⟩

/--
**The server executes what arrives**, whatever the chunks it arrives in, the interruptions, and the
order of the events: each run on descriptors is a run of the server, and of the bytes that `read`
has brought on a descriptor its connection has executed a beginning of the requests in them;
between two requests all but those in the internal buffer; and all of them when it is closed, if it
is not a `read` that failed.
-/
theorem executes_what_arrives (hrun : Transition.run (step p) initial events = some w)
    (i : ConnId) :
    let l := w.links i
    let c := w.state.conns i
    (∃ turns, Transition.run (State.step p) State.initial turns = some w.state) ∧
    c.executed <+: accepted false (streamLines l.delivered) ∧
    (c.pc = .reading → accepted false (streamLines l.delivered)
      = c.executed ++ accepted c.loggedIn (streamLines l.rp.unread)) ∧
    (c.pc = .closed → l.readFailed = false →
      c.executed = accepted false (streamLines l.delivered)) := by
  obtain ⟨hsound, hrefines⟩ := sound_run hrun
  have hcarries := hsound.carries i
  refine ⟨hrefines, hcarries.begun, fun hpc => ?_, fun hpc hread => ?_⟩
  · have hframed := List.append_nil (w.links i).delivered ▸ hcarries.framed hpc []
    obtain ⟨ms, hms⟩ := hframed.going (by rw [hpc]; rfl)
    have hcounted : (w.state.conns i).sent.length = (w.state.conns i).received.length := by
      simpa [hpc, Pc.owes] using hframed.counted
    have hunread := hcarries.unread hpc []
    rw [List.append_nil, List.append_nil] at hunread
    rw [hms.executed_reading hcounted, ← hunread]
    exact hms.rest
  · exact (hcarries.gone (by rw [hpc]; rfl) hread).gone (by rw [hpc]; rfl)

/--
**A client reads the responses**, each as a line of its own and in their order, at most one for
each line it has sent: as long as no `write` has failed, the lines it can make out are the first of
those that have been said, and all of them when nothing is left to write.  After a failure it has a
part of them.
-/
theorem clients_read_responses (hrun : Transition.run (step p) initial events = some w)
    (i : ConnId) :
    let l := w.links i
    let c := w.state.conns i
    c.sent.length ≤ c.received.length ∧
    (l.written ++ l.outgoing).Sublist c.sent.flatten ∧
    (l.writeFailed = false → l.written ++ l.outgoing = c.sent.flatten ∧
      streamLines l.written <+: c.sent ∧ (l.outgoing = [] → streamLines l.written = c.sent)) := by
  obtain ⟨hsound, turns, hturns⟩ := sound_run hrun
  have hlines := (speaks_run hturns i).sent
  have hsends := hsound.sends i
  refine ⟨?_, hsends.sublist, fun hwrite => ⟨hsends.whole hwrite, ?_, fun hout => ?_⟩⟩
  · have hanswered := boot_initial.answered_run hturns i
    omega
  · have hpart := streamLines_prefix (w.links i).written (w.links i).outgoing
    rwa [hsends.whole hwrite, streamLines_flatten hlines] at hpart
  · have hwhole := hsends.whole hwrite
    rw [hout, List.append_nil] at hwhole
    rw [hwhole, streamLines_flatten hlines]

/-- A login and a push in three chunks; the first response is written in two parts. -/
def chunked : List Event :=
  [.readline 0 [] [.data ⟨bytes "LOG", by decide, by decide⟩, .interrupted,
      .data ⟨bytes "IN a\nPUS", by decide, by decide⟩],
    .write 0 (.wrote 1 (by decide)), .write 0 .interrupted, .write 0 (.wrote 2 (by decide)),
    .readline 0 [] [.data ⟨bytes "H 5\nTO", by decide, by decide⟩],
    .write 0 (.wrote 2 (by decide))]

theorem executes_what_arrives_chunked :
    ∃ w, Transition.run (step trapping) initial chunked = some w ∧
      (w.state.conns 0).executed = [{ messageType := .login, args := [bytes "a"] },
        { messageType := .push, args := [bytes "5"] }] := by
  have hstate : (Transition.run (step trapping) initial chunked).map (fun w =>
      ((w.state.conns 0).pc, (w.state.conns 0).loggedIn, (w.links 0).rp.unread,
        (w.links 0).delivered)) = some (.reading, true, bytes "TO",
          bytes "LOGIN a\nPUSH 5\nTO") := by decide +kernel
  obtain ⟨w, hrun, hw⟩ := Option.map_eq_some_iff.mp hstate
  simp only [Prod.mk.injEq] at hw
  obtain ⟨hpc, hlogin, hunread, hdelivered⟩ := hw
  have hall := (executes_what_arrives hrun 0).2.2.1 hpc
  have hrest : accepted true (streamLines (bytes "TO")) = [] := by decide +kernel
  have hinput : accepted false (streamLines (bytes "LOGIN a\nPUSH 5\nTO"))
      = [{ messageType := .login, args := [bytes "a"] },
        { messageType := .push, args := [bytes "5"] }] := by decide +kernel
  rw [hdelivered, hlogin, hunread, hrest, hinput, List.append_nil] at hall
  exact ⟨w, hrun, hall.symm⟩

/-- The first response has arrived, the second not yet. -/
theorem clients_read_responses_chunked :
    ∃ w, Transition.run (step trapping) initial chunked = some w ∧
      streamLines (w.links 0).written <+: (w.state.conns 0).sent ∧
      streamLines (w.links 0).written = [okLine] ∧ (w.links 0).outgoing = [newline] := by
  have hstate : (Transition.run (step trapping) initial chunked).map (fun w =>
      ((w.links 0).writeFailed, streamLines (w.links 0).written, (w.links 0).outgoing))
      = some (false, [okLine], [newline]) := by decide +kernel
  obtain ⟨w, hrun, hw⟩ := Option.map_eq_some_iff.mp hstate
  simp only [Prod.mk.injEq] at hw
  obtain ⟨hwrite, hlines, hout⟩ := hw
  exact ⟨w, hrun, ((clients_read_responses hrun 0).2.2 hwrite).2.1, hlines, hout⟩

end Wire

end KvServer
