/-
Sockets make no difference to the tools.

What the tools and the server do over sockets is what they do in `Model/Tools`, where a request and
a reply pass as a whole.  The bytes that one end counts as written are those that the other has
read, those in its `rio_t`, those on their way, and those that `rio_writen` has still to write
(`Meets`); a line that `rio_readlineb` returns is the first of them, so it does not matter how many
of them have arrived.  All other calls of `read` and `write` leave the tools and the server as they
are.
-/
import KvServer.Model.Net
import KvServer.Proofs.Runs
import KvServer.Proofs.Wire

namespace KvServer

/-! ### A line of what is on its way

`rio_readlineb` waits for a line, and then it does not matter what has arrived behind it. Its
result is therefore the same as if everything that has been written were there.
-/

section Lines

variable {rp rp' : Rio} {calls : List ReadResult} {how : Stop} {rest : List ReadResult}
  {buf input : Str} {got : Rio.LineRead} {closed : Prop}

def Stop.result : Stop → ReadResult
  | .eof => .eof
  | .failed => .failed

theorem stop_mem (h : stop calls = some (how, rest)) : how.result ∈ calls := by
  induction calls with
  | nil => cases h
  | cons call calls ih =>
      cases call with
      | data chunk => exact List.mem_cons_of_mem _ (ih h)
      | interrupted => exact List.mem_cons_of_mem _ (ih h)
      | eof =>
          cases h
          exact List.mem_cons_self
      | failed =>
          cases h
          exact List.mem_cons_self

theorem Rio.Complete.append {n : Nat} (h : Rio.Complete n input) (more : Str) :
    Rio.Complete n (input ++ more) := by
  rcases h with hline | hlong
  · refine .inl ?_
    rw [List.take_append]
    exact List.mem_append_left _ hline
  · refine .inr ?_
    rw [List.length_append]
    omega

/-- What a line leaves of the bytes that have come is behind it. -/
theorem Rio.line_split (rp : Rio) (calls : List ReadResult) (buf : Str) :
    ∃ taken, rp.unread ++ brought calls
        = taken ++ (rioReadlineb (rp.stream calls) buf maxEncodedLen).rest ∧
      taken.length = (rioReadlineb (rp.stream calls) buf maxEncodedLen).n := by
  obtain ⟨hrest, hn⟩ := rioReadlineb_rest (rp.stream calls) buf
  refine ⟨(rp.stream calls).take (rioReadlineb (rp.stream calls) buf maxEncodedLen).n, ?_, ?_⟩
  · rw [hrest]
    exact (List.take_append_drop _ _).symm
  · exact List.length_take_of_le hn

/-- `rio_readlineb` returns with nothing missing: there is a line in what has come, which is then in
the `rio_t` behind it, or the input has ended. -/
theorem Transit.returned {onWay : Str} (h : Transit calls onWay closed)
    (hread : rp.readlineb buf maxEncodedLen calls = some (got, rp', [])) :
    let line := rioReadlineb (rp.stream calls) buf maxEncodedLen
    got = ⟨line.n, line.buf⟩ ∧ rp'.unread = line.rest ∧
      (Rio.Complete (maxEncodedLen - 1) (rp.stream calls) ∨ closed ∧ brought calls = onWay) := by
  obtain ⟨hno, -, hend⟩ := h
  by_cases hcomplete : Rio.Complete (maxEncodedLen - 1) (rp.stream calls)
  · obtain ⟨rp₁, rest, hreturned, hrest, -⟩ := Rio.readlineb_complete (by decide) buf hcomplete
    obtain ⟨rfl, rfl, rfl⟩ : _ = got ∧ rp₁ = rp' ∧ rest = [] := by
      simpa using hreturned.symm.trans hread
    rw [Rio.stream, brought, List.append_nil] at hrest
    exact ⟨rfl, hrest, .inl hcomplete⟩
  · obtain ⟨hblocked, heof, -⟩ := Rio.readlineb_incomplete (by decide) buf hcomplete
    cases hstop : stop calls with
    | none => cases (hblocked hstop).symm.trans hread
    | some x =>
        obtain ⟨how, rest⟩ := x
        cases how with
        | eof =>
            obtain ⟨hreturned, hnone⟩ := heof rest hstop
            obtain ⟨rfl, rfl, -⟩ : _ = got ∧ {} = rp' ∧ rest = [] := by
              simpa using hreturned.symm.trans hread
            exact ⟨rfl, hnone.symm, .inr (hend (stop_mem hstop))⟩
        | failed => exact absurd (stop_mem hstop) hno

/-- **What comes back is the first line of all that is still to be read**, and there is a line in
it, or nothing else is to come. -/
theorem Transit.line {onWay toCome : Str} (h : Transit calls onWay closed)
    (hread : rp.readlineb buf maxEncodedLen calls = some (got, rp', []))
    (hclosed : closed → toCome = []) :
    let all := rp.unread ++ onWay ++ toCome
    let line := rioReadlineb all buf maxEncodedLen
    got = ⟨line.n, line.buf⟩ ∧
      (∃ taken, rp.unread ++ brought calls = taken ++ rp'.unread ∧ taken.length = line.n) ∧
      (Arrived all ∨ closed) := by
  obtain ⟨hgot, hrest, hthere⟩ := h.returned hread
  obtain ⟨-, ⟨later, hlater⟩, -⟩ := h
  have hsplit := rp.line_split calls buf
  rw [← hrest] at hsplit
  have hall : rp.unread ++ onWay ++ toCome = rp.stream calls ++ (later ++ toCome) := by
    rw [Rio.stream, ← hlater]
    simp only [List.append_assoc]
  dsimp only
  rw [hall]
  rcases hthere with hcomplete | ⟨hclose, hwhole⟩
  · -- what comes behind the line does not change it
    rw [rioReadlineb_arrived hcomplete (later ++ toCome) buf]
    exact ⟨hgot, hsplit, .inl (hcomplete.append _)⟩
  · obtain rfl : later = [] := List.append_right_eq_self.mp (hlater.trans hwhole.symm)
    rw [hclosed hclose, List.append_nil, List.append_nil]
    exact ⟨hgot, hsplit, .inr hclose⟩

end Lines

/-! ### A tool's steps

A step of a task at its socket is one of the task with the line put in by hand.
-/

namespace Task

variable {k k' : Task} {input : Str} {line : Rio.LineRead}

/-- Reading what has arrived is going on with its first line. -/
theorem read_eq_reply : k.read input = k.reply
    ⟨(rioReadlineb input k.buf maxEncodedLen).n, (rioReadlineb input k.buf maxEncodedLen).buf⟩ :=
  rfl

theorem write_writes (h : k.write = some k') :
    (∃ lines, k'.written = k.written ++ lines) ∧ k'.consumed = k.consumed ∧
      k.hasReturned = false := by
  unfold write at h
  split at h
  · rename_i hk
    split at h
    · cases h
      exact ⟨⟨[_], rfl⟩, rfl, by simp [hasReturned, hk]⟩
    · cases h
      exact ⟨⟨[], (List.append_nil _).symm⟩, rfl, by simp [hasReturned, hk]⟩
  · rename_i hk
    split at h
    · cases h
      exact ⟨⟨[_], rfl⟩, rfl, by simp [hasReturned, hk]⟩
    · cases h
      exact ⟨⟨[], (List.append_nil _).symm⟩, rfl, by simp [hasReturned, hk]⟩
  · cases h

theorem reply_consumes (h : k.reply line = some k') :
    k'.written = k.written ∧ k'.consumed = k.consumed + line.n.toNat ∧ k.hasReturned = false := by
  unfold reply at h
  split at h
  · rename_i hk
    have hawaits : k.hasReturned = false := by simp [hasReturned, hk]
    dsimp only at h
    split at h
    · split at h
      · cases h
        exact ⟨rfl, rfl, hawaits⟩
      · cases h
        exact ⟨rfl, rfl, hawaits⟩
    · cases h
      exact ⟨rfl, rfl, hawaits⟩
  · cases h

end Task

/-! ### The two ends of a connection

Each direction is one stream, cut at three places: what has been read, what has been written,
and what has been asked to be written. Both ends count by the first and the last of these.
-/

/-- What a tool has counted as written and read, and what has come of it at the other end. -/
structure Meets (l : Link) (g : Agent) : Prop where
  asked : g.task.written.flatten = g.written ++ g.outgoing
  arrives : l.delivered <+: g.written
  taken : ∃ old, g.delivered = old ++ g.rp.unread ∧ old.length = g.task.consumed
  replies : g.delivered <+: l.written
  failed : l.writeFailed = true → g.Closed

section Ends

variable {l l' : Link} {g g' : Agent} {c : Conn} {calls : List ReadResult} {result : WriteResult}

theorem prefix_extend {xs ys zs : Str} (h : xs <+: ys) (hmore : zs <+: ys.drop xs.length) :
    xs ++ zs <+: ys := by
  obtain ⟨rest, rfl⟩ := h
  rw [List.drop_left] at hmore
  exact (List.prefix_append_right_inj xs).mpr hmore

/-- What the server has still to read of a tool. -/
theorem Meets.incoming (h : Meets l g)
    (hsplit : l.delivered = c.received.flatten ++ l.rp.unread) : g.task.incoming c
      = l.rp.unread ++ g.written.drop l.delivered.length ++ g.outgoing := by
  obtain ⟨onWay, hway⟩ := h.arrives
  rw [Task.incoming, h.asked, ← hway, List.drop_left, hsplit]
  simp only [List.append_assoc, List.drop_left]

/-- What a tool has still to read of the server. -/
theorem Meets.unread (h : Meets l g) (hwhole : l.written ++ l.outgoing = c.sent.flatten) :
    g.task.unread c = g.rp.unread ++ l.written.drop g.delivered.length ++ l.outgoing := by
  obtain ⟨onWay, hway⟩ := h.replies
  obtain ⟨old, hold, hlength⟩ := h.taken
  rw [Task.unread, ← hwhole, ← hway, List.drop_left, hold, ← hlength]
  simp only [List.append_assoc, List.drop_left]

/-- The other end of the descriptor takes what is on its way. -/
theorem Meets.link (h : Meets l g) (harrives : l'.delivered <+: g.written)
    (hwritten : l.written <+: l'.written) (hfailed : l'.writeFailed = true → g.Closed) :
    Meets l' g :=
  ⟨h.asked, harrives, h.taken, h.replies.trans hwritten, hfailed⟩

theorem Meets.ask (h : Meets l g) (hask : g.ask = some g') :
    Meets l g' ∧ g.task.write = some g'.task := by
  unfold Agent.ask at hask
  split at hask
  · rename_i hout
    obtain ⟨k, hk, rfl⟩ := Option.map_eq_some_iff.mp hask
    obtain ⟨⟨lines, hlines⟩, hconsumed, hawaits⟩ := Task.write_writes hk
    refine ⟨⟨?_, h.arrives, hconsumed ▸ h.taken, h.replies, fun hfailed => ?_⟩, hk⟩
    · show k.written.flatten = g.written ++ (k.written.drop g.task.written.length).flatten
      rw [hlines, List.drop_left, List.flatten_append, h.asked, hout, List.append_nil]
    · cases hawaits.symm.trans (h.failed hfailed).1
  · cases hask

theorem Meets.write (h : Meets l g) (hwrite : g.write result = some g') :
    Meets l g' ∧ g'.task = g.task := by
  unfold Agent.write at hwrite
  split at hwrite
  · cases hwrite
  · rename_i hout
    obtain ⟨left, hleft, rfl⟩ := Option.map_eq_some_iff.mp hwrite
    refine ⟨⟨?_, h.arrives.trans (List.prefix_append _ _), h.taken, h.replies, fun hfailed => ?_⟩, rfl⟩
    · show g.task.written.flatten = g.written ++ result.taken g.outgoing ++ left
      rw [h.asked, List.append_assoc, writeRound_append hleft]
    · exact absurd (h.failed hfailed).2 hout

/-- **The tool reads its reply**, as it does with all of what the server has said before it. -/
theorem Meets.read {closed : Prop} (h : Meets l g) (hsends : l.Sends c)
    (htransit : Transit calls (l.written.drop g.delivered.length) closed)
    (hclosed : closed → l.outgoing = []) (hread : g.read calls = some g') :
    Meets l g' ∧ g.task.read (g.task.unread c) = some g'.task ∧
      (Arrived (g.task.unread c) ∨ closed) := by
  unfold Agent.read at hread
  split at hread
  · rename_i hout
    split at hread
    · rename_i line rp hline
      obtain ⟨k, hk, rfl⟩ := Option.map_eq_some_iff.mp hread
      obtain ⟨hwritten, hconsumed, hawaits⟩ := Task.reply_consumes hk
      have hwrite : l.writeFailed = false := by
        by_contra hfailed
        cases hawaits.symm.trans (h.failed (by simpa using hfailed)).1
      obtain ⟨hgot, ⟨taken, hsplit, hlength⟩, hthere⟩ := htransit.line hline hclosed
      rw [← h.unread (hsends.whole hwrite)] at hgot hlength hthere
      subst hgot
      refine ⟨⟨hwritten ▸ h.asked, h.arrives, ?_, prefix_extend h.replies htransit.2.1,
        fun hfailed => ?_⟩, Task.read_eq_reply.trans hk, hthere⟩
      · obtain ⟨old, hold, hcount⟩ := h.taken
        refine ⟨old ++ taken, ?_, ?_⟩
        · show g.delivered ++ brought calls = old ++ taken ++ rp.unread
          rw [hold, List.append_assoc, hsplit, List.append_assoc]
        · show (old ++ taken).length = k.consumed
          rw [List.length_append, hcount, hlength]
          exact hconsumed.symm
      · cases hwrite.symm.trans hfailed
    · cases hread
  · cases hread

end Ends

/-! ### Events

Most events move a cut and leave the tools and the server alone. Those that end a read or
start a write are steps of theirs.
-/

/-- What `rio_readlineb` returns of all there is, for the connection. -/
theorem choice_line (all buf : Str) :
    Wire.choice ⟨(rioReadlineb all buf maxEncodedLen).n, (rioReadlineb all buf maxEncodedLen).buf⟩
      = if all = [] then .eof else .recv (readLoop (maxEncodedLen - 1) all).1 := by
  by_cases hall : all = []
  · subst hall
    rfl
  · have hpos : (readLoop (maxEncodedLen - 1) all).1 ≠ [] := by
      obtain ⟨b, bs, rfl⟩ := List.exists_cons_of_ne_nil hall
      show (if b = newline then _ else _ : Str × Str).1 ≠ []
      split <;> exact nofun
    rw [if_neg hall]
    simp only [rioReadlineb, if_neg hall]
    exact Wire.choice_recv rfl hpos List.take_left

/-- What `rio_readlineb` returns to the server is what the tool's requests deliver. -/
theorem Meets.delivers {l : Link} {g : Agent} {c : Conn} {rp : Rio} {buf : Str}
    {calls : List ReadResult} {line : Rio.LineRead} (h : Meets l g) (hsplit : l.delivered = c.received.flatten ++ l.rp.unread)
    (htransit : Transit calls (g.written.drop l.delivered.length) g.Closed)
    (hread : l.rp.readlineb buf maxEncodedLen calls = some (line, rp, [])) :
    g.task.Delivers c (Wire.choice line) := by
  obtain ⟨hgot, -, hthere⟩ := htransit.line hread And.right
  rw [← h.incoming hsplit] at hgot hthere
  rw [hgot, choice_line]
  by_cases hall : g.task.incoming c = []
  · rw [if_pos hall]
    rw [hall] at hthere
    exact ⟨hall, (hthere.resolve_left not_arrived_nil).1⟩
  · rw [if_neg hall]
    exact ⟨rfl, hthere.imp_right And.left⟩

/-- A connection that takes a line is between two requests. -/
theorem Moves.takes_line {p : Platform} {sv : Server} {c c' : Conn} {effect : Effect}
    {line : Rio.LineRead} (h : Moves p sv c (Wire.choice line) effect c') : c.pc = .reading := by
  unfold Wire.choice at h
  split at h
  · cases h
    assumption
  · cases h
    assumption

namespace Net

variable {p : Platform} {n n' : Net} {w : Wire} {i : ConnId} {g g' : Agent}

structure Sound (n : Net) : Prop where
  wire : n.wire.Sound
  meets : ∀ i, ∀ g ∈ n.agent i, Meets (n.wire.links i) g

theorem tools_setAgent : (n.setAgent i g).tools = n.tools.setTask i g.task := by
  simp only [tools, setAgent, Tools.setTask, Tools.mk.injEq, true_and]
  funext j
  by_cases hj : j = i
  · subst hj
    simp
  · simp [hj]

theorem tools_task (hg : g ∈ n.agent i) : n.tools.task i = some g.task := by
  rw [Option.mem_def] at hg
  simp [tools, hg]

/-- A tool goes on. -/
theorem Sound.agent (h : n.Sound) (hmeets : Meets (n.wire.links i) g) : (n.setAgent i g).Sound := by
  refine ⟨h.wire, fun j g' hg' => ?_⟩
  by_cases hj : j = i
  · subst hj
    simp only [setAgent, Function.update_self, Option.mem_some_iff] at hg'
    exact hg' ▸ hmeets
  · simp only [setAgent, Function.update_of_ne hj] at hg'
    exact h.meets j g' hg'

/-- The server goes on, at one descriptor. -/
theorem Sound.server (h : n.Sound) (hw : w.Sound) (hother : ∀ j, j ≠ i → w.links j = n.wire.links j)
    (hmeets : ∀ g ∈ n.agent i, Meets (w.links i) g) : Net.Sound { n with wire := w } := by
  refine ⟨hw, fun j g hg => ?_⟩
  by_cases hj : j = i
  · subst hj
    exact hmeets g hg
  · exact hother j hj ▸ h.meets j g hg

/-- A turn of the server, in the tools' own terms. -/
theorem tools_turn {a : Turn} {l : Link} (hturn : n.wire.turn p a l = some w)
    (hadmits : ∀ g ∈ n.agent a.conn, g.task.Delivers (n.wire.state.conns a.conn) a.choice) :
    n.tools.step p (.turn a) = some (Net.tools { n with wire := w }) := by
  obtain ⟨-, -, s, hs, rfl⟩ := Wire.turn_eq_some.mp hturn
  have hadmits' : n.tools.Admits a := by
    unfold Tools.Admits
    cases hg : n.agent a.conn with
    | none => simp [tools, hg]
    | some g =>
        rw [tools_task hg]
        exact hadmits g hg
  simp only [Tools.step, if_pos hadmits']
  show Option.map _ (n.wire.state.step p a) = _
  rw [hs]
  rfl

/-- What an event comes to for the tools and the server: nothing, or one of theirs. -/
def Follows (p : Platform) (n n' : Net) : Prop :=
  n'.tools = n.tools ∨ ∃ e, n.tools.step p e = some n'.tools

/-- **An event of the server.** -/
theorem Sound.server_event {e : KvServer.Event} (h : n.Sound) (hadmits : n.Admits e)
    (hstep : n.wire.step p e = some w) :
    Net.Sound { n with wire := w } ∧ Follows p n { n with wire := w } := by
  have hoccurs := Wire.step_occurs hstep
  have hw := h.wire.occurs hoccurs
  cases hoccurs with
  | @readline i buf calls line rp _ hread hturn =>
      obtain ⟨-, -, s, hs, hw'⟩ := Wire.turn_eq_some.mp hturn
      obtain ⟨effect, c', hst⟩ := h.wire.stored.inv.stepped hs
      have hreading : (n.wire.state.conns i).pc = .reading := Moves.takes_line hst.moves
      have hsplit := ((h.wire.carries i).going (by rw [hreading]; rfl)).1
      refine ⟨h.server (i := i) hw (fun j hj => ?_) fun g hg => ?_, .inr ⟨_, tools_turn hturn ?_⟩⟩
      · subst hw'
        exact Function.update_of_ne hj ..
      · have hmeets := h.meets i g hg
        subst hw'
        simp only [Wire.setLink, Function.update_self]
        exact hmeets.link (prefix_extend hmeets.arrives (hadmits g hg).2.1) List.prefix_rfl
          hmeets.failed
      · intro g hg
        exact (h.meets i g hg).delivers hsplit (hadmits g hg) hread
  | @own _ a _ hown hturn =>
      obtain ⟨-, -, s, hs, hw'⟩ := Wire.turn_eq_some.mp hturn
      refine ⟨h.server (i := a.conn) hw (fun j hj => ?_) fun g hg => ?_,
        .inr ⟨_, tools_turn hturn fun g _ => ?_⟩⟩
      · subst hw'
        exact Function.update_of_ne hj ..
      · have hmeets := h.meets a.conn g hg
        subst hw'
        simp only [Wire.setLink, Function.update_self]
        exact hmeets.link hmeets.arrives List.prefix_rfl hmeets.failed
      · cases hch : a.choice with
        | recv line => rw [hch] at hown; cases hown
        | eof => rw [hch] at hown; cases hown
        | go => trivial
        | visit u => trivial
  | @write i result =>
      refine ⟨h.server (i := i) hw (fun j hj => Function.update_of_ne hj ..) fun g hg => ?_, .inl rfl⟩
      have hmeets := h.meets i g hg
      simp only [Wire.setLink, Function.update_self]
      refine hmeets.link hmeets.arrives (List.prefix_append _ _) fun hfailed => ?_
      rcases Bool.or_eq_true_iff.mp hfailed with hbefore | hnow
      · exact hmeets.failed hbefore
      · exact hadmits g hg (beq_iff_eq.mp hnow)
  | broken => exact ⟨⟨hw, h.meets⟩, .inl rfl⟩

/-- **An event** keeps the two ends of each connection together, and comes to nothing, or to a step
of the tools and the server. -/
theorem Sound.step {e : Event} (h : n.Sound) (hstep : n.step p e = some n') :
    n'.Sound ∧ Follows p n n' := by
  cases e with
  | server e =>
      simp only [Net.step] at hstep
      split at hstep
      · obtain ⟨w, hw, rfl⟩ := Option.map_eq_some_iff.mp hstep
        exact h.server_event ‹_› hw
      · cases hstep
  | ask i =>
      obtain ⟨g, hg, hask⟩ := Option.bind_eq_some_iff.mp hstep
      obtain ⟨g', hg', rfl⟩ := Option.map_eq_some_iff.mp hask
      obtain ⟨hmeets, hwrite⟩ := (h.meets i g hg).ask hg'
      refine ⟨h.agent hmeets, .inr ⟨.write i, ?_⟩⟩
      rw [tools_setAgent]
      simp only [Tools.step, tools_task hg, Option.bind_some, hwrite, Option.map_some]
  | write i result =>
      obtain ⟨g, hg, hwrite⟩ := Option.bind_eq_some_iff.mp hstep
      obtain ⟨g', hg', rfl⟩ := Option.map_eq_some_iff.mp hwrite
      obtain ⟨hmeets, htask⟩ := (h.meets i g hg).write hg'
      refine ⟨h.agent hmeets, .inl ?_⟩
      rw [tools_setAgent, htask, Tools.setTask, ← tools_task hg, Function.update_eq_self]
  | read i calls =>
      obtain ⟨g, hg, hread⟩ := Option.bind_eq_some_iff.mp hstep
      split at hread
      · rename_i htransit
        obtain ⟨g', hg', rfl⟩ := Option.map_eq_some_iff.mp hread
        obtain ⟨hmeets, htask, hthere⟩ :=
          (h.meets i g hg).read (h.wire.sends i) htransit And.right hg'
        refine ⟨h.agent hmeets, .inr ⟨.read i, ?_⟩⟩
        rw [tools_setAgent]
        simp only [Tools.step, tools_task hg, Option.bind_some]
        show (if Arrived (g.task.unread (n.wire.state.conns i)) ∨
            (n.wire.state.conns i).pc = .closed then
          (g.task.read (g.task.unread (n.wire.state.conns i))).map (n.tools.setTask i) else none) = _
        rw [if_pos (hthere.imp_right And.left), htask]
        rfl
      · cases hread

theorem sound_start {tasks : ConnId → Option Task}
    (hnew : ∀ i, ∀ k ∈ tasks i, k.written = [] ∧ k.consumed = 0) : (start tasks).Sound := by
  refine ⟨Wire.sound_initial, fun i g hg => ?_⟩
  obtain ⟨k, hk, rfl⟩ := Option.map_eq_some_iff.mp hg
  obtain ⟨hwritten, hconsumed⟩ := hnew i k hk
  exact ⟨by simp [hwritten], List.nil_prefix, ⟨[], rfl, hconsumed.symm⟩, List.nil_prefix, nofun⟩

/--
**Over sockets the tools and the server do what they do request by request and reply by reply**,
however the bytes are cut on their way: in every run of tools against a new server, with requests
and responses written and read in pieces, interruptions, and anybody at the other connections, the
tools and the server have come where a run of `Tools` takes them.  So each tool has printed what it
would have, and exits as it would.
-/
theorem tools_over_sockets {tasks : ConnId → Option Task} {events : List Event}
    (hnew : ∀ i, ∀ k ∈ tasks i, k.written = [] ∧ k.consumed = 0)
    (hrun : Transition.run (step p) (start tasks) events = some n) :
    ∃ es, Transition.run (Tools.step p) { state := .initial, task := tasks } es = some n.tools := by
  have hsim : ∀ {m : Net} {v : Tools} {e : Event} {m' : Net}, m.Sound ∧ m.tools = v →
      m.step p e = some m' →
      ∃ es v', Transition.run (Tools.step p) v es = some v' ∧ m'.Sound ∧ m'.tools = v' := by
    rintro m v e m' ⟨hm, rfl⟩ hstep
    obtain ⟨hm', hsame | ⟨e', he'⟩⟩ := hm.step hstep
    · exact ⟨[], _, rfl, hm', hsame⟩
    · exact ⟨[e'], _, Transition.run_cons_eq_some.mpr ⟨_, he', rfl⟩, hm', rfl⟩
  have hstart : (start tasks).tools = { state := .initial, task := tasks } := by
    simp only [tools, start, Option.map_map]
    congr 1
    funext i
    cases tasks i <;> rfl
  obtain ⟨es, v, hes, -, rfl⟩ := Transition.run_simulates
    (R := fun (m : Net) (v : Tools) => m.Sound ∧ m.tools = v) hsim ⟨sound_start hnew, hstart⟩ hrun
  exact ⟨es, hes⟩

/-- A `set_value` at connection 0. -/
def oneTask (i : ConnId) : Option Task :=
  if i = 0 then
    some (.start (setValueExchanges (bytes "a") (bytes "t") (bytes "k") (bytes "5")) [])
  else none

/-- What comes in at once. -/
def whole (text : String) (hne : bytes text ≠ []) (hfits : (bytes text).length ≤ rioBufSize) :
    List ReadResult :=
  [.data ⟨bytes text, hne, hfits⟩]

/-- Somebody at connection 1 creates the table; then the tool runs, and its first request and the
reply to it come in pieces. -/
def pieces : List Event :=
  [.server (.readline 1 [] (whole "LOGIN c\n" (by decide) (by decide))),
    .server (.write 1 (.wrote 9 (by decide))),
    .server (.readline 1 [] (whole "CREATE t\n" (by decide) (by decide))),
    .server (.go 1), .server (.go 1), .ask 0, .write 0 (.wrote 4 (by decide)), .server (.go 1),
    .write 0 .interrupted, .server (.write 1 (.wrote 9 (by decide))), .write 0 (.wrote 9 (by decide)),
    .server (.readline 0 [] [.data ⟨bytes "LO", by decide, by decide⟩, .interrupted,
      .data ⟨bytes "GIN a\n", by decide, by decide⟩]),
    .server (.write 0 (.wrote 4 (by decide))),
    .read 0 [.data ⟨bytes "O", by decide, by decide⟩, .data ⟨bytes "K\n", by decide, by decide⟩],
    .ask 0, .write 0 (.wrote 9 (by decide)),
    .server (.readline 0 [] (whole "PUSH 5\n" (by decide) (by decide))),
    .server (.write 0 (.wrote 9 (by decide))), .read 0 (whole "OK\n" (by decide) (by decide)),
    .ask 0, .write 0 (.wrote 9 (by decide)),
    .server (.readline 0 [] (whole "SET t k\n" (by decide) (by decide))),
    .server (.go 0), .server (.go 0), .server (.go 0), .server (.go 0), .server (.go 0),
    .server (.go 0), .server (.go 0), .server (.write 0 (.wrote 9 (by decide))),
    .read 0 (whole "OK\n" (by decide) (by decide)), .ask 0]

theorem tools_over_sockets_pieces :
    ∃ n es, Transition.run (step trapping) (start oneTask) pieces = some n ∧
      Transition.run (Tools.step trapping) { state := .initial, task := oneTask } es
        = some n.tools ∧
      n.tools.exit 0 = some (0, []) ∧ n.tools.state.committed (0, bytes "k") = some (bytes "5") := by
  have hstate : (Transition.run (step trapping) (start oneTask) pieces).map (fun n =>
      (n.tools.exit 0, n.tools.state.committed (0, bytes "k")))
      = some (some (0, []), some (bytes "5")) := by decide +kernel
  obtain ⟨n, hrun, hn⟩ := Option.map_eq_some_iff.mp hstate
  obtain ⟨hexit, hcommitted⟩ := Prod.mk.inj hn
  have hnew : ∀ i, ∀ k ∈ oneTask i, k.written = [] ∧ k.consumed = 0 := by
    intro i k hk
    unfold oneTask at hk
    split at hk
    · cases hk
      exact ⟨rfl, rfl⟩
    · cases hk
  obtain ⟨es, hes⟩ := tools_over_sockets hnew hrun
  exact ⟨n, es, hrun, hes, hexit, hcommitted⟩

end Net

end KvServer
