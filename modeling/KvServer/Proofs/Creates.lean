/-
CREATE requests and their answers.

Every line a connection reads is answered once and in order (`Boot.answered_run`), so the answer
to its `k`-th request is the `k`-th line it has sent; `Conn.Answered` reads CREATEs and
their answers off that way.  Here is what one step of a connection at work on a CREATE can
do: `Moves.create_call` for its calls to the server, `Conn.Answered.new` for its answer.
-/
import KvServer.Proofs.Runs
import KvServer.Proofs.Replies

namespace KvServer

/-- A line that asks for a table. -/
def Creates (line name : Str) : Prop :=
  ∃ m, decode (cstr line) = .ok m ∧ m.messageType = .create ∧ m.getTable = name

/-- A FAILED line. -/
def Fails (resp : Str) : Prop :=
  ∃ what, encode { messageType := .failed, args := [what] } = .ok resp

/-- The `k`-th request is a CREATE, and this is the answer to it. -/
def Conn.Answered (c : Conn) (k : Nat) (name resp : Str) : Prop :=
  ∃ line, c.received[k]? = some line ∧ Creates line name ∧ c.sent[k]? = some resp

/-- The last line read is a CREATE. -/
def Conn.Asks (c : Conn) (name : Str) : Prop :=
  ∃ line, c.received.getLast? = some line ∧ Creates line name

/-- A connection at work has a CREATE to answer exactly where one is handled. -/
def Conn.OnCreate (c : Conn) : Prop :=
  match c.pc with
  | .createLock name | .createBody name => c.Asks name
  | .createUnlock _ => ∃ name, c.Asks name
  | pc => pc.owes = 1 → ∀ name, ¬ c.Asks name

theorem Creates.identifier {line name : Str} (h : Creates line name) : Identifier name := by
  obtain ⟨m, hm, htype, rfl⟩ := h
  have hargs := (decode_eq_ok.mp hm).line.arguments
  obtain ⟨type, args⟩ := m
  obtain rfl : type = .create := htype
  cases hargs with
  | create h => exact h
  | bare h => simp at h

theorem Creates.unique {line name other : Str} (h : Creates line name) (h' : Creates line other) :
    name = other := by
  obtain ⟨m, hm, -, rfl⟩ := h
  obtain ⟨m', hm', -, rfl⟩ := h'
  rw [Except.ok.inj (hm.symm.trans hm')]

theorem not_creates {line name : Str} {m : Message} (hm : decode (cstr line) = .ok m)
    (htype : m.messageType ≠ .create) : ¬ Creates line name := by
  rintro ⟨m', hm', htype', -⟩
  rw [Except.ok.inj (hm.symm.trans hm')] at htype
  exact htype htype'

theorem Conn.Asks.unique {c : Conn} {name other : Str} (h : c.Asks name) (h' : c.Asks other) :
    name = other := by
  obtain ⟨line, hline, hcreates⟩ := h
  obtain ⟨line', hline', hcreates'⟩ := h'
  obtain rfl := Option.some.inj (hline.symm.trans hline')
  exact hcreates.unique hcreates'

theorem not_fails_ok : ¬ Fails okLine := by
  rintro ⟨what, h⟩
  have htext : MessageType.isText .failed = true := rfl
  obtain ⟨c, rest, hline, hc⟩ := negative_text htext h
  have hhead : okLine.head? = some 79 := by decide
  rw [hline] at hhead
  obtain rfl := Option.some.inj hhead
  rcases hc with hc | hc <;> exact absurd hc (by decide)

theorem Answers.create {result : Except Exn Unit} {resp : Str} (h : Answers result resp) :
    result = .ok () ∧ resp = okLine ∨ Fails resp := by
  cases h with
  | ok => exact .inl ⟨rfl, rfl⟩
  | failed hwhat hline => exact .inr ⟨_, hline⟩

section Step

variable {p : Platform} {sv : Server} {c c' : Conn} {ch : Choice} {effect : Effect} {line : Str}

/-- A CREATE that is read is handled, or refused at once. -/
theorem chatWithClient_create {name : Str} (h : Creates line name) :
    ((c.chatWithClient p line).sent = c.sent ∧ (c.chatWithClient p line).pc = .createLock name) ∨
      ∃ resp, Fails resp ∧ (c.chatWithClient p line).sent = c.sent ++ [resp] := by
  obtain ⟨m, hm, htype, rfl⟩ := h
  rw [chatWithClient_ok p hm]
  by_cases hin : c.loggedIn = true
  · exact .inl (by simp [Conn.attempt, handleRequest, htype, hin, handleCreate])
  · have hexec : (handleRequest p m).exec { c with received := c.received ++ [line] }
        = (.error (.operation (bytes "User has not logged in")),
          { c with received := c.received ++ [line] }) := by
      simp [handleRequest, htype, hin]
    have hwhat : Text (bytes "User has not logged in") := by decide
    obtain ⟨resp, hresp, heq⟩ :=
      catchClause_operation (c := { c with received := c.received ++ [line] }) hwhat
    refine .inr ⟨resp, (hresp.create.resolve_left (by simp)), ?_⟩
    rw [Conn.attempt, hexec]
    exact congrArg Conn.sent heq

theorem owes_le (pc : Pc) : pc.owes ≤ 1 := by
  unfold Pc.owes
  split <;> omega

/-- A connection that owes no answer is not at work on a CREATE. -/
theorem onCreate_idle (h : c.pc.owes = 0) : c.OnCreate := by
  unfold Conn.OnCreate
  cases hpc : c.pc <;> rw [hpc] at h <;>
    first
      | exact fun howes => absurd (howes.symm.trans h) (by decide)
      | cases h

theorem Served.onCreate (h : Served p line { c with received := c.received ++ [line] } c') :
    c'.OnCreate := by
  have hlast : (c.received ++ [line]).getLast? = some line := List.getLast?_concat
  have hnot {m : Message} (hm : decode (cstr line) = .ok m) (htype : m.messageType ≠ .create)
      (hc : c'.received = c.received ++ [line]) (name : Str) : ¬ c'.Asks name := by
    rintro ⟨line', hline', hcreates⟩
    rw [hc, hlast] at hline'
    obtain rfl := Option.some.inj hline'
    exact not_creates hm htype hcreates
  cases h with
  | reply hresp htx hlogin hstack => exact onCreate_idle rfl
  | create hm htype => exact ⟨line, hlast, _, hm, htype, rfl⟩
  | get hm htype => exact fun _ => hnot hm (by simp [htype]) rfl
  | set hm htype hstack => exact fun _ => hnot hm (by simp [htype]) rfl
  | commit hm htype htx => exact fun _ => hnot hm (by simp [htype]) rfl
  | nested hm htype htx => exact fun _ => hnot hm (by simp [htype]) rfl
  | leave hresp hleft => exact onCreate_idle (leave_owes _)
  | @trap m op _ hm htype htrap hstack =>
      exact fun _ => hnot hm (by cases op <;> simp [htype, ArithOp.messageType]) rfl

theorem Moves.onCreate (h : Moves p sv c ch effect c') (hc : c.OnCreate) : c'.OnCreate := by
  unfold Conn.OnCreate at hc
  cases h with
  | request hpc hpos hlen h => exact h.onCreate
  | eof hpc => exact onCreate_idle (leave_owes _)
  | createLock hpc hfree =>
      rw [hpc] at hc
      exact hc
  | createExists hpc hfound hwhat =>
      rw [hpc] at hc
      exact ⟨_, hc⟩
  | createNew hpc hnew =>
      rw [hpc] at hc
      exact ⟨_, hc⟩
  | createUnlock hpc hresp => exact onCreate_idle rfl
  | @visit e _ _ hpc ht =>
      rw [hpc] at hc
      cases e <;> exact hc
  | @release e _ _ hpc =>
      rw [hpc] at hc
      cases e <;> exact hc
  | _ =>
      rw [‹c.pc = _›] at hc
      first
        | exact onCreate_idle rfl
        | exact hc

/-- A step that answers a CREATE gives up `table_lock`. -/
theorem Moves.replies (h : Moves p sv c ch effect c') (hpc : c.pc ≠ .reading) (hc : c.OnCreate) :
    c'.sent = c.sent ∨ ∃ resp, c'.sent = c.sent ++ [resp] ∧
      ((∃ result, c.pc = .createUnlock result ∧ Answers result resp) ∨ ∀ name, ¬ c.Asks name) := by
  unfold Conn.OnCreate at hc
  cases h with
  | request hread hpos hlen h => exact absurd hread hpc
  | createUnlock hpc hresp => exact .inr ⟨_, rfl, .inl ⟨_, hpc, hresp⟩⟩
  | _ =>
      first
        | exact .inl rfl
        | rw [‹c.pc = _›] at hc
          exact .inr ⟨_, rfl, .inr (hc rfl)⟩

/-- A table is created under `table_lock`, if there is none of the name. -/
theorem Moves.creates (h : Moves p sv c ch effect c') (hpc : c'.pc = .createUnlock (.ok ())) :
    ∃ name, c.pc = .createBody name ∧ effect = .newTable name ∧ sv.findTable name = none ∧
      c'.received = c.received := by
  cases h with
  | request hread hpos hlen h =>
      cases h with
      | leave hresp hleft =>
          have hidle := leave_owes c
          rw [show c.leave = _ from hpc] at hidle
          cases hidle
      | _ => cases hpc
  | eof hread =>
      have hidle := leave_owes c
      rw [show c.leave = _ from hpc] at hidle
      cases hidle
  | createNew hat hnew => exact ⟨_, hat, rfl, hnew, rfl⟩
  | _ => cases hpc

/-- A connection at work on a CREATE calls no table. -/
theorem Moves.create_call (h : Moves p sv c ch effect c') {name : Str} (hname : c'.Asks name)
    (hc : c.OnCreate) (hpending : c.sent.length < c'.received.length)
    (hcounted : c.sent.length + c.pc.owes = c.received.length) : effect.call.table = none := by
  have howes : c.pc ≠ .reading → c.pc.owes = 1 ∧ c.Asks name := by
    intro hpc
    have hreceived := h.received_same hpc
    obtain ⟨line, hline, hcreates⟩ := hname
    rw [hreceived] at hline hpending
    refine ⟨?_, line, hline, hcreates⟩
    have hle := owes_le c.pc
    omega
  unfold Conn.OnCreate at hc
  cases h with
  | request hpc hpos hlen h => rfl
  | eof hpc => rfl
  | createLock hpc hfree => rfl
  | createExists hpc hfound hwhat => rfl
  | createNew hpc hnew => rfl
  | createUnlock hpc hresp => rfl
  | @visit e _ _ hpc ht =>
      obtain ⟨hone, hasks⟩ := howes (by simp [hpc])
      rw [hpc] at hc hone
      cases e with
      | destroy => cases hone
      | _ => exact absurd hasks (hc rfl name)
  | @release e _ _ hpc =>
      obtain ⟨hone, hasks⟩ := howes (by simp [hpc])
      rw [hpc] at hc hone
      cases e with
      | destroy => cases hone
      | _ => exact absurd hasks (hc rfl name)
  | finishDestroy hpc => rfl
  | _ =>
      obtain ⟨hone, hasks⟩ := howes (by simp [‹c.pc = _›])
      rw [‹c.pc = _›] at hc
      exact absurd hasks (hc rfl name)

/-- **What a step answers.**  An answer to a CREATE that was not there before is the answer to the
last line read: FAILED, or the OK that comes with giving up `table_lock`. -/
theorem Conn.Answered.new {k : Nat} {name resp : Str} (h : c'.Answered k name resp)
    (hmoves : Moves p sv c ch effect c') (hstep : c.step p sv ch = some (effect, c'))
    (hc : c.OnCreate) (hcounted : c.sent.length + c.pc.owes = c.received.length) :
    c.Answered k name resp ∨ c'.Asks name ∧ k + 1 = c'.received.length ∧
      (Fails resp ∨ resp = okLine ∧ c.pc = .createUnlock (.ok ()) ∧ c'.received = c.received) := by
  obtain ⟨line, hline, hcreates, hresp⟩ := h
  have hasks (hlast : k + 1 = c'.received.length) : c'.Asks name := by
    refine ⟨line, ?_, hcreates⟩
    rw [List.getLast?_eq_getElem?, ← hlast]
    exact hline
  have hk : k < c'.received.length := (List.getElem?_eq_some_iff.mp hline).1
  by_cases hpc : c.pc = .reading
  · have howes : c.sent.length = c.received.length := by
      rw [hpc] at hcounted
      exact hcounted
    rcases reading_step hpc hstep with ⟨read, rfl, rfl, rfl⟩ | rfl
    · have hreceived : (c.chatWithClient p read).received = c.received ++ [read] := hmoves.received
      obtain ⟨⟨more, hmore⟩, -⟩ := hmoves.grows
      rw [hreceived, List.length_append, List.length_singleton] at hk
      by_cases hnew : k < c.sent.length
      · rw [hreceived, List.getElem?_append_left (howes ▸ hnew)] at hline
        rw [← hmore, List.getElem?_append_left hnew] at hresp
        exact .inl ⟨line, hline, hcreates, hresp⟩
      · -- the answer is to the line that has just been read
        obtain rfl : k = c.sent.length := by omega
        have hread : line = read := by
          rw [hreceived, howes, List.getElem?_concat_length] at hline
          exact (Option.some.inj hline).symm
        have hlast : c.sent.length + 1 = (c.chatWithClient p read).received.length := by
          rw [hreceived, List.length_append, howes]
          rfl
        refine .inr ⟨hasks hlast, hlast, .inl ?_⟩
        rcases chatWithClient_create (c := c) (p := p) (hread ▸ hcreates) with
          ⟨hsent, -⟩ | ⟨resp', hfails, hsent⟩
        · rw [hsent, List.getElem?_eq_none (Nat.le_refl _)] at hresp
          cases hresp
        · rw [hsent, List.getElem?_concat_length] at hresp
          exact Option.some.inj hresp ▸ hfails
    · cases hmoves with
      | eof _ => exact .inl ⟨line, hline, hcreates, hresp⟩
  · have hreceived := hmoves.received_same hpc
    rcases hmoves.replies hpc hc with hsent | ⟨resp', hsent, hkind⟩
    · rw [hreceived] at hline
      rw [hsent] at hresp
      exact .inl ⟨line, hline, hcreates, hresp⟩
    · by_cases hnew : k < c.sent.length
      · rw [hreceived] at hline
        rw [hsent, List.getElem?_append_left hnew] at hresp
        exact .inl ⟨line, hline, hcreates, hresp⟩
      · have hlen : k < (c.sent ++ [resp']).length := by
          rw [← hsent]
          exact (List.getElem?_eq_some_iff.mp hresp).1
        rw [List.length_append, List.length_singleton] at hlen
        obtain rfl : k = c.sent.length := by omega
        rw [hsent, List.getElem?_concat_length] at hresp
        obtain rfl := Option.some.inj hresp
        have hlast : c.sent.length + 1 = c'.received.length := by
          have hone : c.pc.owes ≤ 1 := owes_le c.pc
          rw [hreceived] at hk ⊢
          omega
        refine .inr ⟨hasks hlast, hlast, ?_⟩
        rcases hkind with ⟨result, hat, hanswers⟩ | hnone
        · rcases hanswers.create with ⟨rfl, hok⟩ | hfails
          · exact .inr ⟨hok, hat, hreceived⟩
          · exact .inl hfails
        · obtain ⟨line', hline', hcreates'⟩ := hasks hlast
          rw [hreceived] at hline'
          exact absurd ⟨line', hline', hcreates'⟩ (hnone name)

end Step

end KvServer
