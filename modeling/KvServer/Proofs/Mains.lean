/-
A tool among others does what its `main` does.

`Model/Clients` has the `main` of each tool as a function of all that its connection delivers; a
`Task` is the same tool one request or one reply at a time.  `converse` is a `main` over any
exchanges, and `Task.outcome` is what it comes to from where a task is.  Neither a step of the
task nor a turn of the server changes that, so a tool that has exited has exited, and printed, as
its `main` does on what the server has sent.
-/
import KvServer.Model.Tools
import KvServer.Proofs.Clients
import KvServer.Proofs.Protocol

namespace KvServer

/-! ### One exchange after the other

The blocks of the three `main`s differ only in the request, in the reply they insist on and in
the text of the exception.  As to whether a `main` succeeds, and what it has then printed and
written, each of them is `converse` at its own exchanges.
-/

/-- A `main` from its first request on, with what it prints. -/
def converse : List Exchange → ClientM (List Str)
  | [] => do
      writeRequest { messageType := .bye }
      return []
  | x :: xs => do
      writeRequest x.request
      let resp ← readReply
      if resp.messageType ≠ x.reply then
        throw (.runtimeError (bytes "Error: Server response: " ++ resp.getQuotedText))
      else
        let more ← converse xs
        return x.output resp ++ more

/-- The exchanges of a tool that insists on OK throughout. -/
def Tool.exchanges : Tool → List Exchange
  | .setValue username table key value => setValueExchanges username table key value
  | .incrValue useTransaction username table key =>
      incrValueExchanges useTransaction username table key

section Conversations

variable {α β : Type} {x : Exchange} {xs : List Exchange} {s : Session}

theorem toOption_bind (m : ClientM α) (f : α → ClientM β) (s : Session) :
    ((m >>= f) s).toOption = (m s).toOption.bind fun r => (f r.1 r.2).toOption := by
  rw [bind_apply]
  cases m s <;> rfl

theorem toOption_write (req : Message) (s : Session) :
    (writeRequest req s).toOption = (encode req).toOption.bind fun encoded =>
      some ((), { s with written := s.written ++ [encoded] }) := by
  rw [writeRequest_eq]
  cases encode req <;> rfl

theorem toOption_read (s : Session) :
    (readReply s).toOption = (decode (cstr s.read.buf)).toOption.bind fun resp =>
      some (resp, s.read) := by
  rw [readReply_eq]
  cases decode (cstr s.read.buf) <;> rfl

theorem toOption_unless (c : Prop) [Decidable c] (e : Exn) (m : ClientM α) (s : Session) :
    ((if c then throw e else m : ClientM α) s).toOption = if c then none else (m s).toOption := by
  split <;> rfl

/-- A request, and the reply its tool insists on. -/
theorem converse_cons :
    (converse (x :: xs) s).toOption = (encode x.request).toOption.bind fun encoded =>
      (decode (cstr s.read.buf)).toOption.bind fun resp =>
        if resp.messageType ≠ x.reply then none
        else (converse xs { s.read with written := s.written ++ [encoded] }).toOption.bind fun r =>
          some (x.output resp ++ r.1, r.2) := by
  simp only [converse, toOption_bind, toOption_write, toOption_read, toOption_unless,
    Option.bind_assoc, Option.bind_some]
  rfl

/-- One of the blocks of `main`, which insists on OK and prints nothing. -/
theorem converse_ask (name : Str) (req : Message) :
    (converse ({ request := req } :: xs) s).toOption =
      (ask name req s).toOption.bind fun r => (converse xs r.2).toOption := by
  have houtput : ∀ resp, Exchange.output { request := req } resp = [] := fun _ => rfl
  have hsame : ∀ r : List Str × Session, some (([] : List Str) ++ r.1, r.2) = some r := fun _ => rfl
  simp only [converse_cons, ask, toOption_bind, toOption_write, toOption_read, toOption_unless,
    Option.bind_assoc, Option.bind_some, Option.bind_fun_some, houtput, hsame]
  refine congrArg _ (funext fun encoded => congrArg _ (funext fun resp => ?_))
  by_cases hok : resp.messageType ≠ .ok
  · rw [if_pos hok, if_pos hok]
    rfl
  · rw [if_neg hok, if_neg hok]
    rfl

theorem converse_bye :
    (converse [] s).toOption = (writeRequest { messageType := .bye } s).toOption.bind fun r =>
      some ([], r.2) := by
  rw [converse, toOption_bind]
  rfl

/-- Any number of them, and BYE. -/
theorem converse_askAll (reqs : List (Str × Message)) (s : Session) :
    (converse (reqs.map fun r => { request := r.2 }) s).toOption =
      ((askAll reqs >>= fun _ => writeRequest { messageType := .bye }) s).toOption.map
        fun r => ([], r.2) := by
  induction reqs generalizing s with
  | nil =>
      rw [List.map_nil, converse_bye, Option.map_eq_bind]
      rfl
  | cons req reqs ih =>
      have hstep : (askAll (req :: reqs) >>= fun _ => writeRequest { messageType := .bye })
          = (ask req.1 req.2 >>= fun _ =>
              askAll reqs >>= fun _ => writeRequest { messageType := .bye }) := by
        rw [askAll, bind_assoc]
      rw [List.map_cons, converse_ask req.1, hstep, toOption_bind, Option.map_bind]
      exact congrArg _ (funext fun r => ih r.2)

/-- `main` of `set_value.cpp` and of `incr_value.cpp`, with and without `-t`. -/
theorem Tool.converse (tool : Tool) (s : Session) :
    (KvServer.converse tool.exchanges s).toOption =
      (tool.body s).toOption.map fun r => ([], r.2) := by
  have hexchanges : tool.exchanges = tool.requests.map fun r => { request := r.2 } := by
    cases tool with
    | setValue username table key value => rfl
    | incrValue useTransaction username table key => cases useTransaction <;> rfl
  rw [hexchanges, Tool.body_eq, converse_askAll]

/-- `main` of `get_value.cpp`, which prints the value of the last reply. -/
theorem getValue_converse (username table key : Str) :
    (converse (getValueExchanges username table key) s).toOption =
      (getValue username table key s).toOption.map fun r => ([r.1], r.2) := by
  rw [getValueExchanges, getValue, converse_ask (bytes "LOGIN"), toOption_bind, Option.map_bind]
  refine congrArg _ (funext fun login => ?_)
  rw [converse_ask (bytes "GET"), Function.comp, toOption_bind, Option.map_bind]
  refine congrArg _ (funext fun get => ?_)
  simp only [converse_cons, converse_bye, toOption_bind, toOption_write, toOption_read,
    toOption_unless, Function.comp, Option.map_bind, Option.bind_assoc, Option.bind_some]
  refine congrArg _ (funext fun encoded => congrArg _ (funext fun resp => ?_))
  by_cases hdata : resp.messageType ≠ .data
  · rw [if_pos hdata, if_pos hdata]
    rfl
  · rw [if_neg hdata, if_neg hdata, Option.map_bind]
    rfl

end Conversations

/-! ### From where a task is

The outcome is that of a `main` which begins in the middle: with the exchanges that are left,
the buffer as it is, and what has been printed and written already.
-/

/-- What `main` comes to from where the task is, if `input` is what it has still to read: all that
it prints and writes, or nothing when it throws. -/
def Task.outcome (k : Task) (input : Str) : Option (List Str × List Str) :=
  let s : Session := { input, buf := k.buf, written := k.written }
  match k.errand with
  | .ask xs => (converse xs s).toOption.map fun r => (k.printed ++ r.1, r.2.written)
  | .await x xs =>
      (decode (cstr s.read.buf)).toOption.bind fun resp =>
        if resp.messageType ≠ x.reply then none
        else (converse xs s.read).toOption.map fun r =>
          (k.printed ++ x.output resp ++ r.1, r.2.written)
  | .returned code => if code = 0 then some (k.printed, k.written) else none

section Tasks

variable {k k' : Task} {arrived more : Str}

/-- **A request changes nothing about the outcome.** -/
theorem Task.write_outcome (hwrite : k.write = some k') (input : Str) :
    k'.outcome input = k.outcome input := by
  unfold Task.write at hwrite
  cases herrand : k.errand with
  | ask xs =>
      rw [herrand] at hwrite
      cases xs with
      | nil =>
          dsimp only at hwrite
          rw [encode_bye] at hwrite
          obtain rfl := Option.some.inj hwrite
          simp only [Task.outcome, herrand, converse_bye, toOption_write, encode_bye, if_true]
          show _ = some (k.printed ++ [], k.written ++ [byeLine])
          rw [List.append_nil]
      | cons x xs =>
          dsimp only at hwrite
          cases hencode : encode x.request with
          | ok encoded =>
              rw [hencode] at hwrite
              obtain rfl := Option.some.inj hwrite
              simp only [Task.outcome, herrand, converse_cons, hencode]
              show Option.bind _ _ = Option.map _ (Option.bind (some encoded) _)
              rw [Option.bind_some, Option.map_bind]
              refine congrArg _ (funext fun resp => ?_)
              by_cases hreply : resp.messageType ≠ x.reply
              · rw [Function.comp, if_pos hreply, if_pos hreply]
                rfl
              · rw [Function.comp, if_neg hreply, if_neg hreply, Option.map_bind]
                simp only [List.append_assoc, Option.map_eq_bind]
                rfl
          | error e =>
              rw [hencode] at hwrite
              obtain rfl := Option.some.inj hwrite
              simp only [Task.outcome, herrand, converse_cons, hencode]
              rfl
  | await x xs => simp [herrand] at hwrite
  | returned code => simp [herrand] at hwrite

/-- **Nor does a reply**, if what is still to come does not change the line. -/
theorem Task.read_outcome {input rest : Str} (hread : k.read arrived = some k')
    (hline : rioReadlineb input k.buf maxEncodedLen
      = { rioReadlineb arrived k.buf maxEncodedLen with rest := rest }) :
    k'.outcome rest = k.outcome input := by
  unfold Task.read at hread
  cases herrand : k.errand with
  | await x xs =>
      rw [herrand] at hread
      have hsession : Session.read { input, buf := k.buf, written := k.written }
          = { input := rest, buf := (rioReadlineb arrived k.buf maxEncodedLen).buf
              written := k.written } := by
        rw [Session.read, hline]
      simp only [Task.outcome, herrand, hsession]
      dsimp only at hread
      cases hresp : decode (cstr (rioReadlineb arrived k.buf maxEncodedLen).buf) with
      | error e =>
          rw [hresp] at hread
          obtain rfl := Option.some.inj hread
          rfl
      | ok resp =>
          rw [hresp] at hread
          dsimp only at hread
          by_cases hreply : resp.messageType ≠ x.reply
          · rw [if_pos hreply] at hread
            obtain rfl := Option.some.inj hread
            exact (if_pos hreply).symm
          · rw [if_neg hreply] at hread
            obtain rfl := Option.some.inj hread
            exact (if_neg hreply).symm
  | ask xs => simp [herrand] at hread
  | returned code => simp [herrand] at hread

/-- `main` returns 0 or 1. -/
def Task.Exits (k : Task) : Prop :=
  ∀ code, k.errand = .returned code → code ≤ 1

/-- What a read takes is counted, and nothing is written. -/
theorem Task.read_counts (hread : k.read arrived = some k') :
    k'.consumed = k.consumed + (rioReadlineb arrived k.buf maxEncodedLen).n ∧
      k'.written = k.written ∧ k'.Exits := by
  have hone : ∀ task : Task, task.errand = .returned 1 → task.Exits := fun task htask code hcode => by
    cases htask.symm.trans hcode
    exact Nat.le_refl 1
  unfold Task.read at hread
  split at hread
  · dsimp only at hread
    split at hread
    · split at hread
      · obtain rfl := Option.some.inj hread
        exact ⟨rfl, rfl, hone _ rfl⟩
      · obtain rfl := Option.some.inj hread
        exact ⟨rfl, rfl, nofun⟩
    · obtain rfl := Option.some.inj hread
      exact ⟨rfl, rfl, hone _ rfl⟩
  · cases hread

/-- What is written comes last, and nothing is read. -/
theorem Task.write_counts (hwrite : k.write = some k') :
    k'.consumed = k.consumed ∧ k.written <+: k'.written ∧ k'.Exits := by
  unfold Task.write at hwrite
  split at hwrite
  · rw [encode_bye] at hwrite
    obtain rfl := Option.some.inj hwrite
    refine ⟨rfl, List.prefix_append _ _, fun code hcode => ?_⟩
    cases hcode
    exact Nat.zero_le 1
  · split at hwrite
    · obtain rfl := Option.some.inj hwrite
      exact ⟨rfl, List.prefix_append _ _, nofun⟩
    · obtain rfl := Option.some.inj hwrite
      refine ⟨rfl, List.prefix_rfl, fun code hcode => ?_⟩
      cases hcode
      exact Nat.le_refl 1
  · cases hwrite

end Tasks

/-! ### A task and its connection

The bytes on their way are what one side has written and the other has not read, so each side
reads from the front of them and writes at their end.
-/

namespace Task

variable {k k' : Task} {c c' : Conn}

theorem unread_congr (hconsumed : k'.consumed = k.consumed) (hsent : c'.sent = c.sent) :
    k'.unread c' = k.unread c := by
  rw [unread, unread, hconsumed, hsent]

theorem incoming_congr (hwritten : k'.written = k.written) (hreceived : c'.received = c.received) :
    k'.incoming c' = k.incoming c := by
  rw [incoming, incoming, hwritten, hreceived]

theorem unread_sent {resp : Str} (hbound : k.consumed ≤ c.sent.flatten.length)
    (hsent : c'.sent = c.sent ++ [resp]) : k.unread c' = k.unread c ++ resp := by
  rw [unread, unread, hsent, List.flatten_append, List.drop_append_of_le_length hbound]
  simp

theorem unread_read {n : Nat} (hconsumed : k'.consumed = k.consumed + n) :
    k'.unread c = (k.unread c).drop n := by
  rw [unread, unread, hconsumed, List.drop_drop]

theorem incoming_written {line : Str} (hbound : c.received.flatten.length ≤ k.written.flatten.length)
    (hwritten : k'.written = k.written ++ [line]) : k'.incoming c = k.incoming c ++ line := by
  rw [incoming, incoming, hwritten, List.flatten_append, List.drop_append_of_le_length hbound]
  simp

theorem incoming_received {line : Str} (hreceived : c'.received = c.received ++ [line]) :
    k.incoming c' = (k.incoming c).drop line.length := by
  rw [incoming, incoming, hreceived, List.drop_drop]
  simp

end Task

theorem not_arrived_nil : ¬ Arrived [] := by decide

/-- No more bytes have been read than written. -/
structure InOrder (k : Task) (c : Conn) : Prop where
  consumed : k.consumed ≤ c.sent.flatten.length
  received : c.received.flatten.length ≤ k.written.flatten.length

/-- The task has come as far as its `main` does on what has been sent, whatever follows. -/
structure Task.Follows (xs : List Exchange) (buf : Str) (k : Task) (c : Conn) : Prop where
  inOrder : InOrder k c
  outcome : ∀ more, (c.pc = .closed → more = []) →
    k.outcome (k.unread c ++ more) = (Task.start xs buf).outcome (c.sent.flatten ++ more)
  exits : k.Exits

section Connection

variable {p : Platform} {sv : Server} {k k' : Task} {c c' : Conn} {ch : Choice} {effect : Effect}
  {xs : List Exchange} {buf : Str}

theorem InOrder.turn (h : InOrder k c) (hmoves : Moves p sv c ch effect c')
    (hrecv : ∀ line, ch = .recv line → line = (readLoop (maxEncodedLen - 1) (k.incoming c)).1) :
    InOrder k c' := by
  obtain ⟨⟨more, hsent⟩, -, hreceived⟩ := hmoves.grows
  refine ⟨?_, ?_⟩
  · rw [← hsent, List.flatten_append, List.length_append]
    exact Nat.le_add_right_of_le h.consumed
  · rcases hreceived with hreceived | ⟨line, hch, hreceived⟩
    · rw [hreceived]
      exact h.received
    · have hline := congrArg List.length (readLoop_append (maxEncodedLen - 1) (k.incoming c))
      rw [List.length_append, ← hrecv line hch, Task.incoming, List.length_drop] at hline
      have hbound := h.received
      rw [hreceived, List.flatten_append, List.length_append, List.flatten_singleton]
      omega

theorem InOrder.write (h : InOrder k c) (hwrite : k.write = some k') : InOrder k' c := by
  obtain ⟨hconsumed, ⟨more, hwritten⟩, -⟩ := Task.write_counts hwrite
  refine ⟨hconsumed ▸ h.consumed, ?_⟩
  rw [← hwritten, List.flatten_append, List.length_append]
  exact Nat.le_add_right_of_le h.received

theorem InOrder.read (h : InOrder k c) (hread : k.read (k.unread c) = some k') : InOrder k' c := by
  obtain ⟨hconsumed, hwritten, -⟩ := Task.read_counts hread
  have hn := (rioReadlineb_rest (k.unread c) k.buf).2
  rw [Task.unread, List.length_drop] at hn
  have hbound := h.consumed
  refine ⟨?_, hwritten ▸ h.received⟩
  rw [hconsumed, Task.unread]
  omega

theorem Task.follows_start : (Task.start xs buf).Follows xs buf {} where
  inOrder := ⟨Nat.le_refl 0, Nat.le_refl 0⟩
  outcome _ _ := rfl
  exits := nofun

theorem Task.Follows.turn (h : k.Follows xs buf c) (hmoves : Moves p sv c ch effect c')
    (hrecv : ∀ line, ch = .recv line → line = (readLoop (maxEncodedLen - 1) (k.incoming c)).1) :
    k.Follows xs buf c' where
  inOrder := h.inOrder.turn hmoves hrecv
  outcome more _ := by
    obtain ⟨⟨resps, hsent⟩, hopen, -⟩ := hmoves.grows
    have hold := h.outcome (resps.flatten ++ more) fun hpc => absurd hpc hopen
    have hflat : c'.sent.flatten ++ more = c.sent.flatten ++ (resps.flatten ++ more) := by
      rw [← hsent, List.flatten_append, List.append_assoc]
    have hunread : k.unread c' ++ more = k.unread c ++ (resps.flatten ++ more) := by
      rw [Task.unread, Task.unread, ← hsent, List.flatten_append,
        List.drop_append_of_le_length h.inOrder.consumed, List.append_assoc]
    rw [hflat, hunread]
    exact hold
  exits := h.exits

theorem Task.Follows.write (h : k.Follows xs buf c) (hwrite : k.write = some k') :
    k'.Follows xs buf c where
  inOrder := h.inOrder.write hwrite
  outcome more hmore := by
    rw [Task.write_outcome hwrite, Task.unread_congr (Task.write_counts hwrite).1 rfl]
    exact h.outcome more hmore
  exits := (Task.write_counts hwrite).2.2

theorem Task.Follows.read (h : k.Follows xs buf c)
    (harrived : Arrived (k.unread c) ∨ c.pc = .closed) (hread : k.read (k.unread c) = some k') :
    k'.Follows xs buf c where
  inOrder := h.inOrder.read hread
  outcome more hmore := by
    -- the line is the same with the rest of the input behind it
    have hline : rioReadlineb (k.unread c ++ more) k.buf maxEncodedLen
        = { rioReadlineb (k.unread c) k.buf maxEncodedLen with
            rest := (rioReadlineb (k.unread c) k.buf maxEncodedLen).rest ++ more } := by
      rcases harrived with harrived | hclosed
      · exact rioReadlineb_arrived harrived more k.buf
      · rw [hmore hclosed, List.append_nil, List.append_nil]
    have hunread : k'.unread c = (rioReadlineb (k.unread c) k.buf maxEncodedLen).rest := by
      rw [Task.unread_read (Task.read_counts hread).1, (rioReadlineb_rest _ _).1]
    rw [hunread, Task.read_outcome hread hline]
    exact h.outcome more hmore
  exits := (Task.read_counts hread).2.2

end Connection

/-! ### The tools in a run

One event is a turn of the server or a step of one tool, and the rest stays as it is.
-/

/-- What an event does. -/
inductive Tools.Happens (p : Platform) (w : Tools) : Tools.Event → Tools → Prop
  | turn {a : Turn} {s' : State} (hadmits : w.Admits a) (hturn : w.state.step p a = some s') :
      Happens p w (.turn a) { w with state := s' }
  | write {i : ConnId} {k k' : Task} (hk : w.task i = some k) (hwrite : k.write = some k') :
      Happens p w (.write i) (w.setTask i k')
  | read {i : ConnId} {k k' : Task} (hk : w.task i = some k)
      (harrived : Arrived (k.unread (w.state.conns i)) ∨ (w.state.conns i).pc = .closed)
      (hread : k.read (k.unread (w.state.conns i)) = some k') :
      Happens p w (.read i) (w.setTask i k')

section Runs

variable {p : Platform} {w w₀ w' : Tools} {i : ConnId} {xs : List Exchange} {buf : Str}

theorem Tools.happens {e : Tools.Event} (hstep : w.step p e = some w') : w.Happens p e w' := by
  cases e with
  | turn a =>
      simp only [Tools.step] at hstep
      split at hstep
      · rename_i hadmits
        obtain ⟨s', hturn, rfl⟩ := Option.map_eq_some_iff.mp hstep
        exact .turn hadmits hturn
      · cases hstep
  | write j =>
      obtain ⟨k, hk, hstep⟩ := Option.bind_eq_some_iff.mp hstep
      obtain ⟨k', hwrite, rfl⟩ := Option.map_eq_some_iff.mp hstep
      exact .write hk hwrite
  | read j =>
      obtain ⟨k, hk, hstep⟩ := Option.bind_eq_some_iff.mp hstep
      dsimp only at hstep
      split at hstep
      · rename_i harrived
        obtain ⟨k', hread, rfl⟩ := Option.map_eq_some_iff.mp hstep
        exact .read hk harrived hread
      · cases hstep

theorem Tools.setTask_self (w : Tools) (i : ConnId) (k : Task) : (w.setTask i k).task i = some k :=
  Function.update_self ..

theorem Tools.setTask_other (w : Tools) {i j : ConnId} (hij : i ≠ j) (k : Task) :
    (w.setTask j k).task i = w.task i :=
  Function.update_of_ne hij ..

/-- What an event does to the server. -/
theorem Tools.step_state {e : Tools.Event} (hstep : w.step p e = some w') :
    w'.state = w.state ∨ ∃ a, w.state.step p a = some w'.state := by
  cases Tools.happens hstep with
  | turn hadmits hturn => exact .inr ⟨_, hturn⟩
  | write hk hwrite => exact .inl rfl
  | read hk harrived hread => exact .inl rfl

/-- What the server reads of a tool is what the tool has written. -/
theorem Tools.Admits.recv {a : Turn} {k : Task} (h : w.Admits a) (hk : w.task a.conn = some k)
    {line : Str} (hch : a.choice = .recv line) :
    line = (readLoop (maxEncodedLen - 1) (k.incoming (w.state.conns a.conn))).1 := by
  simp only [Tools.Admits, hk, hch] at h
  exact h.1

/-- The end of its input comes behind that, and when its `main` has returned. -/
theorem Tools.Admits.eof {a : Turn} {k : Task} (h : w.Admits a) (hk : w.task a.conn = some k)
    (hch : a.choice = .eof) :
    k.incoming (w.state.conns a.conn) = [] ∧ k.hasReturned = true := by
  simp only [Tools.Admits, hk, hch] at h
  exact h

/-- The task of connection `i` does as its `main`. -/
structure Tools.Follows (xs : List Exchange) (buf : Str) (i : ConnId) (w : Tools) : Prop where
  inv : Inv w.state
  follows : ∃ k, w.task i = some k ∧ k.Follows xs buf (w.state.conns i)

theorem Tools.Follows.step (h : w.Follows xs buf i) {e : Tools.Event}
    (hstep : w.step p e = some w') : w'.Follows xs buf i := by
  obtain ⟨k, hk, hfollows⟩ := h.follows
  cases Tools.happens hstep with
  | @turn a s' hadmits hturn =>
      obtain ⟨effect, c', hst⟩ := h.inv.stepped hturn
      refine ⟨hst.inv h.inv, k, hk, ?_⟩
      show k.Follows xs buf (s'.conns i)
      by_cases hi : i = a.conn
      · subst hi
        rw [hst.self]
        exact hfollows.turn hst.moves fun line hch => hadmits.recv hk hch
      · rw [hst.other hi]
        exact hfollows
  | @write j k₁ k₂ hk₁ hwrite =>
      by_cases hi : i = j
      · subst hi
        obtain rfl := Option.some.inj (hk.symm.trans hk₁)
        exact ⟨h.inv, k₂, w.setTask_self i k₂, hfollows.write hwrite⟩
      · exact ⟨h.inv, k, (w.setTask_other hi k₂).trans hk, hfollows⟩
  | @read j k₁ k₂ hk₁ harrived hread =>
      by_cases hi : i = j
      · subst hi
        obtain rfl := Option.some.inj (hk.symm.trans hk₁)
        exact ⟨h.inv, k₂, w.setTask_self i k₂, hfollows.read harrived hread⟩
      · exact ⟨h.inv, k, (w.setTask_other hi k₂).trans hk, hfollows⟩

/-- **A tool exits and prints as its `main` does** on what the server has sent, in every run. -/
theorem exits_as_main {events : List Tools.Event} {code : Nat} {printed : List Str}
    (hs : Inv w₀.state) (hfresh : w₀.state.conns i = {})
    (htask : w₀.task i = some (.start xs buf))
    (hrun : Transition.run (Tools.step p) w₀ events = some w) (hexit : w.exit i = some (code, printed)) :
    code ≤ 1 ∧ (converse xs { input := (w.state.conns i).sent.flatten, buf }).toOption.map Prod.fst
      = if code = 0 then some printed else none := by
  have hstart : w₀.Follows xs buf i := by
    refine ⟨hs, _, htask, ?_⟩
    rw [hfresh]
    exact Task.follows_start
  have h : w.Follows xs buf i :=
    Transition.run_invariant (I := fun v : Tools => v.Follows xs buf i)
      (fun hv hstep => hv.step hstep) hstart hrun
  obtain ⟨k, hk, hfollows⟩ := h.follows
  have houtcome := hfollows.outcome [] fun _ => rfl
  simp only [Tools.exit, hk, Option.bind_some] at hexit
  cases herrand : k.errand with
  | ask xs => simp [herrand] at hexit
  | await x xs => simp [herrand] at hexit
  | returned exited =>
      rw [herrand] at hexit
      obtain ⟨rfl, rfl⟩ := Prod.mk.inj (Option.some.inj hexit)
      refine ⟨hfollows.exits _ herrand, ?_⟩
      have hprinted := congrArg (Option.map Prod.fst) houtcome
      simp only [Task.outcome, herrand, Task.start, List.append_nil, List.nil_append,
        Option.map_map] at hprinted
      refine Eq.trans hprinted.symm ?_
      split <;> rfl

/-- For `set_value` and `incr_value` that is the exit code. -/
theorem exits_as_tool {events : List Tools.Event} {code : Nat} {printed : List Str} {tool : Tool}
    (hs : Inv w₀.state) (hfresh : w₀.state.conns i = {})
    (htask : w₀.task i = some (.start tool.exchanges buf))
    (hrun : Transition.run (Tools.step p) w₀ events = some w) (hexit : w.exit i = some (code, printed)) :
    code = exitCode tool.body { input := (w.state.conns i).sent.flatten, buf } := by
  obtain ⟨hcode, hmain⟩ := exits_as_main hs hfresh htask hrun hexit
  rw [Tool.converse, Option.map_map] at hmain
  unfold exitCode
  cases hbody : tool.body { input := (w.state.conns i).sent.flatten, buf } with
  | error e =>
      rw [hbody] at hmain
      have hne : code ≠ 0 := fun hzero => by
        rw [if_pos hzero] at hmain
        cases hmain
      show code = 1
      omega
  | ok r =>
      rw [hbody] at hmain
      by_contra hne
      rw [if_neg hne] at hmain
      cases hmain

/-- And `get_value` prints the value it is for. -/
theorem exits_as_getValue {events : List Tools.Event} {code : Nat} {printed : List Str}
    {username table key : Str} (hs : Inv w₀.state) (hfresh : w₀.state.conns i = {})
    (htask : w₀.task i = some (.start (getValueExchanges username table key) buf))
    (hrun : Transition.run (Tools.step p) w₀ events = some w) (hexit : w.exit i = some (code, printed)) :
    ((getValue username table key { input := (w.state.conns i).sent.flatten, buf }).toOption.map
      fun r => [r.1]) = if code = 0 then some printed else none := by
  obtain ⟨-, hmain⟩ := exits_as_main hs hfresh htask hrun hexit
  rwa [getValue_converse, Option.map_map] at hmain

end Runs

end KvServer
