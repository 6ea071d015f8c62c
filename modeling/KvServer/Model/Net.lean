/-
The tools and the server over sockets.

At both ends of a connection there are a `rio_t` and a `rio_writen` that may have something left to
write, and between them the bytes that one end has written and the other has not read.  What a
`read` finds is the beginning of these, in any amount, or the end of the input once the other end
is closed and they have all arrived.  Neither end fails while the other is open, and a close lets
what has been written before it arrive.

A tool is a `Task` with its end of the connection; the task counts a request as written when
`rio_writen` is called for it, as the server counts its responses.
-/
import KvServer.Model.Tools
import KvServer.Model.Wire

namespace KvServer

/-- `main` goes on with what `rio_readlineb` has left; the result of it is not looked at. -/
def Task.reply (k : Task) (line : Rio.LineRead) : Option Task :=
  match k.errand with
  | .await x xs =>
      let k := { k with buf := line.buf, consumed := k.consumed + line.n.toNat }
      match decode (cstr line.buf) with
      | .ok resp =>
          if resp.messageType ≠ x.reply then some { k with errand := .returned 1 }
          else some { k with errand := .ask xs, printed := k.printed ++ x.output resp }
      | .error _ => some { k with errand := .returned 1 }
  | _ => none

/-- A tool at its end of a connection. -/
structure Agent where
  task : Task
  rp : Rio := {}
  /-- What `rio_writen` has not written yet. -/
  outgoing : Str := []
  /-- What `read` has brought, and what `write` has taken. -/
  delivered : Str := []
  written : Str := []

namespace Agent

/-- `main` has returned, and with that the tool's end is closed. -/
def Closed (g : Agent) : Prop := g.task.hasReturned = true ∧ g.outgoing = []

instance (g : Agent) : Decidable g.Closed := by unfold Closed; infer_instance

/-- The next request, or BYE: `rio_writen` is called for it. -/
def ask (g : Agent) : Option Agent :=
  if g.outgoing = [] then
    g.task.write.map fun k =>
      { g with task := k, outgoing := (k.written.drop g.task.written.length).flatten }
  else none

/-- A call of `write` in `rio_writen` returns. -/
def write (g : Agent) (result : WriteResult) : Option Agent :=
  if g.outgoing = [] then none
  else (writeRound g.outgoing result).map fun left =>
    { g with outgoing := left, written := g.written ++ result.taken g.outgoing }

/-- `rio_readlineb` returns for the reply. -/
def read (g : Agent) (calls : List ReadResult) : Option Agent :=
  if g.outgoing = [] then
    match g.rp.readlineb g.task.buf maxEncodedLen calls with
    | some (line, rp, []) =>
        (g.task.reply line).map fun k =>
          { g with task := k, rp := rp, delivered := g.delivered ++ brought calls }
    | _ => none
  else none

end Agent

/-- What calls of `read` return at a socket: a beginning of what is on its way, and the end of the
input only when all of it has arrived and the other end is closed. -/
def Transit (calls : List ReadResult) (onWay : Str) (closed : Prop) : Prop :=
  .failed ∉ calls ∧ brought calls <+: onWay ∧ (.eof ∈ calls → closed ∧ brought calls = onWay)

instance (calls : List ReadResult) (onWay : Str) (closed : Prop) [Decidable closed] :
    Decidable (Transit calls onWay closed) := by
  unfold Transit
  infer_instance

structure Net where
  wire : Wire
  /-- the tool at a connection; with none it may be anybody -/
  agent : ConnId → Option Agent

namespace Net

inductive Event
  | server (e : KvServer.Event)
  | ask (i : ConnId)
  | write (i : ConnId) (result : WriteResult)
  | read (i : ConnId) (calls : List ReadResult)
  deriving DecidableEq

/-- A new server, and tools that have their connections. -/
def start (tasks : ConnId → Option Task) : Net :=
  { wire := .initial, agent := fun i => (tasks i).map fun k => { task := k } }

def setAgent (n : Net) (i : ConnId) (g : Agent) : Net :=
  { n with agent := Function.update n.agent i (some g) }

/-- The calls of the server at the connection of a tool return what they can. -/
def Admits (n : Net) : KvServer.Event → Prop
  | .readline i _ calls => ∀ g ∈ n.agent i,
      Transit calls (g.written.drop (n.wire.links i).delivered.length) g.Closed
  | .write i result => ∀ g ∈ n.agent i, result = .failed → g.Closed
  | .broken i => ∀ g ∈ n.agent i, g.Closed
  | .go _ | .visit _ _ => True

instance (n : Net) : ∀ e, Decidable (n.Admits e)
  | .readline i _ calls => inferInstanceAs (Decidable (∀ g ∈ n.agent i,
      Transit calls (g.written.drop (n.wire.links i).delivered.length) g.Closed))
  | .write i result => inferInstanceAs (Decidable (∀ g ∈ n.agent i, result = .failed → g.Closed))
  | .broken i => inferInstanceAs (Decidable (∀ g ∈ n.agent i, g.Closed))
  | .go _ | .visit _ _ => .isTrue trivial

/-- The server has nothing more to say on a connection, and closes it. -/
def HangsUp (n : Net) (i : ConnId) : Prop :=
  (n.wire.state.conns i).pc = .closed ∧ (n.wire.links i).outgoing = []

instance (n : Net) (i : ConnId) : Decidable (n.HangsUp i) := by unfold HangsUp; infer_instance

/-- One event. -/
def step (p : Platform) (n : Net) : Event → Option Net
  | .server e =>
      if n.Admits e then (n.wire.step p e).map fun w => { n with wire := w } else none
  | .ask i => (n.agent i).bind fun g => g.ask.map (n.setAgent i)
  | .write i result => (n.agent i).bind fun g => (g.write result).map (n.setAgent i)
  | .read i calls =>
      (n.agent i).bind fun g =>
        if Transit calls ((n.wire.links i).written.drop g.delivered.length) (n.HangsUp i) then
          (g.read calls).map (n.setAgent i)
        else none

/-- The tools and the server, request by request and reply by reply. -/
def tools (n : Net) : Tools :=
  { state := n.wire.state, task := fun i => (n.agent i).map Agent.task }

end Net

end KvServer
