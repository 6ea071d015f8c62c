/-
The server on its descriptors.

A connection reads its requests and writes its responses with the robust I/O of `csapp.c`, and
what the clients see of the server are the bytes.  A run is a list of events: `rio_readlineb`
comes back with a line, a `write` of `rio_writen` comes back, or a connection takes a turn of
another kind.  The writes of one connection are between the turns of the others, and while it has
something to write it takes no turn itself.
-/
import KvServer.Model.Descriptor
import KvServer.Model.System

namespace KvServer

/-- The descriptor of a connection. -/
structure Link where
  rp : Rio := {}
  /-- What `rio_writen` has not written yet. -/
  outgoing : Str := []
  /-- What `read` has brought, and what `write` has taken. -/
  delivered : Str := []
  written : Str := []
  /-- A `read`, or a `write`, has failed. -/
  readFailed : Bool := false
  writeFailed : Bool := false
  deriving DecidableEq

structure Wire where
  state : State
  links : ConnId → Link
  /-- The process has been ended by a signal. -/
  killed : Bool := false

inductive Event
  /-- `rio_readlineb` returns: what the buffer held before, and what its calls have returned -/
  | readline (i : ConnId) (buf : Str) (calls : List ReadResult)
  /-- a call of `write` in `rio_writen` returns -/
  | write (i : ConnId) (result : WriteResult)
  /-- `write` finds the other end closed: nobody handles SIGPIPE -/
  | broken (i : ConnId)
  /-- a turn that reads nothing -/
  | go (i : ConnId)
  | visit (i : ConnId) (t : TablePtr)
  deriving DecidableEq

namespace Wire

def initial : Wire :=
  { state := .initial, links := fun _ => {} }

/-- The process runs. -/
def Runs (w : Wire) : Prop := w.killed = false ∧ w.state.terminated = false

instance (w : Wire) : Decidable w.Runs := by
  unfold Runs
  infer_instance

def setLink (w : Wire) (i : ConnId) (l : Link) : Wire :=
  { w with links := Function.update w.links i l }

/-- A turn of a connection with nothing to write, and with `l` for its descriptor: `rio_writen` is
called for what it says. -/
def turn (p : Platform) (w : Wire) (a : Turn) (l : Link) : Option Wire :=
  if w.killed ∨ l.outgoing ≠ [] then none
  else (w.state.step p a).map fun s =>
    let said := (s.conns a.conn).sent.drop (w.state.conns a.conn).sent.length
    { w with state := s }.setLink a.conn { l with outgoing := said.flatten }

/-- What `rio_readlineb` returns is at the beginning of the buffer; nothing to `chat_with_client`
is 0 or less. -/
def choice (line : Rio.LineRead) : Choice :=
  if 0 < line.n then .recv (line.buf.take line.n.toNat) else .eof

/-- One event. -/
def step (p : Platform) (w : Wire) : Event → Option Wire
  | .readline i buf calls =>
      match (w.links i).rp.readlineb buf maxEncodedLen calls with
      | some (line, rp, []) =>
          w.turn p ⟨i, choice line⟩
            { w.links i with
              rp := rp
              delivered := (w.links i).delivered ++ brought calls
              readFailed := line.n < 0 }
      | _ => none
  | .write i result =>
      let l := w.links i
      if w.Runs ∧ l.outgoing ≠ [] then
        some (w.setLink i
          { l with
            outgoing := (writeRound l.outgoing result).getD []
            written := l.written ++ result.taken l.outgoing
            writeFailed := l.writeFailed || result == .failed })
      else none
  | .broken i => if w.Runs ∧ (w.links i).outgoing ≠ [] then some { w with killed := true } else none
  | .go i => w.turn p ⟨i, .go⟩ (w.links i)
  | .visit i t => w.turn p ⟨i, .visit t⟩ (w.links i)

end Wire

end KvServer
