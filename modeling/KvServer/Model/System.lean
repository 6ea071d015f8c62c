/-
The server with all its connections.

A run is a list of turns: which connection moves next, and what it does where it has
a choice.  Every interleaving of the connections is a run, at the granularity of
single calls on a mutex, a table or the catalogue.  Connections are numbered; one
that has not been accepted yet is one that has not read anything.
-/
import KvServer.Model.Connection

namespace KvServer

structure State where
  server : Server
  conns : ConnId → Conn
  /-- The process has ended. -/
  terminated : Bool := false

namespace State

/-- The server has started and nobody has sent anything. -/
def initial : State :=
  { server := .initial, conns := fun _ => {} }

end State

structure Turn where
  conn : ConnId
  choice : Choice
  deriving DecidableEq

/-- The call a turn makes and the connection after it, if the turn can be taken. -/
def State.turn (p : Platform) (s : State) (a : Turn) : Option (Effect × Conn) :=
  if s.terminated then none else (s.conns a.conn).step p s.server a.choice

/-- One turn. -/
def State.step (p : Platform) (s : State) (a : Turn) : Option State :=
  (s.turn p a).map fun (effect, c) =>
    { server := s.server.apply a.conn effect
      conns := Function.update s.conns a.conn c
      terminated := decide (c.pc = .terminated) }

end KvServer
