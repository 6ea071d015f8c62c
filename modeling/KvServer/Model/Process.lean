/-
The server process: `server_main.cpp` and the threads of `server.cpp`.

The main thread listens, accepts one connection after the other and starts a worker for each; a
worker is `chat_with_client`, and the destructor of its `ClientConnection` when that has returned.
All of them name what they read, write and close by numbers, and the kernel hands a number out
again once it has been closed.  Connections are numbered in the order in which they are accepted,
and so are the clients at the other ends of them.
-/
import KvServer.Model.Wire

namespace KvServer

/-- What a descriptor is open for. -/
inductive Endpoint
  | listening
  /-- the connection to the client that was accepted as this one -/
  | client (k : ConnId)
  deriving DecidableEq

/-- The bytes that have come from a client, and those that have gone to it. -/
structure Socket where
  taken : Str := []
  given : Str := []
  deriving DecidableEq

/-- Where a `ClientConnection` is. -/
inductive Life
  | unmade
  /-- constructed, and known to the main thread only -/
  | made
  /-- with a worker -/
  | served
  | deleted
  deriving DecidableEq

/-- Where the main thread is. -/
inductive MainPc
  /-- at `open_listenfd` -/
  | starting
  /-- at `Accept` -/
  | accepting
  /-- at `pthread_create` -/
  | creating (i : ConnId)
  /-- at `delete client` -/
  | deleting (i : ConnId)
  /-- `main` has returned, or `exit` has been called -/
  | exited (code : Nat)
  deriving DecidableEq

/-- The connection that the main thread has. -/
def MainPc.making : MainPc → Option ConnId
  | .creating i | .deleting i => some i
  | _ => none

def MainPc.hasExited : MainPc → Bool
  | .exited _ => true
  | _ => false

structure Process where
  main : MainPc := .starting
  wire : Wire := .initial
  listenFd : Int := -1
  /-- `m_client_fd` -/
  clientFd : ConnId → Int := fun _ => -1
  life : ConnId → Life := fun _ => .unmade
  /-- How many connections have been accepted. -/
  accepted : Nat := 0
  /-- What the kernel has the numbers for. -/
  descriptors : Int → Option Endpoint := fun _ => none
  sockets : ConnId → Socket := fun _ => {}
  /-- What `log_error` has printed. -/
  errors : List Str := []

/-- The connection an event is about. -/
def Event.conn : Event → ConnId
  | .readline i _ _ | .write i _ | .broken i | .go i | .visit i _ => i

/-- What an event brings from the kernel, and what it gives to it. -/
def Event.moved (w : Wire) : Event → Str × Str
  | .readline _ _ calls => (brought calls, [])
  | .write i result => ([], result.taken (w.links i).outgoing)
  | _ => ([], [])

namespace Process

inductive Event
  /-- `open_listenfd` returns a descriptor -/
  | listen (fd : Nat)
  /-- it returns -1, or -2 where the port is not found -/
  | listenFails (found : Bool)
  | accept (fd : Nat)
  | acceptFails
  /-- `pthread_create` returns 0, or an error -/
  | create (ok : Bool)
  /-- the main thread deletes a connection that no worker has, and that is in no transaction -/
  | delete
  | worker (e : KvServer.Event)
  /-- a worker comes to the end of `~ClientConnection`, and to its own -/
  | close (i : ConnId)
  deriving DecidableEq

/-- No thread has ended the process. -/
def Alive (q : Process) : Prop := q.wire.Runs ∧ q.main.hasExited = false

instance (q : Process) : Decidable q.Alive := by
  unfold Alive
  infer_instance

/-- What `Server::log_error` prints. -/
def logError (what : Str) : Str := bytes "Error: " ++ what ++ bytes "\n"

/-- Bytes move over a descriptor: from and to the client it is for now, if any. -/
def transfer (q : Process) (fd : Int) (took gave : Str) : Option Process :=
  match q.descriptors fd with
  | some (.client k) =>
      let s := q.sockets k
      some { q with
        sockets := Function.update q.sockets k { taken := s.taken ++ took, given := s.given ++ gave } }
  | _ => if took = [] ∧ gave = [] then some q else none

/-- `Server::listen`. -/
def listen (q : Process) (fd : Nat) : Option Process :=
  if q.main = .starting ∧ q.descriptors fd = none then
    some { q with
      main := .accepting
      listenFd := fd
      descriptors := Function.update q.descriptors fd (some .listening) }
  else none

/-- The same: only -1 is an error to it, and one that `main` reports. -/
def listenFails (q : Process) (found : Bool) : Option Process :=
  if q.main = .starting then
    if found then
      some { q with
        main := .exited 1
        errors := q.errors ++ [logError (bytes "Fatal error starting server")] }
    else some { q with main := .accepting, listenFd := -2 }
  else none

/-- `Accept` returns, and a `ClientConnection` is constructed. -/
def accept (q : Process) (fd : Nat) : Option Process :=
  if q.main = .accepting ∧ q.descriptors q.listenFd = some .listening ∧ q.descriptors fd = none then
    some { q with
      main := .creating q.accepted
      clientFd := Function.update q.clientFd q.accepted fd
      life := Function.update q.life q.accepted .made
      accepted := q.accepted + 1
      descriptors := Function.update q.descriptors fd (some (.client q.accepted)) }
  else none

/-- `unix_error`: the process exits with 0. -/
def acceptFails (q : Process) : Option Process :=
  if q.main = .accepting then some { q with main := .exited 0 } else none

def create (q : Process) (ok : Bool) : Option Process :=
  match q.main with
  | .creating i =>
      if ok then some { q with main := .accepting, life := Function.update q.life i .served }
      else
        some { q with
          main := .deleting i
          errors := q.errors ++ [logError (bytes "Could not create client thread")] }
  | _ => none

/-- The connection is closed and gone, whoever deletes it. -/
def delete (q : Process) (i : ConnId) : Process :=
  { q with
    life := Function.update q.life i .deleted
    descriptors := Function.update q.descriptors (q.clientFd i) none }

/-- What a worker does on its way. -/
def worker (p : Platform) (q : Process) (e : KvServer.Event) : Option Process :=
  if q.life e.conn = .served then
    (q.wire.step p e).bind fun w =>
      { q with wire := w }.transfer (q.clientFd e.conn) (e.moved q.wire).1 (e.moved q.wire).2
  else none

/-- One event. -/
def step (p : Platform) (q : Process) (e : Event) : Option Process :=
  if q.Alive then
    match e with
    | .listen fd => q.listen fd
    | .listenFails found => q.listenFails found
    | .accept fd => q.accept fd
    | .acceptFails => q.acceptFails
    | .create ok => q.create ok
    | .delete =>
        match q.main with
        | .deleting i => some { q.delete i with main := .accepting }
        | _ => none
    | .worker e => q.worker p e
    | .close i =>
        if q.life i = .served ∧ (q.wire.state.conns i).pc = .closed ∧ (q.wire.links i).outgoing = []
        then some (q.delete i)
        else none
  else none

end Process

end KvServer
