/-
Tools running against the server.

`Model/Clients` has the `main` of a tool as a function of everything its connection delivers.
Here the same `main` goes on by one request or one reply at a time, so that any number of tools
and the server can take turns.  A tool is the list of its `Exchange`s, with BYE after the last
one, and a `Task` is a tool that is running.  Each side reads the bytes the other has written,
through `rio_readlineb`, which returns once it has a line or a full buffer, or at end of input;
the connections stay up until one side closes them.
-/
import KvServer.Model.Clients
import KvServer.Model.System

namespace KvServer

/-! ### A tool, step by step

The three `main`s have the same shape and differ in their requests, so there is one transition
for a request and one for a reply, over the list of exchanges still to be made.
-/

/-- A request of a tool, and the type of reply without which `main` throws. -/
structure Exchange where
  request : Message
  reply : MessageType := .ok

/-- The lines that go to `std::cout` of a reply. -/
def Exchange.output (x : Exchange) (resp : Message) : List Str :=
  if x.reply = .data then [resp.getValue] else []

def setValueExchanges (username table key value : Str) : List Exchange :=
  [{ request := { messageType := .login, args := [username] } },
    { request := { messageType := .push, args := [value] } },
    { request := { messageType := .set, args := [table, key] } }]

def getValueExchanges (username table key : Str) : List Exchange :=
  [{ request := { messageType := .login, args := [username] } },
    { request := { messageType := .get, args := [table, key] } },
    { request := { messageType := .top }, reply := .data }]

def incrValueExchanges (useTransaction : Bool) (username table key : Str) : List Exchange :=
  [{ request := { messageType := .login, args := [username] } }] ++
    (if useTransaction then [{ request := { messageType := .begin } }] else []) ++
    [{ request := { messageType := .get, args := [table, key] } },
      { request := { messageType := .push, args := [bytes "1"] } },
      { request := { messageType := .add } },
      { request := { messageType := .set, args := [table, key] } }] ++
    (if useTransaction then [{ request := { messageType := .commit } }] else [])

/-- Where a tool is in its `main`. -/
inductive Errand
  /-- about to write the first of these requests, or BYE when there is none left -/
  | ask (xs : List Exchange)
  /-- at `rio_readlineb`, for the reply to `x`, with these to follow -/
  | await (x : Exchange) (xs : List Exchange)
  /-- `main` has returned, and the tool's end of the connection is closed -/
  | returned (code : Nat)

/-- `rio_readlineb` does not wait for more than this. -/
def Arrived (input : Str) : Prop :=
  newline ∈ input.take (maxEncodedLen - 1) ∨ maxEncodedLen - 1 ≤ input.length

instance (input : Str) : Decidable (Arrived input) := by unfold Arrived; infer_instance

structure Task where
  errand : Errand
  /-- the memory from `buf` on -/
  buf : Str := []
  written : List Str := []
  /-- how many bytes have been read -/
  consumed : Nat := 0
  printed : List Str := []

namespace Task

/-- A tool that has its connection; its `buf` is not initialised. -/
def start (xs : List Exchange) (buf : Str) : Task := { errand := .ask xs, buf := buf }

def hasReturned (k : Task) : Bool :=
  match k.errand with
  | .returned _ => true
  | _ => false

/-- The next request, or BYE. -/
def write (k : Task) : Option Task :=
  match k.errand with
  | .ask [] =>
      match encode { messageType := .bye } with
      | .ok encoded => some { k with errand := .returned 0, written := k.written ++ [encoded] }
      | .error _ => some { k with errand := .returned 1 }
  | .ask (x :: xs) =>
      match encode x.request with
      | .ok encoded => some { k with errand := .await x xs, written := k.written ++ [encoded] }
      | .error _ => some { k with errand := .returned 1 }
  | _ => none

/-- The reply, read from what has arrived. -/
def read (k : Task) (arrived : Str) : Option Task :=
  match k.errand with
  | .await x xs =>
      let r := rioReadlineb arrived k.buf maxEncodedLen
      let k := { k with buf := r.buf, consumed := k.consumed + r.n }
      match decode (cstr r.buf) with
      | .ok resp =>
          if resp.messageType ≠ x.reply then some { k with errand := .returned 1 }
          else some { k with errand := .ask xs, printed := k.printed ++ x.output resp }
      | .error _ => some { k with errand := .returned 1 }
  | _ => none

/-- What the tool has written and the server has not read. -/
def incoming (k : Task) (c : Conn) : Str :=
  k.written.flatten.drop c.received.flatten.length

/-- What the server has written and the tool has not read. -/
def unread (k : Task) (c : Conn) : Str :=
  c.sent.flatten.drop k.consumed

/-- What the server reads is what the tool has written. -/
def Delivers (k : Task) (c : Conn) : Choice → Prop
  | .recv line => line = (readLoop (maxEncodedLen - 1) (k.incoming c)).1 ∧
      (Arrived (k.incoming c) ∨ k.hasReturned)
  | .eof => k.incoming c = [] ∧ k.hasReturned
  | _ => True

instance (k : Task) (c : Conn) : ∀ ch, Decidable (k.Delivers c ch)
  | .recv _ => inferInstanceAs (Decidable (_ ∧ (_ ∨ _)))
  | .eof => inferInstanceAs (Decidable (_ ∧ _))
  | .go => .isTrue trivial
  | .visit _ => .isTrue trivial

end Task

/-! ### The tools and the server

A tool and the server meet only in the bytes of their connection: the server takes a turn at
it when what it is to read is there, and the tool reads when its reply is.
-/

structure Tools where
  state : State
  /-- the tool at a connection; with none it may be anybody -/
  task : ConnId → Option Task

namespace Tools

/-- A turn of the server can be taken. -/
def Admits (w : Tools) (a : Turn) : Prop :=
  match w.task a.conn with
  | some k => k.Delivers (w.state.conns a.conn) a.choice
  | none => True

instance (w : Tools) (a : Turn) : Decidable (w.Admits a) := by
  unfold Admits
  split <;> infer_instance

def setTask (w : Tools) (i : ConnId) (k : Task) : Tools :=
  { w with task := Function.update w.task i (some k) }

/-- The exit code of the tool at a connection, and what it has printed. -/
def exit (w : Tools) (i : ConnId) : Option (Nat × List Str) :=
  (w.task i).bind fun k =>
    match k.errand with
    | .returned code => some (code, k.printed)
    | _ => none

inductive Event
  /-- the server, at the connection of a tool or at any other -/
  | turn (a : Turn)
  /-- a tool writes, -/
  | write (i : ConnId)
  /-- or reads -/
  | read (i : ConnId)

/-- One event. -/
def step (p : Platform) (w : Tools) : Event → Option Tools
  | .turn a =>
      if w.Admits a then (w.state.step p a).map fun s => { w with state := s } else none
  | .write i => (w.task i).bind fun k => k.write.map (w.setTask i)
  | .read i =>
      (w.task i).bind fun k =>
        let unread := k.unread (w.state.conns i)
        if Arrived unread ∨ (w.state.conns i).pc = .closed then (k.read unread).map (w.setTask i)
        else none

end Tools

end KvServer
