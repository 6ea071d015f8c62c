/-
The client tools `set_value`, `get_value` and `incr_value`.

A tool talks over one connection, strictly in turn: it writes a request, reads one
line into a buffer it uses for all replies, and decodes the buffer.  The connection is
taken as established; what the server sends over it, up to end of input, is a list of
bytes.  Writes are taken to succeed.
-/
import KvServer.Model.Rio
import KvServer.Model.Serialization

namespace KvServer

/-- A tool's side of its connection. -/
structure Session where
  /-- what the server still sends -/
  input : Str
  /-- the memory from `buf` on -/
  buf : Str
  /-- the lines written so far -/
  written : List Str := []

abbrev ClientM := StateT Session (Except Exn)

def writeRequest (req : Message) : ClientM Unit := do
  let encoded ← encode req
  modify fun s => { s with written := s.written ++ [encoded] }

/-- The result of `rio_readlineb` is not looked at: `buf` is decoded whatever it was. -/
def readReply : ClientM Message := do
  let s ← get
  let r := rioReadlineb s.input s.buf maxEncodedLen
  set { s with input := r.rest, buf := r.buf }
  decode (cstr r.buf)

/-- One of the blocks of `main`: a request that must be answered OK. -/
def ask (name : Str) (req : Message) : ClientM Unit := do
  writeRequest req
  let resp ← readReply
  if resp.messageType ≠ .ok then
    throw (.runtimeError
      (bytes "Error: " ++ name ++ bytes " failed. Server response: " ++ resp.getQuotedText))
  else
    return ()

/-- `main` of `set_value.cpp`, from the first request on. -/
def setValue (username table key value : Str) : ClientM Unit := do
  ask (bytes "LOGIN") { messageType := .login, args := [username] }
  ask (bytes "PUSH") { messageType := .push, args := [value] }
  ask (bytes "SET") { messageType := .set, args := [table, key] }
  writeRequest { messageType := .bye }

/-- `main` of `get_value.cpp`, from the first request on, with what it prints. -/
def getValue (username table key : Str) : ClientM Str := do
  ask (bytes "LOGIN") { messageType := .login, args := [username] }
  ask (bytes "GET") { messageType := .get, args := [table, key] }
  writeRequest { messageType := .top }
  let resp ← readReply
  if resp.messageType ≠ .data then
    throw (.runtimeError (bytes "Error: Expected DATA response, but received something else."))
  else
    writeRequest { messageType := .bye }
    return resp.getValue

/-- `main` of `incr_value.cpp`, from the first request on. -/
def incrValue (useTransaction : Bool) (username table key : Str) : ClientM Unit := do
  ask (bytes "LOGIN") { messageType := .login, args := [username] }
  if useTransaction then
    ask (bytes "BEGIN") { messageType := .begin }
  ask (bytes "GET") { messageType := .get, args := [table, key] }
  ask (bytes "PUSH") { messageType := .push, args := [bytes "1"] }
  ask (bytes "ADD") { messageType := .add }
  ask (bytes "SET") { messageType := .set, args := [table, key] }
  if useTransaction then
    ask (bytes "COMMIT") { messageType := .commit }
  writeRequest { messageType := .bye }

/-- The `try` block around a tool: any exception makes `main` return 1. -/
def exitCode (body : ClientM Unit) (s : Session) : Nat :=
  match body s with
  | .ok _ => 0
  | .error _ => 1

/-- A tool that insists on OK throughout, with its arguments. -/
inductive Tool
  | setValue (username table key value : Str)
  | incrValue (useTransaction : Bool) (username table key : Str)

def Tool.body : Tool → ClientM Unit
  | .setValue username table key value => KvServer.setValue username table key value
  | .incrValue useTransaction username table key =>
      KvServer.incrValue useTransaction username table key

end KvServer
