/-
Encoding and decoding of messages: `message_serialization.cpp`.

`decode` is kept in the order of the source: the two length and newline checks,
the trimming loop, the split at the first blank, the stream tokenizer, the chain
of command comparisons, and last the validity check.  Every `substr` can throw in
the model as it can in the source.
-/
import KvServer.Model.Message
import KvServer.Lib.Tokens

namespace KvServer

/-- The `switch` of `encode`. -/
def commandStr : MessageType → Except Exn Str
  | .login => pure (bytes "LOGIN")
  | .create => pure (bytes "CREATE")
  | .push => pure (bytes "PUSH")
  | .pop => pure (bytes "POP")
  | .top => pure (bytes "TOP")
  | .set => pure (bytes "SET")
  | .get => pure (bytes "GET")
  | .add => pure (bytes "ADD")
  | .sub => pure (bytes "SUB")
  | .mul => pure (bytes "MUL")
  | .div => pure (bytes "DIV")
  | .begin => pure (bytes "BEGIN")
  | .commit => pure (bytes "COMMIT")
  | .bye => pure (bytes "BYE")
  | .ok => pure (bytes "OK")
  | .failed => pure (bytes "FAILED")
  | .error => pure (bytes "ERROR")
  | .data => pure (bytes "DATA")
  | .none => throw (.invalidMessage (bytes "Cannot encode message with invalid or NONE type"))

/-- The string stream after the loop over the arguments. -/
def writeArgs (ss : Str) (args : List Str) : Str :=
  args.foldl (fun ss arg => ss ++ bytes " " ++ arg) ss

/-- `MessageSerialization::encode`. -/
def encode (msg : Message) : Except Exn Str := do
  let command ← commandStr msg.messageType
  let encodedMsg := writeArgs command msg.args ++ [newline]
  if encodedMsg.length > maxEncodedLen then
    throw (.invalidMessage (bytes "Encoded message exceeds maximum length"))
  else
    return encodedMsg

/-- The chain of comparisons in `decode`. -/
def commandType (command : Str) : Except Exn MessageType :=
  if command = bytes "LOGIN" then pure .login
  else if command = bytes "CREATE" then pure .create
  else if command = bytes "PUSH" then pure .push
  else if command = bytes "POP" then pure .pop
  else if command = bytes "TOP" then pure .top
  else if command = bytes "SET" then pure .set
  else if command = bytes "GET" then pure .get
  else if command = bytes "ADD" then pure .add
  else if command = bytes "SUB" then pure .sub
  else if command = bytes "MUL" then pure .mul
  else if command = bytes "DIV" then pure .div
  else if command = bytes "BEGIN" then pure .begin
  else if command = bytes "COMMIT" then pure .commit
  else if command = bytes "BYE" then pure .bye
  else if command = bytes "OK" then pure .ok
  else if command = bytes "FAILED" then pure .failed
  else if command = bytes "ERROR" then pure .error
  else if command = bytes "DATA" then pure .data
  else throw (.invalidMessage (bytes "Unknown command"))

/-- The trimming loop of `decode`: how far `start` runs. -/
def skipSpaces : Str → Nat
  | [] => 0
  | c :: cs => if isSpace c then skipSpaces cs + 1 else 0

/-- The command word of a trimmed line, and its arguments. -/
def splitLine (line : Str) : Except Exn (Str × List Str) :=
  match find line blank with
  | none => pure (line, [])
  | some pos => do
      let command ← substrLen line 0 pos
      if command = bytes "FAILED" ∨ command = bytes "ERROR" then
        let rest ← substr line (pos + 1)
        return (command, [rest])
      else
        let rest ← substr line (pos + 1)
        -- `while (ss >> token) args.push_back(token)`
        return (command, Lexing.tokens isSpace rest)

/-- The part of `decode` after the trimming loop. -/
def decodeLine (line : Str) : Except Exn Message :=
  if line.isEmpty then
    throw (.invalidMessage (bytes "Message is empty"))
  else do
    let (command, args) ← splitLine line
    let type ← commandType command
    let msg : Message := { messageType := type, args := args }
    if !msg.isValid then
      throw (.invalidMessage (bytes "Invalid message format for the given type"))
    else
      return msg

/-- `MessageSerialization::decode`. -/
def decode (encodedMsg : Str) : Except Exn Message :=
  if encodedMsg.length > maxEncodedLen then
    throw (.invalidMessage (bytes "Encoded message exceeds maximum length"))
  else if encodedMsg.getLast? ≠ some newline then
    throw (.invalidMessage (bytes "Message is not terminated by newline"))
  else do
    let line ← substrLen encodedMsg 0 (encodedMsg.length - 1)
    let line ← substr line (skipSpaces line)
    decodeLine line

end KvServer
