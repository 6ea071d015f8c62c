/-
Messages and their validity: `message.h` and `message.cpp`.
-/
import KvServer.Model.Bytes

namespace KvServer

/-- `enum class MessageType`. -/
inductive MessageType
  | none
  -- requests
  | login | create | push | pop | top | set | get
  | add | sub | mul | div | begin | commit | bye
  -- responses
  | ok | failed | error | data
  deriving DecidableEq, Repr

/-- The requests a client sends, as the comment in `message.h` groups them. -/
def MessageType.isRequest : MessageType → Bool
  | .login | .create | .push | .pop | .top | .set | .get
  | .add | .sub | .mul | .div | .begin | .commit | .bye => true
  | _ => false

structure Message where
  messageType : MessageType
  args : List Str := []
  deriving DecidableEq, Repr

/-- `Message::MAX_ENCODED_LEN`, the newline included. -/
def maxEncodedLen : Nat := 1024

namespace Message

/-- `m_args[0]`; only called on valid messages, which have the argument. -/
def getTable (m : Message) : Str := m.args.getD 0 []

/-- `m_args[1]`. -/
def getKey (m : Message) : Str := m.args.getD 1 []

/-- `m_args[0]`. -/
def getValue (m : Message) : Str := m.args.getD 0 []

/-- The first argument without the double quotes around it, if it has both. -/
def getQuotedText (m : Message) : Str :=
  match m.args with
  | [] => []
  | arg :: _ =>
      if 2 ≤ arg.length ∧ arg.head? = some 34 ∧ arg.getLast? = some 34 then
        (arg.drop 1).take (arg.length - 2)
      else arg

end Message

def isIdentifier : Str → Bool
  | [] => false
  | c :: cs => isAlpha c && cs.all fun c => isAlnum c || c == 95

def isValue (s : Str) : Bool :=
  !s.isEmpty && s.all fun c => !isSpace c

/-- `Message::is_valid`. -/
def Message.isValid (m : Message) : Bool :=
  match m.messageType with
  | .login | .create =>
      match m.args with
      | [name] => isIdentifier name
      | _ => false
  | .push | .data =>
      match m.args with
      | [value] => isValue value
      | _ => false
  | .set | .get =>
      match m.args with
      | [table, key] => isIdentifier table && isIdentifier key
      | _ => false
  | .pop | .top | .add | .sub | .mul | .div | .begin | .commit | .bye | .ok =>
      m.args.isEmpty
  | .failed | .error => m.args.length == 1
  | .none => false

end KvServer
