/-
The operand stack: `value_stack.cpp`.
-/
import KvServer.Model.Bytes

namespace KvServer

/-- `m_vector`, listed from `back()` down. -/
structure ValueStack where
  vector : List Str := []
  deriving DecidableEq

namespace ValueStack

def isEmpty (s : ValueStack) : Bool := s.vector.isEmpty

def push (s : ValueStack) (value : Str) : ValueStack := { vector := value :: s.vector }

def getTop (s : ValueStack) : Except Exn Str :=
  match s.vector with
  | [] => throw (.operation (bytes "fail to get top: The stack is empty"))
  | value :: _ => pure value

def pop (s : ValueStack) : Except Exn ValueStack :=
  match s.vector with
  | [] => throw (.operation (bytes "fail to pop: The stack is empty"))
  | _ :: rest => pure { vector := rest }

def getNumOfStack (s : ValueStack) : Nat := s.vector.length

end ValueStack

end KvServer
