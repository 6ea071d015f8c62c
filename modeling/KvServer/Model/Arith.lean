/-
Text and machine integers: `std::stoi`, `std::to_string` and `int` arithmetic.

C++ leaves a result outside the range of `int` undefined.  What the machine does
then is a parameter of the whole model: it delivers some `int`, or it traps.
-/
import Mathlib.Data.Nat.Digits.Defs
import KvServer.Model.Bytes

namespace KvServer

/-- The values of a 32-bit `int`. -/
def InInt (v : Int) : Prop := -2147483648 ≤ v ∧ v ≤ 2147483647

instance (v : Int) : Decidable (InInt v) := by unfold InInt; infer_instance

inductive ArithOp
  | add | sub | mul | div
  deriving DecidableEq, Repr

/-- The mathematical result; division truncates toward zero. -/
def ArithOp.exact : ArithOp → Int → Int → Int
  | .add, l, r => l + r
  | .sub, l, r => l - r
  | .mul, l, r => l * r
  | .div, l, r => l.tdiv r

/-- What the machine does where the result does not fit: some `int`, or a trap. -/
structure Platform where
  overflow : ArithOp → Int → Int → Option { v : Int // InInt v }

/-- One `int` operation. -/
def arith (p : Platform) (op : ArithOp) (l r : Int) : Except Exn Int :=
  if InInt (op.exact l r) then pure (op.exact l r)
  else
    match p.overflow op l r with
    | some v => pure v.val
    | none => throw .trap

/-- The number a string of decimal digits spells. -/
def digitsValue (s : Str) : Nat :=
  s.foldl (fun n c => 10 * n + (c.toNat - 48)) 0

def signedValue (negative : Bool) (digits : Str) : Int :=
  if negative then -(digitsValue digits : Int) else digitsValue digits

/-- The optional sign `std::stoi` takes before the digits. -/
def takeSign : Str → Bool × Str
  | [] => (false, [])
  | c :: s => if c = 45 then (true, s) else if c = 43 then (false, s) else (false, c :: s)

/-- `std::stoi`: blanks, a sign and the longest run of digits; what follows is ignored. -/
def stoi (s : Str) : Except Exn Int :=
  let (negative, s) := takeSign (s.dropWhile isSpace)
  let digits := s.takeWhile isDigit
  if digits = [] then throw .invalidArgument
  else if InInt (signedValue negative digits) then pure (signedValue negative digits)
  else throw .outOfRange

/-- The decimal spelling of a natural number. -/
def natSpelling (n : Nat) : Str :=
  if n = 0 then [48] else (Nat.digits 10 n).reverse.map fun d => UInt8.ofNat (48 + d)

/-- `std::to_string` of an `int`. -/
def toString (v : Int) : Str :=
  if v < 0 then 45 :: natSpelling v.natAbs else natSpelling v.natAbs

end KvServer
