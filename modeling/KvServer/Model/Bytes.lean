/-
Bytes, C strings and the exceptions of the source.

Every text of the program is a `std::string`, so it is modelled as a list of
bytes: client names, values and whole lines may hold any of the 256 of them.  The
character classes are those of the C locale, in which the program runs.
-/
import Mathlib.Data.List.AList
import Mathlib.Tactic.Common

namespace KvServer

/-- A `char`, read as the byte it is. -/
abbrev Byte := UInt8

/-- A `std::string`. -/
abbrev Str := List Byte

/-- A string literal of the source; all of them are ASCII. -/
def bytes (s : String) : Str :=
  s.toList.map fun c => UInt8.ofNat c.toNat

def nul : Byte := 0
def newline : Byte := 10
def blank : Byte := 32

/-! ### Character classes of the C locale -/

/-- `isspace`: tab, newline, vertical tab, form feed, carriage return and space. -/
def isSpace (c : Byte) : Bool :=
  c == 32 || (9 ≤ c && c ≤ 13)

def isDigit (c : Byte) : Bool :=
  48 ≤ c && c ≤ 57

def isAlpha (c : Byte) : Bool :=
  (65 ≤ c && c ≤ 90) || (97 ≤ c && c ≤ 122)

def isAlnum (c : Byte) : Bool :=
  isAlpha c || isDigit c

/-! ### Exceptions -/

/--
What a piece of the program can throw: the exception classes of `exceptions.h`
that it uses, those of the standard library, and a hardware trap, which no `catch`
clause sees but which ends the process like an uncaught exception.
-/
inductive Exn
  | invalidMessage (what : Str)
  | operation (what : Str)
  | failedTransaction (what : Str)
  | runtimeError (what : Str)
  | outOfRange
  | invalidArgument
  | trap
  deriving DecidableEq, Repr

/-! ### `std::string`

Positions are those of the source, and what throws there throws here.
-/

/-- `s.substr(pos)`, which throws past the end. -/
def substr (s : Str) (pos : Nat) : Except Exn Str :=
  if s.length < pos then throw .outOfRange else pure (s.drop pos)

/-- `s.substr(pos, len)`. -/
def substrLen (s : Str) (pos len : Nat) : Except Exn Str :=
  if s.length < pos then throw .outOfRange else pure ((s.drop pos).take len)

/-- `s.find(c)`, with `none` for `npos`. -/
def find (s : Str) (c : Byte) : Option Nat :=
  s.findIdx? (· == c)

/-- The `std::string` a `char *` converts to: everything before the first NUL. -/
def cstr (buf : Str) : Str :=
  buf.takeWhile (· != nul)

end KvServer
