/-
Arithmetic expressions and the requests that evaluate them.

An expression is sent to the server in postorder: both operands, then the operation.
`Evaluates` is what it should come to, with every intermediate result an `int`.
-/
import Mathlib.Data.Set.Insert
import KvServer.Proofs.Decimal
import KvServer.Proofs.Handlers

namespace KvServer

inductive Expr
  /-- a number, as it is spelled -/
  | lit (text : Str)
  /-- what is stored under a key -/
  | cell (table key : Str)
  | op (o : ArithOp) (left right : Expr)

namespace Expr

def postorder : Expr → List Message
  | lit text => [{ messageType := .push, args := [text] }]
  | cell table key => [{ messageType := .get, args := [table, key] }]
  | op o left right => left.postorder ++ right.postorder ++ [{ messageType := o.messageType }]

/-- The locations an expression reads. -/
def cells : Expr → Set (Str × Str)
  | lit _ => ∅
  | cell table key => {(table, key)}
  | op _ left right => left.cells ∪ right.cells

/-- The value of an expression, where each one inside it has a value that is an `int`. -/
inductive Evaluates (sees : Str → Str → Option Str) : Expr → Int → Prop
  | lit {text : Str} {v : Int} (htext : Spells text v) (hv : InInt v) : Evaluates sees (lit text) v
  | cell {table key text : Str} {v : Int} (hsees : sees table key = some text)
      (htext : Spells text v) (hv : InInt v) : Evaluates sees (cell table key) v
  | op {o : ArithOp} {left right : Expr} {l r : Int} (hleft : Evaluates sees left l)
      (hright : Evaluates sees right r) (hdiv : ¬ (o = .div ∧ r = 0)) (hv : InInt (o.exact l r)) :
      Evaluates sees (op o left right) (o.exact l r)

/-- How the value is spelled: a leaf as it was sent or stored. -/
def spelling (sees : Str → Str → Option Str) (v : Int) : Expr → Str
  | lit text => text
  | cell table key => (sees table key).getD []
  | op _ _ _ => toString v

variable {sees : Str → Str → Option Str} {e : Expr} {v : Int}

theorem Evaluates.inInt (h : e.Evaluates sees v) : InInt v := by
  cases h with
  | lit htext hv => exact hv
  | cell hsees htext hv => exact hv
  | op hleft hright hdiv hv => exact hv

theorem Evaluates.spells (h : e.Evaluates sees v) : Spells (e.spelling sees v) v := by
  cases h with
  | lit htext hv => exact htext
  | cell hsees htext hv =>
      rw [spelling, hsees]
      exact htext
  | op hleft hright hdiv hv => exact spells_toString _

end Expr

end KvServer
