import DiceOdds.Operator
import DiceOdds.Quantity

namespace DiceOdds

/-- `count` dice with faces `1` to `sides`, added up. -/
structure Roll where
  count : Quantity
  sides : Quantity
  deriving DecidableEq

namespace Roll

def constant (value : Quantity) : Roll := ⟨value, .one⟩

def isConstant (r : Roll) : Bool := r.sides.val == 1

def least {α : Type} [Scalar α] (r : Roll) : α := Scalar.ofNat r.count.val

def greatest {α : Type} [Scalar α] (r : Roll) : α :=
  Scalar.ofNat r.count.val * Scalar.ofNat r.sides.val

end Roll

inductive Expr
  | roll (r : Roll)
  | binary (left : Expr) (op : Operator) (right : Expr)
  deriving DecidableEq

def countable (n : Nat) : Option Nat := if n < 0x10000000000000000 then some n else none

/-- Sixty-four dice of two sides or more have too many outcomes to count. -/
def Roll.outcomeCount (r : Roll) : Option Nat :=
  if r.isConstant then some 1
  else if 64 ≤ r.count.val then none
  else countable (Nat.pow r.sides.val r.count.val)

def Expr.outcomeCount : Expr → Option Nat
  | .roll r => r.outcomeCount
  | .binary l _ r =>
    l.outcomeCount.bind fun m => r.outcomeCount.bind fun n => countable (m * n)

structure Style where
  separator : String
  roll : Roll → String

def Roll.text (r : Roll) : String :=
  if r.isConstant then toString r.count.val
  else toString r.count.val ++ "d" ++ toString r.sides.val

namespace Style

def compact : Style := ⟨"", Roll.text⟩

def spaced : Style := ⟨" ", Roll.text⟩

end Style

namespace Expr

def isBinary : Expr → Bool
  | roll _ => false
  | binary .. => true

def isAdditive : Expr → Bool
  | roll _ => false
  | binary _ op _ => !op.isMultiplicative

def bracketed (b : Bool) (s : String) : String := if b then "(" ++ s ++ ")" else s

/-- A right operand that is binary needs brackets to be read back, since operators chain from the
left. A sum on the left of a product gets them too, so that both readings of the text, with
precedence and without, give the same tree. -/
def render (style : Style) : Expr → String
  | roll r => style.roll r
  | binary l op r =>
    bracketed (op.isMultiplicative && l.isAdditive) (l.render style) ++ style.separator ++
      op.symbol.toString ++ style.separator ++ bracketed r.isBinary (r.render style)

def text (e : Expr) : String := e.render .compact

end Expr

end DiceOdds
