namespace DiceOdds

/-- Numbers that outcomes are computed in. `neutral` is where sums start: adding it on the left
changes no number, not even the sign of a zero. -/
class Scalar (α : Type) extends Add α, Sub α, Mul α, Div α where
  ofNat : Nat → α
  neutral : α

/-- Scalars with an order and a number beyond either end of it. A scalar that is not below itself
stands for no number. -/
class ExtendedScalar (α : Type) extends Scalar α where
  bottom : α
  top : α
  le : α → α → Bool

namespace Scalar

variable {α : Type}

def sum [Scalar α] (xs : List α) : α := xs.foldl (· + ·) neutral

def mean [Scalar α] (xs : List α) : α := sum xs / ofNat xs.length

def variance [Scalar α] (xs : List α) : α :=
  let center := mean xs
  mean (xs.map fun x => (x - center) * (x - center))

end Scalar

namespace ExtendedScalar

variable {α : Type} [ExtendedScalar α]

/-- The smaller of two, or the one that is a number; of equal ones the first. -/
def lower (x y : α) : α := if le x y then x else if le y y then y else x

def upper (x y : α) : α := if le y x then x else if le y y then y else x

end ExtendedScalar

instance : ExtendedScalar Float where
  ofNat := Float.ofNat
  neutral := -0.0
  bottom := -1.0 / 0.0
  top := 1.0 / 0.0
  le x y := x ≤ y

end DiceOdds
