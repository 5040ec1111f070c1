import DiceOdds.Expr.Basic

namespace DiceOdds

structure Interval (α : Type) where
  lo : α
  hi : α

namespace Interval

open ExtendedScalar

variable {α : Type} [ExtendedScalar α]

def whole : Interval α := ⟨bottom, top⟩

def hull (xs : List α) : Interval α :=
  xs.foldl (fun i x => ⟨lower i.lo x, upper i.hi x⟩) ⟨top, bottom⟩

def containsZero (i : Interval α) : Bool :=
  le i.lo (Scalar.ofNat 0) && le (Scalar.ofNat 0) i.hi

def corners (op : Operator) (x y : Interval α) : List α :=
  [op.apply x.lo y.lo, op.apply x.lo y.hi, op.apply x.hi y.lo, op.apply x.hi y.hi]

def combine : Operator → Interval α → Interval α → Interval α
  | .add, x, y => ⟨x.lo + y.lo, x.hi + y.hi⟩
  | .sub, x, y => ⟨x.lo - y.hi, x.hi - y.lo⟩
  | .mul, x, y => hull (corners .mul x y)
  | .div, x, y => if y.containsZero then whole else hull (corners .div x y)

end Interval

def Expr.bounds {α : Type} [ExtendedScalar α] : Expr → Interval α
  | .roll r => ⟨r.least, r.greatest⟩
  | .binary l op r => Interval.combine op l.bounds r.bounds

end DiceOdds
