import DiceOdds.Decimal
import DiceOdds.Expr.Bounds
import DiceOdds.Journal
import Std.Data.TreeMap

namespace DiceOdds

structure Bin where
  value : Int
  count : Nat
  deriving DecidableEq

namespace Bin

/-- A table over so many values or more lists only those that occurred. -/
def maxSpread : Int := 0x10000

def tally (values : List Int) : Std.TreeMap Int Nat :=
  values.foldl (fun counts v => counts.insert v (counts.getD v 0 + 1)) ∅

def rangeOf (lo hi : Int) : List Int :=
  (List.range (hi - lo + 1).toNat).map fun (i : Nat) => lo + i

def table (values : List Int) (lo hi : Int) : List Bin :=
  let counts := tally values
  if hi - lo < maxSpread then (rangeOf lo hi).map fun v => ⟨v, counts.getD v 0⟩
  else counts.toList.map fun (v, n) => ⟨v, n⟩

end Bin

inductive Weighting
  | sampled
  | equal
  deriving DecidableEq

namespace Weighting

def label : Weighting → String
  | sampled => "Frequency"
  | equal => "Probability"

def weigh {α : Type} [Scalar α] (w : Weighting) (total count : Nat) : α :=
  match w with
  | sampled => Scalar.ofNat count
  | equal => Scalar.ofNat count / Scalar.ofNat total

end Weighting

/-- What a sequence of outcomes comes to. Those that are not finite count towards the total and
towards nothing else. -/
structure Summary where
  weighting : Weighting
  total : Nat
  nonFinite : Nat
  extremes : Interval Float
  mean : Float
  deviation : Float
  bins : List Bin

namespace Summary

def empty (weighting : Weighting) (total : Nat) : Summary :=
  ⟨weighting, total, total, ⟨0, 0⟩, 0, 0, []⟩

def ofFinite (weighting : Weighting) (total : Nat) (finite : List Float) : Summary :=
  let extremes := Interval.hull finite
  { weighting := weighting
    total := total
    nonFinite := total - finite.length
    extremes := extremes
    mean := Scalar.mean finite
    deviation := (Scalar.variance finite).sqrt
    bins := Bin.table (finite.map Binary64.toInteger) (Binary64.toInteger extremes.lo)
      (Binary64.toInteger extremes.hi) }

def ofOutcomes (weighting : Weighting) (outcomes : List Float) : Summary :=
  let finite := outcomes.filter Float.isFinite
  if finite.isEmpty then empty weighting outcomes.length
  else ofFinite weighting outcomes.length finite

def isEmpty (s : Summary) : Bool := s.bins.isEmpty

def record (s : Summary) : Record :=
  .debug .summary
    ("summarized " ++ toString s.total ++ " outcomes (" ++ toString s.nonFinite ++
      " non-finite): min " ++ Decimal.text s.extremes.lo ++ ", max " ++
      Decimal.text s.extremes.hi ++ ", mean " ++ Decimal.fixed 3 s.mean)

def tell {m : Type → Type} [Monad m] (s : Summary) : Journaled m Unit :=
  if s.isEmpty then pure () else Journaled.write s.record

section

variable {α : Type}

def weight [Scalar α] (s : Summary) (b : Bin) : α := s.weighting.weigh s.total b.count

def maxWeight [ExtendedScalar α] (s : Summary) : α :=
  (s.bins.map s.weight).foldl ExtendedScalar.upper (Scalar.ofNat 0)

def probabilityAtLeast [Scalar α] (s : Summary) (value : Int) : α :=
  if s.total = 0 then Scalar.ofNat 0
  else
    let mass : α := Scalar.sum ((s.bins.filter fun b => value ≤ b.value).map s.weight)
    match s.weighting with
    | .sampled => mass / Scalar.ofNat s.total
    | .equal => mass

end

end Summary

end DiceOdds
