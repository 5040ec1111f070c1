import DiceOdds.Expr.Basic
import DiceOdds.Summary

namespace DiceOdds.Session

structure Row where
  label : List Char
  bar : Nat
  weight : List Char

namespace Chart

def barWidth : Nat := 50

def weightText (s : Summary) (weight : Float) : String :=
  match s.weighting with
  | .sampled => Decimal.text weight
  | .equal => Decimal.fixed 4 (weight * 100.0) ++ "%"

def barLength (greatest weight : Float) : Nat :=
  (Binary64.toInteger (weight / greatest * Float.ofNat barWidth)).toNat

def row (s : Summary) (greatest : Float) (b : Bin) : Row :=
  { label := (toString b.value).toList
    bar := barLength greatest (s.weight b)
    weight := (weightText s (s.weight b)).toList }

def rows (s : Summary) : List Row :=
  let greatest : Float := s.maxWeight
  if greatest ≤ 0 then [] else s.bins.map (row s greatest)

def labelWidth (rows : List Row) : Nat := (rows.map fun r => r.label.length).foldl max 0

def divider : List Char := [' ', '|', ' ']

def header (width : Nat) (title : String) : List Char :=
  Text.padLeft ' ' width [] ++ divider ++ title.toList

def line (width : Nat) (r : Row) : List Char :=
  Text.padLeft ' ' width r.label ++ divider ++
    Text.padRight ' ' barWidth (List.replicate r.bar '#') ++ ' ' :: r.weight

def lines (s : Summary) : List String :=
  match rows s with
  | [] => []
  | rs =>
    let width := labelWidth rs
    (header width s.weighting.label :: rs.map (line width)).map String.ofList

end Chart

def headline (e : Expr) (s : Summary) : String :=
  e.render .spaced ++ ": " ++ toString s.total ++ " outcomes, min " ++
    Decimal.text s.extremes.lo ++ ", max " ++ Decimal.text s.extremes.hi ++ ", mean " ++
    Decimal.fixed 3 s.mean ++ ", std dev " ++ Decimal.fixed 3 s.deviation

def omission (s : Summary) : List String :=
  if s.nonFinite = 0 then []
  else ["  " ++ toString s.nonFinite ++ " outcomes divided by zero and are not shown"]

def report (e : Expr) (s : Summary) : List String := headline e s :: (omission s ++ Chart.lines s)

end DiceOdds.Session
