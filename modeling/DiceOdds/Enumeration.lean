import DiceOdds.Expr.Basic
import DiceOdds.Journal

namespace DiceOdds

inductive Overflow
  | tooManyOutcomes (outcomes limit : Nat)
  | uncountable
  deriving DecidableEq

def Overflow.message : Overflow → String
  | tooManyOutcomes outcomes limit =>
    "exact evaluation would produce " ++ toString outcomes ++ " outcomes, over the limit of " ++
      toString limit ++ "; try Monte Carlo mode instead"
  | uncountable =>
    "exact evaluation would produce too many outcomes to count; try Monte Carlo mode instead"

/-- The most outcomes that may be listed; `none` sets no bound. -/
abbrev Cap := Option Nat

namespace Cap

def allow (cap : Cap) : Option Nat → Except Overflow Nat
  | none => .error .uncountable
  | some n =>
    match cap with
    | none => .ok n
    | some limit => if limit < n then .error (.tooManyOutcomes n limit) else .ok n

end Cap

abbrev Enumeration := ExceptT Overflow (Journaled Id)

namespace Enumeration

variable {α : Type} [Scalar α]

def write (r : Record) : Enumeration Unit := ExceptT.lift (Journaled.write r)

def check (cap : Cap) (count : Option Nat) : Enumeration Nat := ExceptT.mk (pure (cap.allow count))

def faces (sides : Quantity) : List α := (List.range sides.val).map fun i => Scalar.ofNat (i + 1)

def pairs (op : Operator) (xs ys : List α) : List α :=
  xs.flatMap fun x => ys.map fun y => op.apply x y

def combine (cap : Cap) (op : Operator) (xs ys : List α) : Enumeration (List α) := do
  let _ ← check cap (countable (xs.length * ys.length))
  return pairs op xs ys

def foldedRecord (sides : Quantity) (count : Nat) : Record :=
  .trace .enumeration
    ("folded a d" ++ toString sides.val ++ " into " ++ toString count ++ " outcomes")

def startRecord (e : Expr) (count : Nat) : Record :=
  .debug .enumeration ("enumerating " ++ toString count ++ " outcomes of " ++ e.text)

theorem length_faces (sides : Quantity) : (faces sides : List α).length = sides.val := by
  simp [faces]

theorem length_pairs (op : Operator) (xs ys : List α) :
    (pairs op xs ys).length = xs.length * ys.length := by
  induction xs with
  | nil => simp [pairs]
  | cons x xs ih =>
    rw [pairs, List.flatMap_cons, List.length_append, List.length_map, ← pairs, ih,
      List.length_cons, Nat.succ_mul, Nat.add_comm]

def addDice (cap : Cap) (sides : Quantity) : Nat → List α → Enumeration (List α)
  | 0, xs => return xs
  | n + 1, xs => do
    let ys ← combine cap .add xs (faces sides)
    write (foldedRecord sides ys.length)
    addDice cap sides n ys

def roll (cap : Cap) (r : Roll) : Enumeration (List α) :=
  if r.isConstant then return [r.least]
  else addDice cap r.sides (r.count.val - 1) (faces r.sides)

/-- All outcomes, each as often as it can be rolled; only what is combined is held to the cap. -/
def walk (cap : Cap) : Expr → Enumeration (List α)
  | .roll r => roll cap r
  | .binary l op r => do
    let xs ← walk cap l
    let ys ← walk cap r
    combine cap op xs ys

def outcomes (cap : Cap) (e : Expr) : Enumeration (List α) := do
  let n ← check cap e.outcomeCount
  write (startRecord e n)
  walk cap e

end Enumeration

end DiceOdds
