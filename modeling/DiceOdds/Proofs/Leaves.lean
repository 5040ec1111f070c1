import DiceOdds.Expr.Basic

namespace DiceOdds

def Roll.dice (r : Roll) : List Nat := List.replicate r.count.val r.sides.val

namespace Expr

def leaves : Expr → List Roll
  | roll r => [r]
  | binary l _ r => l.leaves ++ r.leaves

def rolls (e : Expr) : List Roll := e.leaves.filter fun r => !r.isConstant

def dice (e : Expr) : List Nat := e.rolls.flatMap Roll.dice

def DivisionFree : Expr → Prop
  | roll _ => True
  | binary l op r => l.DivisionFree ∧ r.DivisionFree ∧ op ≠ .div

theorem rolls_constant {r : Roll} (h : r.isConstant = true) : (roll r).rolls = [] := by
  simp [rolls, leaves, h]

theorem rolls_roll {r : Roll} (h : r.isConstant = false) : (roll r).rolls = [r] := by
  simp [rolls, leaves, h]

theorem rolls_binary (l : Expr) (op : Operator) (r : Expr) :
    (binary l op r).rolls = l.rolls ++ r.rolls := by
  simp [rolls, leaves]

theorem dice_binary (l : Expr) (op : Operator) (r : Expr) :
    (binary l op r).dice = l.dice ++ r.dice := by
  simp [dice, rolls_binary]

end Expr

end DiceOdds
