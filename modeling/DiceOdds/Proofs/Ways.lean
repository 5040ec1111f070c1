import DiceOdds.Proofs.Counting

namespace DiceOdds

def Roll.ways (r : Roll) : ℕ := r.sides.val ^ r.count.val

/-- A factor times a power, by repeated squaring. Every product on the way has to be countable, and
no square is taken that the power does not need. -/
def raise (factor base exponent : ℕ) : Option ℕ :=
  if exponent ≤ 1 then countable (factor * base ^ exponent)
  else if exponent % 2 = 1 then
    (countable (factor * base)).bind fun factor' =>
      (countable (base * base)).bind fun square => raise factor' square (exponent / 2)
  else (countable (base * base)).bind fun square => raise factor square (exponent / 2)
termination_by exponent

theorem bind_countable {m n : ℕ} {f : ℕ → Option ℕ} (hle : n ≤ m) (h : f n = countable m) :
    (countable n).bind f = countable m := by
  by_cases hn : n < 2 ^ 64
  · rw [countable_eq_some_iff.2 ⟨rfl, hn⟩, Option.bind_some, h]
  · have hn' := Nat.not_lt.1 hn
    rw [countable_eq_none_iff.2 hn', Option.bind_none,
      countable_eq_none_iff.2 (Nat.le_trans hn' hle)]

/-- No product on the way to a power is larger than it. -/
theorem raise_eq {factor base : ℕ} (hfactor : 0 < factor) (hbase : 0 < base) (exponent : ℕ) :
    raise factor base exponent = countable (factor * base ^ exponent) := by
  induction exponent using Nat.strongRecOn generalizing factor base with
  | ind exponent ih =>
    rw [raise]
    by_cases hone : exponent ≤ 1
    · rw [if_pos hone]
    · have hlt : exponent / 2 < exponent := by omega
      have hpower : (base * base) ^ (exponent / 2) = base ^ (2 * (exponent / 2)) := by
        rw [← sq, pow_mul]
      have hsquare : base * base ≤ factor * base ^ exponent := by
        have htwo : base ^ 2 ≤ base ^ exponent := Nat.pow_le_pow_right hbase (by omega)
        rw [← sq]
        exact Nat.le_trans htwo (Nat.le_mul_of_pos_left _ hfactor)
      rw [if_neg hone]
      split_ifs with hodd
      · have hproduct : factor * base ≤ factor * base ^ exponent :=
          Nat.mul_le_mul_left factor (Nat.le_self_pow (by omega) base)
        refine bind_countable hproduct (bind_countable hsquare ?_)
        rw [ih _ hlt (Nat.mul_pos hfactor hbase) (Nat.mul_pos hbase hbase), hpower, mul_assoc,
          ← pow_succ', show 2 * (exponent / 2) + 1 = exponent by omega]
      · refine bind_countable hsquare ?_
        rw [ih _ hlt hfactor (Nat.mul_pos hbase hbase), hpower,
          show 2 * (exponent / 2) = exponent by omega]

namespace Expr

def ways (e : Expr) : ℕ := (e.leaves.map Roll.ways).prod

def parts : Expr → List Expr
  | roll r => [roll r]
  | binary l op r => binary l op r :: (l.parts ++ r.parts)

theorem ways_roll (r : Roll) : (roll r).ways = r.ways := List.prod_singleton

theorem ways_binary (l : Expr) (op : Operator) (r : Expr) :
    (binary l op r).ways = l.ways * r.ways := by
  rw [ways, leaves, List.map_append, List.prod_append]
  rfl

theorem prod_dice_eq_ways (e : Expr) : e.dice.prod = e.ways := by
  induction e with
  | roll r =>
      rw [ways_roll]
      cases hr : r.isConstant with
      | true =>
          have hone : r.sides.val = 1 := by simpa [Roll.isConstant] using hr
          rw [dice, rolls_constant hr, Roll.ways, hone, one_pow]
          rfl
      | false =>
          rw [dice, rolls_roll hr, List.flatMap_singleton, Roll.prod_dice]
          rfl
  | binary l op r ihl ihr => rw [dice_binary, List.prod_append, ihl, ihr, ways_binary]

theorem ways_pos (e : Expr) : 0 < e.ways := prod_dice_eq_ways e ▸ e.prod_dice_pos

theorem outcomeCount_eq_countable_ways (e : Expr) : e.outcomeCount = countable e.ways := by
  rw [outcomeCount_eq, prod_dice_eq_ways]

/-- No factor is zero, and so no part has a larger product than the whole. -/
theorem ways_le_of_mem_parts {e part : Expr} (h : part ∈ e.parts) : part.ways ≤ e.ways := by
  induction e with
  | roll r =>
      obtain rfl := List.mem_singleton.1 h
      exact Nat.le_refl _
  | binary l op r ihl ihr =>
      rcases List.mem_cons.1 h with rfl | h
      · exact Nat.le_refl _
      · rw [ways_binary]
        rcases List.mem_append.1 h with hl | hr
        · exact Nat.le_trans (ihl hl) (Nat.le_mul_of_pos_right _ r.ways_pos)
        · exact Nat.le_trans (ihr hr) (Nat.le_mul_of_pos_left _ l.ways_pos)

theorem ways_perm {e e' : Expr} (h : e.leaves.Perm e'.leaves) : e.ways = e'.ways :=
  (h.map Roll.ways).prod_eq

/-- The number of outcomes is the product over all leaves wherever 64 bits hold that, whatever the
tree looks like. Neither a part of it nor a square within a power is too large to count before the
product is. -/
theorem outcomeCount_leaves (e : Expr) :
    let product (e : Expr) : ℕ := (e.leaves.map fun r => r.sides.val ^ r.count.val).prod
    (e.outcomeCount = if product e < 2 ^ 64 then some (product e) else none) ∧
    (product e < 2 ^ 64 → ∀ part ∈ e.parts, part.outcomeCount = some (product part)) ∧
    (∀ r ∈ e.leaves, r.outcomeCount = raise 1 r.sides.val r.count.val) ∧
    ∀ e' : Expr, e.leaves.Perm e'.leaves → e'.outcomeCount = e.outcomeCount := by
  intro product
  refine ⟨e.outcomeCount_eq_countable_ways, ?_, ?_, ?_⟩
  · intro hproduct part hpart
    rw [outcomeCount_eq_countable_ways, countable_eq_some_iff]
    exact ⟨rfl, Nat.lt_of_le_of_lt (ways_le_of_mem_parts hpart) hproduct⟩
  · intro r _
    rw [raise_eq Nat.one_pos r.sides.pos, one_mul]
    exact (roll r).outcomeCount_eq_countable_ways.trans (congrArg countable (ways_roll r))
  · intro e' h
    rw [outcomeCount_eq_countable_ways, outcomeCount_eq_countable_ways, ways_perm h]

end Expr

end DiceOdds
