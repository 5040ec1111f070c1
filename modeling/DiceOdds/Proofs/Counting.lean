import DiceOdds.Proofs.EnumeratedOutcomes

namespace DiceOdds

theorem countable_eq_some_iff {m n : ℕ} : countable m = some n ↔ m = n ∧ n < 2 ^ 64 := by
  unfold countable
  split_ifs with h
  · constructor
    · intro heq
      obtain rfl := Option.some.inj heq
      exact ⟨rfl, h⟩
    · rintro ⟨rfl, -⟩
      rfl
  · constructor
    · intro heq
      cases heq
    · rintro ⟨rfl, hlt⟩
      exact absurd hlt h

theorem countable_eq_none_iff {n : ℕ} : countable n = none ↔ 2 ^ 64 ≤ n := by
  unfold countable
  split_ifs with h
  · exact ⟨nofun, fun hle => absurd h (Nat.not_lt.2 hle)⟩
  · exact ⟨fun _ => Nat.not_lt.1 h, fun _ => rfl⟩

theorem Roll.outcomeCount_constant {r : Roll} (h : r.isConstant = true) :
    r.outcomeCount = some 1 := by
  rw [outcomeCount, h, if_pos rfl]

theorem Roll.outcomeCount_eq_some {r : Roll} (h : r.isConstant = false) {n : ℕ} :
    r.outcomeCount = some n ↔
      r.count.val < 64 ∧ r.sides.val ^ r.count.val = n ∧ n < 2 ^ 64 := by
  rw [outcomeCount, h, if_neg Bool.false_ne_true]
  by_cases hmany : 64 ≤ r.count.val
  · rw [if_pos hmany]
    exact ⟨nofun, fun h => absurd hmany (Nat.not_le.2 h.1)⟩
  · rw [if_neg hmany, countable_eq_some_iff]
    exact ⟨fun h => ⟨Nat.not_le.1 hmany, h⟩, fun h => h.2⟩

theorem Expr.outcomeCount_binary {l r : Expr} {op : Operator} {n : ℕ} :
    (binary l op r).outcomeCount = some n ↔
      ∃ a b, l.outcomeCount = some a ∧ r.outcomeCount = some b ∧ a * b = n ∧ n < 2 ^ 64 := by
  simp only [outcomeCount, Option.bind_eq_some_iff, countable_eq_some_iff]
  tauto

theorem Roll.prod_dice (r : Roll) : r.dice.prod = r.sides.val ^ r.count.val :=
  List.prod_replicate ..

theorem Expr.prod_dice_pos (e : Expr) : 0 < e.dice.prod := by
  apply List.prod_pos_iff_forall_pos_nat.2
  intro n hn
  obtain ⟨r, -, hr⟩ := List.mem_flatMap.1 hn
  rw [List.eq_of_mem_replicate hr]
  exact r.sides.pos

theorem Roll.outcomeCount_eq (r : Roll) : r.outcomeCount = countable (Expr.roll r).dice.prod := by
  cases hr : r.isConstant with
  | true =>
      rw [outcomeCount_constant hr, Expr.dice, Expr.rolls_constant hr]
      rfl
  | false =>
      rw [Expr.dice, Expr.rolls_roll hr, List.flatMap_singleton, prod_dice, outcomeCount, hr,
        if_neg Bool.false_ne_true]
      split_ifs with hmany
      · have htwo : 2 ≤ r.sides.val := by
          have hone : r.sides.val ≠ 1 := by simpa [isConstant] using hr
          have hpos := r.sides.pos
          omega
        symm
        rw [countable_eq_none_iff]
        exact Nat.le_trans (Nat.pow_le_pow_right Nat.two_pos hmany) (Nat.pow_le_pow_left htwo _)
      · rfl

/-- There are as many outcomes as choices of faces for the dice, and they are counted whenever they
are fewer than `2 ^ 64`. -/
theorem Expr.outcomeCount_eq (e : Expr) : e.outcomeCount = countable e.dice.prod := by
  induction e with
  | roll r => exact r.outcomeCount_eq
  | binary l op r ihl ihr =>
      have hl := l.prod_dice_pos
      have hr := r.prod_dice_pos
      rw [outcomeCount, ihl, ihr, dice_binary, List.prod_append]
      by_cases hlcount : 2 ^ 64 ≤ l.dice.prod
      · rw [countable_eq_none_iff.2 hlcount, Option.bind_none]
        exact (countable_eq_none_iff.2 (Nat.le_trans hlcount (Nat.le_mul_of_pos_right _ hr))).symm
      · rw [countable_eq_some_iff.2 ⟨rfl, Nat.not_le.1 hlcount⟩, Option.bind_some]
        by_cases hrcount : 2 ^ 64 ≤ r.dice.prod
        · rw [countable_eq_none_iff.2 hrcount, Option.bind_none]
          exact (countable_eq_none_iff.2 (Nat.le_trans hrcount (Nat.le_mul_of_pos_left _ hl))).symm
        · rw [countable_eq_some_iff.2 ⟨rfl, Nat.not_le.1 hrcount⟩, Option.bind_some]

def Cap.Fits (cap : Cap) (n : ℕ) : Prop := n < 2 ^ 64 ∧ ∀ m, cap = some m → n ≤ m

theorem Cap.not_fits_iff {cap : Cap} {n : ℕ} :
    ¬ cap.Fits n ↔ 2 ^ 64 ≤ n ∨ ∃ limit, cap = some limit ∧ limit < n := by
  simp only [Cap.Fits, not_and_or, not_forall, exists_prop, Nat.not_lt, Nat.not_le]

theorem Cap.Fits.mono {cap : Cap} {m n : ℕ} (h : cap.Fits n) (hle : m ≤ n) : cap.Fits m :=
  ⟨Nat.lt_of_le_of_lt hle h.1, fun limit hlimit => Nat.le_trans hle (h.2 limit hlimit)⟩

theorem Cap.Fits.outcomeCount {cap : Cap} {e : Expr} (h : cap.Fits e.dice.prod) :
    e.outcomeCount = some e.dice.prod := by
  rw [Expr.outcomeCount_eq, countable_eq_some_iff]
  exact ⟨rfl, h.1⟩

theorem Cap.allow_some {cap : Cap} {n : ℕ} (h : ∀ m, cap = some m → n ≤ m) :
    cap.allow (some n) = .ok n := by
  cases cap with
  | none => rfl
  | some m => exact if_neg (Nat.not_lt.2 (h m rfl))

theorem Cap.allow_countable {cap : Cap} {n : ℕ} (h : cap.Fits n) :
    cap.allow (countable n) = .ok n := by
  rw [countable_eq_some_iff.2 ⟨rfl, h.1⟩, Cap.allow_some h.2]

namespace Enumeration

variable {α : Type} [Scalar α] {cap : Cap}

/-- What is refused at the start is refused for the reason found there, and nothing is told of
it. -/
theorem run_outcomes_eq_error {e : Expr} {o : Overflow} (h : cap.allow e.outcomeCount = .error o)
    (journal : Journal) :
    (outcomes cap e : Enumeration (List α)).run.run journal = (.error o, journal) := by
  have hcheck : (check cap e.outcomeCount).run.run journal = (.error o, journal) := by
    rw [← h]
    rfl
  rw [outcomes, ExceptT.run_bind, StateT.run_bind, hcheck]
  rfl

theorem outcomes_eq_error {e : Expr} {o : Overflow} (h : cap.allow e.outcomeCount = .error o)
    (journal : Journal) :
    ((outcomes cap e : Enumeration (List α)).run.run journal).1 = .error o := by
  rw [run_outcomes_eq_error h]

theorem Gives.exists_outcomeCount {e : Expr} {v : List α} (h : Gives (outcomes cap e) v) :
    ∃ n, e.outcomeCount = some n := by
  obtain ⟨journal, h⟩ := h
  cases hcount : e.outcomeCount with
  | none =>
      have hnone : cap.allow e.outcomeCount = .error .uncountable := by
        rw [hcount]
        rfl
      exact absurd (h.symm.trans (outcomes_eq_error hnone journal)) nofun
  | some n => exact ⟨n, rfl⟩

end Enumeration

end DiceOdds
