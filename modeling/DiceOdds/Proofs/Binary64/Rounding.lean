import DiceOdds.Proofs.Binary64.Nearest
import DiceOdds.Proofs.Extended
import Mathlib.Tactic.FieldSimp

namespace DiceOdds.Binary64

open Float.Model Float.Model.UnpackedFloat

/-- The number that a significand stands for together with the two bits kept for rounding. -/
def Represents (em : ExtendedMantissa) (x : ℚ) : Prop :=
  ∃ rest : ℚ, 0 ≤ rest ∧ rest < 1 / 2 ∧ (em.stickyBit = true ↔ 0 < rest) ∧
    x = em.mantissa + (em.roundBit.toNat : ℚ) / 2 + rest

theorem represents_exact (m : ℕ) : Represents (.ofMantissaAndAccuracy m .exact) m :=
  ⟨0, le_rfl, by norm_num, by simp [ExtendedMantissa.ofMantissaAndAccuracy],
    by simp [ExtendedMantissa.ofMantissaAndAccuracy]⟩

theorem represents_inexact (m : ℕ) {t : ℚ} (hpos : 0 < t) (hlt : t < 1) :
    Represents (.ofMantissaAndAccuracy m (.inexact (compare t (1 / 2)))) (m + t) := by
  rcases lt_trichotomy t (1 / 2) with h | rfl | h
  · rw [compare_lt_iff_lt.2 h]
    exact ⟨t, hpos.le, h, by simpa [ExtendedMantissa.ofMantissaAndAccuracy] using hpos,
      by simp [ExtendedMantissa.ofMantissaAndAccuracy]⟩
  · rw [compare_eq_iff_eq.2 rfl]
    exact ⟨0, le_rfl, by norm_num, by simp [ExtendedMantissa.ofMantissaAndAccuracy],
      by simp [ExtendedMantissa.ofMantissaAndAccuracy]⟩
  · rw [compare_gt_iff_gt.2 h]
    exact ⟨t - 1 / 2, by linarith, by linarith,
      by simpa [ExtendedMantissa.ofMantissaAndAccuracy] using h,
      by simp [ExtendedMantissa.ofMantissaAndAccuracy]⟩

theorem compare_two_mul (r : ℕ) {b : ℕ} (hb : 0 < b) :
    compare (2 * r) b = compare ((r : ℚ) / b) (1 / 2) := by
  have hb' : (0 : ℚ) < b := by exact_mod_cast hb
  have hcast (c d : ℕ) (h : c < d) : (c : ℚ) < d := by exact_mod_cast h
  rcases lt_trichotomy (2 * r) b with h | h | h
  · have h' := hcast _ _ h
    rw [Nat.compare_eq_lt.2 h, compare_lt_iff_lt.2]
    rw [div_lt_iff₀ hb']
    push_cast at h'
    linarith
  · have h' : ((2 * r : ℕ) : ℚ) = b := by rw [h]
    rw [Nat.compare_eq_eq.2 h, compare_eq_iff_eq.2]
    rw [div_eq_iff hb'.ne']
    push_cast at h'
    linarith
  · have h' := hcast _ _ h
    rw [Nat.compare_eq_gt.2 h, compare_gt_iff_gt.2]
    rw [lt_div_iff₀ hb']
    push_cast at h'
    linarith

/-- Division with remainder leaves a significand and how much of it is missing. -/
theorem represents_fraction (a : ℕ) {b : ℕ} (hb : 0 < b) :
    Represents (.ofMantissaAndAccuracy (a / b) (accuracyOfFraction (a % b) b)) (a / b) := by
  have hb' : (0 : ℚ) < b := by exact_mod_cast hb
  have hdiv : (a / b : ℚ) = ((a / b : ℕ) : ℚ) + ((a % b : ℕ) : ℚ) / b := by
    have h : ((b * (a / b) + a % b : ℕ) : ℚ) = a := by rw [Nat.div_add_mod]
    push_cast at h
    field_simp
    linarith
  rw [hdiv, accuracyOfFraction]
  by_cases hzero : a % b = 0
  · rw [if_pos hzero, hzero, Nat.cast_zero, zero_div, add_zero]
    exact represents_exact (a / b)
  · have hpos : (0 : ℚ) < (a % b : ℕ) := by exact_mod_cast Nat.pos_of_ne_zero hzero
    have hlt : ((a % b : ℕ) : ℚ) < b := by exact_mod_cast Nat.mod_lt a hb
    rw [if_neg hzero, compare_two_mul _ hb]
    exact represents_inexact _ (div_pos hpos hb') ((div_lt_one hb').2 hlt)

namespace Represents

variable {em : ExtendedMantissa} {x : ℚ}

theorem shiftRightOne (h : Represents em x) : Represents em.shiftRightOne (x / 2) := by
  obtain ⟨m, r, s⟩ := em
  obtain ⟨rest, hnonneg, hlt, hsticky, hx⟩ := h
  have hm : (m : ℚ) = 2 * ((m / 2 : ℕ) : ℚ) + ((m % 2 : ℕ) : ℚ) := by
    exact_mod_cast (Nat.div_add_mod m 2).symm
  have hbit : (m % 2 != 0).toNat = m % 2 := by
    rcases Nat.mod_two_eq_zero_or_one m with h | h <;> simp [h]
  have hround : (0 : ℚ) ≤ r.toNat ∧ (r.toNat : ℚ) ≤ 1 := by cases r <;> simp
  simp only at hsticky hx
  refine ⟨((r.toNat : ℚ) / 2 + rest) / 2, by linarith, by linarith, ?_, ?_⟩
  · cases r with
    | false => simpa [ExtendedMantissa.shiftRightOne] using hsticky
    | true =>
        simp only [ExtendedMantissa.shiftRightOne, Bool.true_or, true_iff, Bool.toNat_true]
        linarith
  · simp only [ExtendedMantissa.shiftRightOne, hbit]
    rw [hx, hm]
    ring

theorem shiftRight (h : Represents em x) (n : ℕ) : Represents (em >>> n) (x / 2 ^ n) := by
  induction n with
  | zero =>
      rw [pow_zero, div_one]
      exact h
  | succ n ih =>
      rw [pow_succ, ← div_div]
      exact ih.shiftRightOne

theorem floor_eq (h : Represents em x) : ⌊x⌋ = em.mantissa := by
  obtain ⟨rest, hnonneg, hlt, -, hx⟩ := h
  have hround : (0 : ℚ) ≤ em.roundBit.toNat ∧ (em.roundBit.toNat : ℚ) ≤ 1 := by
    cases em.roundBit <;> simp
  rw [Int.floor_eq_iff, hx, Int.cast_natCast]
  constructor <;> linarith

theorem roundedMantissa_eq (h : Represents em x) : (em.roundedMantissa : ℤ) = roundEven x := by
  have hfloor := h.floor_eq
  obtain ⟨m, r, s⟩ := em
  obtain ⟨rest, hnonneg, hlt, hsticky, hx⟩ := h
  have hfract : Int.fract x = (r.toNat : ℚ) / 2 + rest := by
    rw [Int.fract, hfloor, hx]
    push_cast
    ring
  have hrest : s = false → rest = 0 := by
    rintro rfl
    by_contra hne
    exact absurd (hsticky.2 (lt_of_le_of_ne hnonneg (Ne.symm hne))) Bool.false_ne_true
  unfold roundEven
  rw [hfract, hfloor]
  cases r with
  | false =>
      have hbelow : ((false.toNat : ℕ) : ℚ) / 2 + rest < 1 / 2 := by simpa using hlt
      rw [if_pos hbelow]
      cases s <;> rfl
  | true =>
      have hnot : ¬ ((true.toNat : ℕ) : ℚ) / 2 + rest < 1 / 2 := by
        rw [Bool.toNat_true]
        push_cast
        linarith
      rw [if_neg hnot]
      cases s with
      | false =>
          have hhalf : ¬ 1 / 2 < ((true.toNat : ℕ) : ℚ) / 2 + rest := by simp [hrest rfl]
          rw [if_neg hhalf]
          rfl
      | true =>
          have habove : 1 / 2 < ((true.toNat : ℕ) : ℚ) / 2 + rest := by
            have hpos := hsticky.1 rfl
            rw [Bool.toNat_true]
            push_cast
            linarith
          rw [if_pos habove]
          rfl

end Represents

end DiceOdds.Binary64
