import DiceOdds.Proofs.Binary64.Rounding
import Mathlib

namespace DiceOdds.Binary64

open Float.Model Float.Model.UnpackedFloat

def factor : Sign → ℚ
  | .negative => -1
  | .positive => 1

def valueOf : UnpackedFloat → Extended
  | .notANumber => .undefined
  | .infinity .negative => .bottom
  | .infinity .positive => .top
  | .zero _ => .number 0
  | .finite s m e _ => .number (factor s * (m * 2 ^ e))

def Canonical : UnpackedFloat → Prop
  | .finite _ m e _ => m < 2 ^ 53 ∧ -1074 ≤ e ∧ (2 ^ 52 ≤ m ∨ e = -1074)
  | _ => True

@[simp] theorem factor_negative : factor .negative = -1 := rfl

@[simp] theorem factor_positive : factor .positive = 1 := rfl

theorem factor_mul : ∀ s t : Sign, factor (s * t) = factor s * factor t
  | .negative, .negative => show (1 : ℚ) = -1 * -1 by norm_num
  | .negative, .positive => show (-1 : ℚ) = -1 * 1 by norm_num
  | .positive, .negative => show (-1 : ℚ) = 1 * -1 by norm_num
  | .positive, .positive => show (1 : ℚ) = 1 * 1 by norm_num

theorem factor_div (s t : Sign) : factor (s / t) = factor s / factor t := by
  have h : s / t = s * t := by cases s <;> cases t <;> rfl
  rw [h, factor_mul]
  cases t <;> simp [div_neg]

theorem factor_neg (s : Sign) : factor (-s) = -factor s := by
  have h : -s = .negative * s := by cases s <;> rfl
  rw [h, factor_mul, factor_negative, neg_one_mul]

theorem nearest_factor_mul (s : Sign) (x : ℚ) : nearest (factor s * x) = factor s * nearest x := by
  cases s <;> simp [factor, nearest_neg]

theorem targetExponent_eq (m : ℕ) (e : ℤ) :
    Format.binary64.targetExponent (totalExponent m e) = max (m.log2 + e - 52) (-1074) := by
  simp only [Format.targetExponent, totalExponent, Format.mantissaBits, Format.minExponent]
  norm_num
  omega

theorem le_targetExponent {m : ℕ} {e : ℤ} (h : 52 ≤ m.log2 ∨ e ≤ -1074) :
    e ≤ Format.binary64.targetExponent (totalExponent m e) := by
  rw [targetExponent_eq]
  omega

/-- The exponent that a significand is shifted to is that of the number it stands for. -/
theorem targetExponent_eq_exponentOf {m : ℕ} {e : ℤ} {x : ℚ} (hfloor : ⌊x⌋ = m) (hx : 0 < x)
    (h : 52 ≤ m.log2 ∨ e ≤ -1074) :
    Format.binary64.targetExponent (totalExponent m e) = exponentOf (x * 2 ^ e) := by
  obtain ⟨hle, hlt⟩ := Int.floor_eq_iff.1 hfloor
  push_cast at hle hlt
  have hpos : 0 < x * 2 ^ e := by positivity
  rw [targetExponent_eq, exponentOf, abs_of_pos hpos]
  by_cases hm : m = 0
  · have hlog : Int.log 2 (x * 2 ^ e) < e := by
      rw [← Int.lt_zpow_iff_log_lt (by norm_num) hpos]
      rw [hm] at hlt
      push_cast at hlt ⊢
      calc x * 2 ^ e < 1 * 2 ^ e := mul_lt_mul_of_pos_right (by linarith) (by positivity)
        _ = 2 ^ e := one_mul _
    rw [hm] at h ⊢
    simp only [Nat.log2_zero] at h ⊢
    omega
  · have hlog : Int.log 2 (x * 2 ^ e) = m.log2 + e := by
      have hself : (2 : ℚ) ^ m.log2 ≤ m := by exact_mod_cast Nat.log2_self_le hm
      have hself' : (m : ℚ) + 1 ≤ 2 ^ (m.log2 + 1) := by exact_mod_cast Nat.lt_log2_self
      apply le_antisymm
      · rw [← Int.lt_add_one_iff, ← Int.lt_zpow_iff_log_lt (by norm_num) hpos]
        push_cast
        rw [show (m.log2 : ℤ) + e + 1 = (m.log2 + 1 : ℕ) + e by push_cast; ring,
          zpow_add₀ (by norm_num), zpow_natCast]
        exact mul_lt_mul_of_pos_right (by linarith) (by positivity)
      · rw [← Int.zpow_le_iff_le_log (by norm_num) hpos]
        push_cast
        rw [zpow_add₀ (by norm_num), zpow_natCast]
        exact mul_le_mul_of_nonneg_right (hself.trans hle) (by positivity)
    rw [hlog]

/-- After rounding there is at most one digit too many, and it is a zero. -/
theorem shiftToTargetExponent_exact {m : ℕ} {e : ℤ} (hm : m ≤ 2 ^ 53) (he : -1074 ≤ e)
    (h : 2 ^ 52 ≤ m ∨ e = -1074) :
    ∃ m' e', shiftToTargetExponent Format.binary64 m e .exact = (⟨m', false, false⟩, e') ∧
      (m' : ℚ) * 2 ^ e' = m * 2 ^ e ∧ m' < 2 ^ 53 ∧ -1074 ≤ e' ∧ (2 ^ 52 ≤ m' ∨ e' = -1074) := by
  rcases hm.lt_or_eq with hlt | rfl
  · refine ⟨m, e, ?_, rfl, hlt, he, h⟩
    have hlog : m.log2 ≤ 52 := by
      by_cases hzero : m = 0
      · simp [hzero]
      · have := (Nat.log2_lt hzero).2 hlt
        omega
    have hshift : (Format.binary64.targetExponent (totalExponent m e) - e).toNat = 0 := by
      rw [targetExponent_eq]
      omega
    simp only [shiftToTargetExponent, shiftToExponent, hshift, Nat.cast_zero, add_zero]
    rfl
  · refine ⟨2 ^ 52, e + 1, ?_, ?_, by norm_num, by omega, .inl le_rfl⟩
    · have hshift : (Format.binary64.targetExponent (totalExponent (2 ^ 53) e) - e).toNat = 1 := by
        rw [targetExponent_eq, Nat.log2_two_pow]
        omega
      simp only [shiftToTargetExponent, shiftToExponent, hshift, Nat.cast_one]
      rfl
    · rw [zpow_add_one₀ (by norm_num)]
      push_cast
      ring

/-- Shifted to the exponent of the number it stands for, a significand rounds to the nearest. -/
theorem shiftRight_nearest {em : ExtendedMantissa} {x : ℚ} (hx : Represents em x) (hpos : 0 < x)
    {e : ℤ} {k : ℕ} (hexp : e + (k : ℤ) = exponentOf (x * 2 ^ e)) :
    ((em >>> k).roundedMantissa : ℚ) * 2 ^ (e + (k : ℤ)) = nearest (x * 2 ^ e) ∧
      (em >>> k).roundedMantissa ≤ 2 ^ 53 ∧
      (2 ^ 52 ≤ (em >>> k).roundedMantissa ∨ e + (k : ℤ) = -1074) := by
  have hquot : x * 2 ^ e / 2 ^ exponentOf (x * 2 ^ e) = x / 2 ^ k := by
    rw [← hexp, zpow_add₀ (by norm_num), zpow_natCast]
    field_simp
  have hround : ((em >>> k).roundedMantissa : ℤ) =
      roundEven (x * 2 ^ e / 2 ^ exponentOf (x * 2 ^ e)) := by
    rw [hquot]
    exact (hx.shiftRight k).roundedMantissa_eq
  have hpos' : 0 < x * 2 ^ e := by positivity
  refine ⟨?_, ?_, ?_⟩
  · rw [nearest, ← hround, hexp, Int.cast_natCast]
  · have h := roundEven_le_two_pow hpos'
    rw [← hround] at h
    exact_mod_cast h
  · by_cases hleast : exponentOf (x * 2 ^ e) = -1074
    · exact .inr (hexp.trans hleast)
    · have h := two_pow_le_roundEven hpos' hleast
      rw [← hround] at h
      exact .inl (by exact_mod_cast h)

theorem roundWithAccuracy_value (s : Sign) {m : ℕ} {e : ℤ} {acc : Accuracy} {x : ℚ}
    (hx : Represents (.ofMantissaAndAccuracy m acc) x) (hpos : 0 < x)
    (h : 52 ≤ m.log2 ∨ e ≤ -1074) :
    Canonical (roundWithAccuracy Format.binary64 s m e acc) ∧
      valueOf (roundWithAccuracy Format.binary64 s m e acc) =
        .number (factor s * nearest (x * 2 ^ e)) := by
  have hfloor : ⌊x⌋ = m := by
    have := hx.floor_eq
    rcases acc with _ | o
    · exact this
    · cases o <;> exact this
  have htarget := targetExponent_eq_exponentOf hfloor hpos h
  obtain ⟨k, hk⟩ := Int.eq_ofNat_of_zero_le (sub_nonneg.2 (le_targetExponent h))
  have hfirst : shiftToTargetExponent Format.binary64 m e acc =
      (ExtendedMantissa.ofMantissaAndAccuracy m acc >>> k, e + k) := by
    simp only [shiftToTargetExponent, shiftToExponent, hk, Int.toNat_natCast]
  have hexp : e + (k : ℤ) = exponentOf (x * 2 ^ e) := by omega
  have hleast : -1074 ≤ e + (k : ℤ) := by
    rw [hexp]
    exact le_max_right _ _
  obtain ⟨hvalue, hr53, hr52⟩ := shiftRight_nearest hx hpos hexp
  -- a carry past the last digit takes a second shift, which drops a zero
  obtain ⟨m', e', hsecond, hvalue', hcanonical⟩ := shiftToTargetExponent_exact hr53 hleast hr52
  simp only [roundWithAccuracy, hfirst, hsecond]
  by_cases hzero : m' = 0
  · rw [dif_pos hzero]
    refine ⟨trivial, ?_⟩
    rw [← hvalue, ← hvalue', hzero]
    simp [valueOf]
  · rw [dif_neg hzero]
    refine ⟨hcanonical, ?_⟩
    rw [← hvalue, ← hvalue', valueOf]

/-- Digits that are made room for by a shift to the left do not change what is rounded. -/
theorem roundWithAccuracy_shiftLeft (s : Sign) {m : ℕ} (hm : 0 < m) {e : ℤ} {k : ℕ}
    (h : 52 ≤ (m <<< k).log2 ∨ e - (k : ℤ) ≤ -1074) :
    Canonical (roundWithAccuracy Format.binary64 s (m <<< k) (e - k) .exact) ∧
      valueOf (roundWithAccuracy Format.binary64 s (m <<< k) (e - k) .exact) =
        .number (factor s * nearest (m * 2 ^ e)) := by
  have hvalue : ((m <<< k : ℕ) : ℚ) * 2 ^ (e - (k : ℤ)) = m * 2 ^ e := by
    rw [Nat.shiftLeft_eq, zpow_sub₀ (by norm_num), zpow_natCast]
    push_cast
    field_simp
  have hpos : (0 : ℚ) < (m <<< k : ℕ) := by
    exact_mod_cast Nat.shiftLeft_pos_iff.2 hm
  rw [← hvalue]
  exact roundWithAccuracy_value s (represents_exact _) hpos h

theorem round_value (s : Sign) {m : ℕ} (hm : 0 < m) (e : ℤ) :
    Canonical (Float.Model.UnpackedFloat.round Format.binary64 s m e) ∧
      valueOf (Float.Model.UnpackedFloat.round Format.binary64 s m e) =
        .number (factor s * nearest (m * 2 ^ e)) := by
  set t := Format.binary64.targetExponent (totalExponent m e) with ht
  set k := (e - t).toNat with hk
  have hlog : (m <<< k).log2 = m.log2 + k := by
    rw [Nat.log2_eq_iff (Nat.ne_of_gt (Nat.shiftLeft_pos_iff.2 hm)), Nat.shiftLeft_eq]
    have hself := Nat.log2_self_le hm.ne'
    have hself' := Nat.lt_log2_self (n := m)
    rw [pow_add, show m.log2 + k + 1 = m.log2 + 1 + k by omega, pow_add]
    exact ⟨Nat.mul_le_mul_right _ hself, Nat.mul_lt_mul_of_pos_right hself' (by positivity)⟩
  have h : 52 ≤ (m <<< k).log2 ∨ e - (k : ℤ) ≤ -1074 := by
    rw [targetExponent_eq] at ht
    omega
  exact roundWithAccuracy_shiftLeft s hm h

theorem normalize_value (m e : ℤ) (s : Sign) :
    Canonical (UnpackedFloat.normalize Format.binary64 m e s) ∧
      valueOf (UnpackedFloat.normalize Format.binary64 m e s) = .number (nearest (m * 2 ^ e)) := by
  unfold UnpackedFloat.normalize
  rcases lt_trichotomy m 0 with hm | rfl | hm
  · rw [Int.compare_eq_lt.2 hm]
    obtain ⟨hcanonical, hvalue⟩ := round_value .negative (m := (-m).toNat) (by omega) e
    refine ⟨hcanonical, hvalue.trans ?_⟩
    have hcast : (((-m).toNat : ℕ) : ℚ) = -m := by
      exact_mod_cast Int.toNat_of_nonneg (neg_nonneg.2 hm.le)
    rw [hcast, neg_mul, nearest_neg, factor_negative, neg_one_mul, neg_neg]
  · simp [Canonical, valueOf, nearest_zero]
  · rw [Int.compare_eq_gt.2 hm]
    obtain ⟨hcanonical, hvalue⟩ := round_value .positive (m := m.toNat) (by omega) e
    refine ⟨hcanonical, hvalue.trans ?_⟩
    have hcast : ((m.toNat : ℕ) : ℚ) = m := by exact_mod_cast Int.toNat_of_nonneg hm.le
    rw [hcast, factor_positive, one_mul]

/-- Nothing is rounded off a number that is canonical. -/
theorem nearest_of_canonical {s : Sign} {m : ℕ} {e : ℤ} {hm : 0 < m}
    (h : Canonical (.finite s m e hm)) :
    nearest (factor s * (m * 2 ^ e)) = factor s * (m * 2 ^ e) := by
  obtain ⟨hlt, hleast, -⟩ := h
  rw [nearest_factor_mul, nearest_mul_zpow hlt hleast]

end DiceOdds.Binary64
