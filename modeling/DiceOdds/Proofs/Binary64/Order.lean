import DiceOdds.Proofs.Binary64.Operations

namespace DiceOdds.Binary64

open Float.Model Float.Model.UnpackedFloat

theorem lt_of_exponent_lt {s t : Sign} {m n : ℕ} {e f : ℤ} {hm : 0 < m} {hn : 0 < n}
    (hu : Canonical (.finite s m e hm)) (hv : Canonical (.finite t n f hn)) (h : e < f) :
    (m : ℚ) * 2 ^ e < n * 2 ^ f := by
  have hm' : (m : ℚ) < 2 ^ 53 := by exact_mod_cast hu.1
  have hn' : (2 : ℚ) ^ 52 ≤ n := by
    have hleast := hu.2.1
    exact_mod_cast hv.2.2.resolve_right (by omega)
  have hf : (2 : ℚ) ^ (e + 1) ≤ 2 ^ f := zpow_le_zpow_right₀ (by norm_num) h
  calc (m : ℚ) * 2 ^ e < 2 ^ 53 * 2 ^ e := mul_lt_mul_of_pos_right hm' (by positivity)
    _ = 2 ^ 52 * 2 ^ (e + 1) := by rw [zpow_add_one₀ (by norm_num)]; ring
    _ ≤ n * 2 ^ f := mul_le_mul hn' hf (by positivity) (by positivity)

/-- Of canonical numbers that with the larger exponent is the larger. -/
theorem compare_eq {s t : Sign} {m n : ℕ} {e f : ℤ} {hm : 0 < m} {hn : 0 < n}
    (hu : Canonical (.finite s m e hm)) (hv : Canonical (.finite t n f hn)) :
    (compare e f).then (compare m n) = compare ((m : ℚ) * 2 ^ e) (n * 2 ^ f) := by
  rcases lt_trichotomy e f with h | rfl | h
  · rw [compare_lt_iff_lt.2 h, compare_lt_iff_lt.2 (lt_of_exponent_lt hu hv h)]
    rfl
  · have hpos : (0 : ℚ) < 2 ^ e := by positivity
    rw [compare_eq_iff_eq.2 rfl]
    rcases lt_trichotomy m n with h | rfl | h
    · have h' : (m : ℚ) * 2 ^ e < n * 2 ^ e := mul_lt_mul_of_pos_right (by exact_mod_cast h) hpos
      rw [compare_lt_iff_lt.2 h, compare_lt_iff_lt.2 h']
      rfl
    · rw [compare_eq_iff_eq.2 rfl, compare_eq_iff_eq.2 rfl]
      rfl
    · have h' : (n : ℚ) * 2 ^ e < m * 2 ^ e := mul_lt_mul_of_pos_right (by exact_mod_cast h) hpos
      rw [compare_gt_iff_gt.2 h, compare_gt_iff_gt.2 h']
      rfl
  · rw [compare_gt_iff_gt.2 h, compare_gt_iff_gt.2 (lt_of_exponent_lt hv hu h)]
    rfl

theorem isLE_compare (p q : ℚ) : (compare p q).isLE = decide (p ≤ q) := by
  rcases lt_trichotomy p q with h | rfl | h
  · rw [compare_lt_iff_lt.2 h]
    exact (decide_eq_true h.le).symm
  · rw [compare_eq_iff_eq.2 rfl]
    exact (decide_eq_true le_rfl).symm
  · rw [compare_gt_iff_gt.2 h]
    exact (decide_eq_false (not_le.2 h)).symm

theorem isLE_swap_compare (p q : ℚ) : (compare p q).swap.isLE = decide (-p ≤ -q) := by
  have h : (compare p q).swap = compare q p := by
    rcases lt_trichotomy p q with h | rfl | h
    · rw [compare_lt_iff_lt.2 h, compare_gt_iff_gt.2 h]
      rfl
    · rw [compare_eq_iff_eq.2 rfl]
      rfl
    · rw [compare_gt_iff_gt.2 h, compare_lt_iff_lt.2 h]
      rfl
  rw [h, isLE_compare]
  exact decide_eq_decide.2 neg_le_neg_iff.symm

theorem le_valueOf {u v : UnpackedFloat} (hu : Canonical u) (hv : Canonical v) :
    UnpackedFloat.le u v = Extended.le (valueOf u) (valueOf v) := by
  cases u with
  | notANumber => rfl
  | infinity s =>
      cases v with
      | infinity t => cases s <;> cases t <;> rfl
      | notANumber | zero t | finite t n f hn => cases s <;> rfl
  | zero s =>
      cases v with
      | notANumber => rfl
      | infinity t => cases t <;> rfl
      | zero t => exact (decide_eq_true (le_refl (0 : ℚ))).symm
      | finite t n f hn =>
          have hpos : (0 : ℚ) < n * 2 ^ f := by positivity
          cases t with
          | negative => exact (decide_eq_false (by rw [factor_negative]; linarith)).symm
          | positive => exact (decide_eq_true (by rw [factor_positive]; linarith)).symm
  | finite s m e hm =>
      have hpos : (0 : ℚ) < m * 2 ^ e := by positivity
      cases v with
      | notANumber => rfl
      | infinity t => cases t <;> rfl
      | zero t =>
          cases s with
          | negative => exact (decide_eq_true (by rw [factor_negative]; linarith)).symm
          | positive => exact (decide_eq_false (by rw [factor_positive]; linarith)).symm
      | finite t n f hn =>
          have hpos' : (0 : ℚ) < n * 2 ^ f := by positivity
          cases s with
          | negative =>
              cases t with
              | negative =>
                  have h := isLE_swap_compare ((m : ℚ) * 2 ^ e) (n * 2 ^ f)
                  rw [← compare_eq hu hv] at h
                  rw [valueOf, valueOf, factor_negative, neg_one_mul, neg_one_mul]
                  exact h
              | positive =>
                  exact (decide_eq_true (by rw [factor_negative, factor_positive]; linarith)).symm
          | positive =>
              cases t with
              | negative =>
                  exact (decide_eq_false (by rw [factor_negative, factor_positive]; linarith)).symm
              | positive =>
                  have h := isLE_compare ((m : ℚ) * 2 ^ e) (n * 2 ^ f)
                  rw [← compare_eq hu hv] at h
                  rw [valueOf, valueOf, factor_positive, one_mul, one_mul]
                  exact h

theorem le_eq (x y : Float) : ExtendedScalar.le x y = Extended.le (value x) (value y) := by
  have h : ExtendedScalar.le x y = UnpackedFloat.le x.toModel.unpack y.toModel.unpack := by
    rw [Bool.eq_iff_iff]
    exact (decide_eq_true_iff (p := x ≤ y)).trans (decide_eq_true_iff (p := x.toModel ≤ y.toModel))
  rw [h, le_valueOf (canonical_unpack x) (canonical_unpack y), value_eq, value_eq]

theorem le_iff_of_value {x y : Float} {p q : ℚ} (hx : value x = .number p)
    (hy : value y = .number q) : x ≤ y ↔ p ≤ q := by
  have hle : ExtendedScalar.le x y = true ↔ x ≤ y := decide_eq_true_iff
  rw [← hle, le_eq, hx, hy, Extended.le_number]

theorem value_bottom : value (ExtendedScalar.bottom : Float) = .bottom := by
  decide

theorem value_top : value (ExtendedScalar.top : Float) = .top := by
  decide

theorem overflow_number_le {p q : ℚ} (h : p ≤ q) :
    Extended.le (overflow (.number p)) (overflow (.number q)) = true := by
  by_cases hp : limit ≤ p
  · rw [overflow, overflow, if_pos hp, if_pos (hp.trans h)]
    rfl
  · by_cases hp' : p ≤ -limit
    · have hself : overflow (.number q) ≠ .undefined := by
        rw [overflow]
        split_ifs <;> rintro ⟨⟩
      rw [overflow, if_neg hp, if_pos hp']
      exact Extended.bottom_le (Extended.le_self.2 hself)
    · have hq' : ¬ q ≤ -limit := fun hq => hp' (h.trans hq)
      rw [overflow, overflow, if_neg hp, if_neg hp', if_neg hq']
      by_cases hq : limit ≤ q
      · rw [if_pos hq]
        rfl
      · rw [if_neg hq]
        exact (Extended.le_number p q).2 h

theorem rounded_le {z w : Extended} (h : Extended.le z w = true) :
    Extended.le (rounded z) (rounded w) = true := by
  have hdefined (q : ℚ) : Extended.le (rounded (.number q)) (rounded (.number q)) = true :=
    overflow_number_le le_rfl
  cases z with
  | undefined => exact absurd h Bool.false_ne_true
  | top =>
      cases w with
      | number q => exact absurd h Bool.false_ne_true
      | undefined | bottom | top => exact h
  | bottom =>
      cases w with
      | number q => exact Extended.bottom_le (hdefined q)
      | undefined | bottom | top => exact h
  | number p =>
      cases w with
      | number q => exact overflow_number_le (nearest_mono ((Extended.le_number p q).1 h))
      | top => exact Extended.le_top (hdefined p)
      | undefined | bottom => exact absurd h Bool.false_ne_true

/-- Whole numbers of fifty-three bits are not rounded. -/
theorem rounded_natCast {n : ℕ} (h : n < 2 ^ 53) : rounded (.number n) = .number n := by
  have hnearest : nearest n = n := by
    have hkept := nearest_mul_zpow h (e := 0) (by norm_num)
    rwa [zpow_zero, mul_one] at hkept
  have hlimit : (n : ℚ) < limit := by
    have hlt : (n : ℚ) < 2 ^ 53 := by exact_mod_cast h
    exact hlt.trans (two_pow_lt_limit (by norm_num))
  rw [rounded_number (by rwa [hnearest, Nat.abs_cast]), hnearest]

theorem value_toFloat {n : ℕ} (h : n < 2 ^ 53) : value n.toUInt64.toFloat = .number n := by
  obtain ⟨hcanonical, hvalue⟩ := normalize_value n.toUInt64.toNat 0 .positive
  have hn : n.toUInt64.toNat = n := Nat.mod_eq_of_lt (h.trans (by norm_num))
  refine (value_pack hcanonical).trans ?_
  rw [hvalue, zpow_zero, mul_one, Int.cast_natCast, hn]
  exact rounded_natCast h

theorem value_ofNat {n : ℕ} (h : n < 2 ^ 53) : value (Scalar.ofNat n : Float) = .number n := by
  have hone : read (Float.ofBits 0x3FF0000000000000) = .finite false (2 ^ 52) (-52) := by
    decide +kernel
  have hvalue : value (Float.ofBits 0x3FF0000000000000) = .number 1 := by
    rw [value, hone, Reading.value]
    norm_num
  have hfast : (Scalar.ofNat n : Float) = n.toUInt64.toFloat * Float.ofBits 0x3FF0000000000000 :=
    dif_pos ⟨h, Nat.zero_le 22⟩
  rw [hfast, value_mul, hvalue, value_toFloat h, Extended.mul, mul_one]
  exact rounded_natCast h

theorem eq_of_valueOf_eq {u v : UnpackedFloat} (hu : Canonical u) (hv : Canonical v) {q : ℚ}
    (hq : q ≠ 0) (huq : valueOf u = .number q) (hvq : valueOf v = .number q) : u = v := by
  cases u with
  | notANumber => cases huq
  | infinity s => cases s <;> cases huq
  | zero s => exact absurd (Extended.number.inj huq).symm hq
  | finite s m e hm =>
      cases v with
      | notANumber => cases hvq
      | infinity t => cases t <;> cases hvq
      | zero t => exact absurd (Extended.number.inj hvq).symm hq
      | finite t n f hn =>
          have hpos : (0 : ℚ) < m * 2 ^ e := by positivity
          have hpos' : (0 : ℚ) < n * 2 ^ f := by positivity
          have heq : factor s * (m * 2 ^ e) = factor t * (n * 2 ^ f) :=
            Extended.number.inj (huq.trans hvq.symm)
          obtain rfl : s = t := by
            cases s <;> cases t <;> simp only [factor_negative, factor_positive] at heq <;>
              first | rfl | linarith
          have hmagnitude : (m : ℚ) * 2 ^ e = n * 2 ^ f := by
            cases s <;> simp only [factor_negative, factor_positive] at heq <;> linarith
          -- with unequal exponents one of them would be the larger
          obtain rfl : e = f := by
            rcases lt_trichotomy e f with h | h | h
            · exact absurd hmagnitude (lt_of_exponent_lt hu hv h).ne
            · exact h
            · exact absurd hmagnitude (lt_of_exponent_lt hv hu h).ne'
          obtain rfl : m = n := by
            exact_mod_cast mul_right_cancel₀ (zpow_ne_zero e two_ne_zero) hmagnitude
          rfl

/-- Only zero is stood for twice. -/
theorem eq_of_value_eq {x y : Float} {q : ℚ} (hq : q ≠ 0) (hx : value x = .number q)
    (hy : value y = .number q) : x = y := by
  rw [value_eq] at hx hy
  have hunpack := eq_of_valueOf_eq (canonical_unpack x) (canonical_unpack y) hq hx hy
  rw [← ofModel_pack x, hunpack, ofModel_pack]

end DiceOdds.Binary64
