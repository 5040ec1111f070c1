import DiceOdds.Proofs.Binary64.Unpacked

namespace DiceOdds.Binary64

open Float.Model Float.Model.UnpackedFloat

theorem canonical_neg {u : UnpackedFloat} (h : Canonical u) : Canonical u.neg := by
  cases u <;> exact h

theorem neg_value (u : UnpackedFloat) : valueOf u.neg = (valueOf u).neg := by
  cases u with
  | notANumber => rfl
  | infinity s => cases s <;> rfl
  | zero s => simp [UnpackedFloat.neg, valueOf, Extended.neg]
  | finite s m e hm => simp [UnpackedFloat.neg, valueOf, Extended.neg, factor_neg]

theorem sub_eq_add_neg (u v : UnpackedFloat) :
    UnpackedFloat.sub Format.binary64 u v = UnpackedFloat.add Format.binary64 u v.neg := by
  cases u <;> cases v <;> try rfl
  case finite.finite s m e hm t n f hn =>
    have h (k : ℤ) : Sign.apply (-t) k = -Sign.apply t k := by
      cases t with
      | negative => exact (neg_neg k).symm
      | positive => rfl
    simp only [UnpackedFloat.sub, UnpackedFloat.add, UnpackedFloat.neg, h, Int.sub_eq_add_neg]

/-- A common exponent changes no number. -/
theorem apply_decreaseExponent (s : Sign) (m : ℕ) {e t : ℤ} (h : t ≤ e) :
    ((s.apply (decreaseExponent m e t).1 : ℤ) : ℚ) * 2 ^ t = factor s * (m * 2 ^ e) := by
  obtain ⟨k, hk⟩ := Int.eq_ofNat_of_zero_le (sub_nonneg.2 h)
  have he : e = t + k := by omega
  have hshift : (((decreaseExponent m e t).1 : ℕ) : ℚ) * 2 ^ t = m * 2 ^ e := by
    simp only [decreaseExponent, hk, Int.toNat_natCast, Nat.shiftLeft_eq]
    rw [he, zpow_add₀ (by norm_num), zpow_natCast]
    push_cast
    ring
  rw [← hshift]
  cases s <;> simp [Sign.apply]

theorem add_value {u v : UnpackedFloat} (hu : Canonical u) (hv : Canonical v) :
    Canonical (UnpackedFloat.add Format.binary64 u v) ∧
      valueOf (UnpackedFloat.add Format.binary64 u v) =
        (Extended.add (valueOf u) (valueOf v)).map nearest := by
  cases u with
  | notANumber => exact ⟨trivial, rfl⟩
  | infinity s =>
      cases v with
      | infinity t => cases s <;> cases t <;> exact ⟨trivial, rfl⟩
      | notANumber | zero t | finite t n f hn => cases s <;> exact ⟨trivial, rfl⟩
  | zero s =>
      cases v with
      | notANumber => exact ⟨trivial, rfl⟩
      | infinity t => cases t <;> exact ⟨trivial, rfl⟩
      | zero t =>
          have hzero : (Extended.add (.number 0) (.number 0)).map nearest = .number 0 := by
            rw [Extended.add, Extended.map, add_zero, nearest_zero]
          cases s <;> cases t <;> exact ⟨trivial, hzero.symm⟩
      | finite t n f hn =>
          refine ⟨hv, ?_⟩
          simp only [UnpackedFloat.add, valueOf, Extended.add, Extended.map, zero_add,
            nearest_of_canonical hv]
  | finite s m e hm =>
      cases v with
      | notANumber => exact ⟨trivial, rfl⟩
      | infinity t => cases t <;> exact ⟨trivial, rfl⟩
      | zero t =>
          refine ⟨hu, ?_⟩
          simp only [UnpackedFloat.add, valueOf, Extended.add, Extended.map, add_zero,
            nearest_of_canonical hu]
      | finite t n f hn =>
          obtain ⟨hcanonical, hvalue⟩ := normalize_value
            (s.apply (decreaseExponent m e (min e f)).1 +
              t.apply (decreaseExponent n f (min e f)).1)
            (min e f) .positive
          refine ⟨hcanonical, hvalue.trans ?_⟩
          rw [Int.cast_add, add_mul, apply_decreaseExponent s m (min_le_left e f),
            apply_decreaseExponent t n (min_le_right e f)]
          rfl

theorem sub_value {u v : UnpackedFloat} (hu : Canonical u) (hv : Canonical v) :
    Canonical (UnpackedFloat.sub Format.binary64 u v) ∧
      valueOf (UnpackedFloat.sub Format.binary64 u v) =
        (Extended.add (valueOf u) (valueOf v).neg).map nearest := by
  rw [sub_eq_add_neg, ← neg_value]
  exact add_value hu (canonical_neg hv)

def signOf : UnpackedFloat → SignType
  | .infinity .negative | .finite .negative .. => -1
  | .infinity .positive | .finite .positive .. => 1
  | .notANumber | .zero _ => 0

theorem sign_valueOf (u : UnpackedFloat) : (valueOf u).sign = signOf u := by
  cases u with
  | notANumber => rfl
  | infinity s => cases s <;> rfl
  | zero s => exact sign_zero
  | finite s m e hm =>
      have hpos : (0 : ℚ) < m * 2 ^ e := by positivity
      cases s with
      | negative =>
          rw [valueOf, factor_negative, neg_one_mul]
          exact sign_neg (neg_lt_zero.2 hpos)
      | positive =>
          rw [valueOf, factor_positive, one_mul]
          exact sign_pos hpos

theorem valueOf_eq_ofSign {u : UnpackedFloat} (h : ¬ u.isFinite = true) :
    valueOf u = .ofSign (signOf u) := by
  cases u with
  | notANumber => rfl
  | infinity s => cases s <;> rfl
  | zero s => exact absurd rfl h
  | finite s m e hm => exact absurd rfl h

/-- Without two finite operands only the signs of a product count. -/
theorem mul_eq_ofSign {u v : UnpackedFloat} (h : ¬ u.isFinite = true ∨ ¬ v.isFinite = true) :
    Extended.mul (valueOf u) (valueOf v) = .ofSign (signOf u * signOf v) := by
  rcases h with h | h
  · rw [valueOf_eq_ofSign h, Extended.ofSign_mul, sign_valueOf]
  · rw [valueOf_eq_ofSign h, Extended.mul_ofSign, sign_valueOf]

theorem mul_value {u v : UnpackedFloat} (hu : Canonical u) (hv : Canonical v) :
    Canonical (UnpackedFloat.mul Format.binary64 u v) ∧
      valueOf (UnpackedFloat.mul Format.binary64 u v) =
        (Extended.mul (valueOf u) (valueOf v)).map nearest := by
  by_cases h : u.isFinite = true ∧ v.isFinite = true
  · have hzero (p q : ℚ) (hpq : p * q = 0) :
        (Extended.mul (.number p) (.number q)).map nearest = .number 0 := by
      rw [Extended.mul, Extended.map, hpq, nearest_zero]
    cases u with
    | notANumber | infinity s => exact absurd h.1 Bool.false_ne_true
    | zero s =>
        cases v with
        | notANumber | infinity t => exact absurd h.2 Bool.false_ne_true
        | zero t | finite t n f hn => exact ⟨trivial, (hzero _ _ (zero_mul _)).symm⟩
    | finite s m e hm =>
        cases v with
        | notANumber | infinity t => exact absurd h.2 Bool.false_ne_true
        | zero t => exact ⟨trivial, (hzero _ _ (mul_zero _)).symm⟩
        | finite t n f hn =>
            have hpos : (0 : ℚ) < (m * n : ℕ) := by exact_mod_cast Nat.mul_pos hm hn
            have hdigits : 52 ≤ (m * n).log2 ∨ e + f ≤ -1074 := by
              obtain ⟨-, -, hm'⟩ := hu
              obtain ⟨-, -, hn'⟩ := hv
              rw [Nat.le_log2 (Nat.mul_pos hm hn).ne']
              rcases hm' with hm' | he
              · exact .inl (le_mul_of_le_of_one_le hm' hn)
              · rcases hn' with hn' | hf
                · exact .inl (le_mul_of_one_le_of_le hm hn')
                · exact .inr (by omega)
            obtain ⟨hcanonical, hvalue⟩ :=
              roundWithAccuracy_value (s * t) (represents_exact (m * n)) hpos hdigits
            refine ⟨hcanonical, hvalue.trans ?_⟩
            rw [← nearest_factor_mul, factor_mul, Nat.cast_mul, zpow_add₀ (by norm_num)]
            simp only [valueOf, Extended.mul, Extended.map]
            congr 2
            ring
  · rw [mul_eq_ofSign (not_and_or.1 h), Extended.map_ofSign]
    cases u with
    | notANumber =>
        rw [signOf, zero_mul]
        cases v <;> exact ⟨trivial, rfl⟩
    | infinity s =>
        cases v with
        | notANumber | zero t => cases s <;> exact ⟨trivial, rfl⟩
        | infinity t | finite t n f hn => cases s <;> cases t <;> exact ⟨trivial, rfl⟩
    | zero s =>
        cases v with
        | notANumber => exact ⟨trivial, rfl⟩
        | infinity t => cases t <;> exact ⟨trivial, rfl⟩
        | zero t | finite t n f hn => exact absurd ⟨rfl, rfl⟩ h
    | finite s m e hm =>
        cases v with
        | notANumber => cases s <;> exact ⟨trivial, rfl⟩
        | infinity t => cases s <;> cases t <;> exact ⟨trivial, rfl⟩
        | zero t | finite t n f hn => exact absurd ⟨rfl, rfl⟩ h

/-- A quotient has all the digits that it is rounded to, unless its exponent is the least there
is. -/
theorem divCore_value {m n : ℕ} (hm : 0 < m) (hn : 0 < n) (e f : ℤ) (s : Sign) :
    let c := divCore Format.binary64 m e n f
    Canonical (roundWithAccuracy Format.binary64 s c.1 c.2.1 c.2.2) ∧
      valueOf (roundWithAccuracy Format.binary64 s c.1 c.2.1 c.2.2) =
        .number (factor s * nearest (m * 2 ^ e / (n * 2 ^ f))) := by
  set t := min (e - f)
    (Format.binary64.targetExponent (totalExponent m e - totalExponent n f)) with ht
  obtain ⟨k, hk⟩ := Int.eq_ofNat_of_zero_le (sub_nonneg.2 (ht ▸ min_le_left (e - f) _ : t ≤ e - f))
  have hshift : divCore Format.binary64 m e n f =
      ((m <<< k) / n, t, accuracyOfFraction ((m <<< k) % n) n) := by
    simp only [divCore, ← ht, hk, Int.toNat_natCast]
  have hdigits : 52 ≤ ((m <<< k) / n).log2 ∨ t ≤ -1074 := by
    by_cases hleast : t ≤ -1074
    · exact .inr hleast
    · left
      have hk' : n.log2 + 53 ≤ m.log2 + k := by
        simp only [Format.targetExponent, totalExponent, Format.mantissaBits,
          Format.minExponent] at ht
        norm_num at ht
        omega
      have hle : 2 ^ 52 * n ≤ m <<< k := by
        rw [Nat.shiftLeft_eq]
        calc 2 ^ 52 * n ≤ 2 ^ 52 * 2 ^ (n.log2 + 1) := Nat.mul_le_mul_left _ Nat.lt_log2_self.le
          _ = 2 ^ (n.log2 + 53) := by rw [← pow_add]; congr 1; omega
          _ ≤ 2 ^ (m.log2 + k) := Nat.pow_le_pow_right (by norm_num) hk'
          _ = 2 ^ m.log2 * 2 ^ k := pow_add ..
          _ ≤ m * 2 ^ k := Nat.mul_le_mul_right _ (Nat.log2_self_le hm.ne')
      have hdiv : 2 ^ 52 ≤ (m <<< k) / n := (Nat.le_div_iff_mul_le hn).2 hle
      exact (Nat.le_log2 (by omega)).2 hdiv
  have hpos : (0 : ℚ) < ((m <<< k : ℕ) : ℚ) / n := by
    have h : (0 : ℚ) < (m <<< k : ℕ) := by exact_mod_cast Nat.shiftLeft_pos_iff.2 hm
    positivity
  have hquot : ((m <<< k : ℕ) : ℚ) / n * 2 ^ t = m * 2 ^ e / (n * 2 ^ f) := by
    rw [show e = k + t + f by omega, Nat.shiftLeft_eq, zpow_add₀ (by norm_num),
      zpow_add₀ (by norm_num), zpow_natCast]
    push_cast
    field_simp
  rw [hshift, ← hquot]
  exact roundWithAccuracy_value s (represents_fraction _ hn) hpos hdigits

theorem sign_inv (q : ℚ) : SignType.sign q⁻¹ = SignType.sign q := by
  rcases lt_trichotomy q 0 with hq | rfl | hq
  · rw [sign_neg hq, sign_neg (inv_neg''.2 hq)]
  · rw [inv_zero]
  · rw [sign_pos hq, sign_pos (inv_pos.2 hq)]

theorem div_value {u v : UnpackedFloat} (hv : valueOf v ≠ .number 0) :
    Canonical (UnpackedFloat.div Format.binary64 u v) ∧
      valueOf (UnpackedFloat.div Format.binary64 u v) =
        (Extended.mul (valueOf u) (valueOf v).inv).map nearest := by
  have hzero (p q : ℚ) (hpq : p * q = 0) :
      (Extended.mul (.number p) (.number q)).map nearest = .number 0 := by
    rw [Extended.mul, Extended.map, hpq, nearest_zero]
  cases v with
  | notANumber =>
      have h (x : Extended) : Extended.mul x .undefined = .undefined := by
        rw [show Extended.undefined = .ofSign 0 from rfl, Extended.mul_ofSign, mul_zero]
      rw [show (valueOf .notANumber).inv = .undefined from rfl, h]
      cases u <;> exact ⟨trivial, rfl⟩
  | infinity t =>
      rw [show (valueOf (.infinity t)).inv = .number 0 by cases t <;> rfl]
      cases u with
      | notANumber => exact ⟨trivial, rfl⟩
      | infinity s =>
          rw [valueOf_eq_ofSign (u := .infinity s) Bool.false_ne_true, Extended.ofSign_mul]
          rw [show (Extended.number 0).sign = 0 from sign_zero, mul_zero]
          exact ⟨trivial, rfl⟩
      | zero s | finite s m e hm => exact ⟨trivial, (hzero _ _ (mul_zero _)).symm⟩
  | zero t => exact absurd rfl hv
  | finite t n f hn =>
      have hq : factor t * (n * 2 ^ f) ≠ 0 := fun h => hv (congrArg Extended.number h)
      rw [show (valueOf (.finite t n f hn)).inv = .number (factor t * (n * 2 ^ f))⁻¹ from if_neg hq]
      have hsign : (Extended.number (factor t * (n * 2 ^ f))⁻¹).sign = signOf (.finite t n f hn) :=
        (sign_inv _).trans (sign_valueOf (.finite t n f hn))
      cases u with
      | notANumber =>
          rw [valueOf_eq_ofSign (u := .notANumber) Bool.false_ne_true, Extended.ofSign_mul, signOf,
            zero_mul]
          exact ⟨trivial, rfl⟩
      | infinity s =>
          rw [valueOf_eq_ofSign (u := .infinity s) Bool.false_ne_true, Extended.ofSign_mul, hsign,
            Extended.map_ofSign]
          cases s <;> cases t <;> exact ⟨trivial, rfl⟩
      | zero s => exact ⟨trivial, (hzero _ _ (zero_mul _)).symm⟩
      | finite s m e hm =>
          obtain ⟨hcanonical, hvalue⟩ := divCore_value hm hn e f (s / t)
          refine ⟨hcanonical, hvalue.trans ?_⟩
          rw [← nearest_factor_mul, factor_div]
          simp only [valueOf, Extended.mul, Extended.map]
          congr 2
          cases t <;> field_simp

end DiceOdds.Binary64
