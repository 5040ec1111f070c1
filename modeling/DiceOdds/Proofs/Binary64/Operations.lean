import DiceOdds.Proofs.Binary64.Value
import DiceOdds.Proofs.Hull

namespace DiceOdds.Binary64

open Float.Model Float.Model.UnpackedFloat

def limit : ℚ := 2 ^ (1024 : ℤ)

def overflow : Extended → Extended
  | .number q => if limit ≤ q then .top else if q ≤ -limit then .bottom else .number q
  | z => z

def rounded (z : Extended) : Extended := overflow (z.map nearest)

theorem limit_pos : 0 < limit := by
  unfold limit
  positivity

theorem two_pow_lt_limit {n : ℕ} (h : n < 1024) : (2 : ℚ) ^ n < limit := by
  rw [limit, ← zpow_natCast]
  exact zpow_lt_zpow_right₀ (by norm_num) (by omega)

theorem rounded_number {z : ℚ} (h : |nearest z| < limit) :
    rounded (.number z) = .number (nearest z) := by
  obtain ⟨hlo, hhi⟩ := abs_lt.1 h
  rw [rounded, Extended.map, overflow, if_neg (not_le.2 hhi), if_neg (not_le.2 hlo)]

theorem rounded_of_abs_le {z : ℚ} {n : ℕ} (hn : n < 1024) (h : |z| ≤ 2 ^ n) :
    rounded (.number z) = .number (nearest z) :=
  rounded_number ((abs_nearest_le h).trans_lt (two_pow_lt_limit hn))

theorem rounded_ne_number {z : ℚ} (h : limit ≤ |nearest z|) (q : ℚ) :
    rounded (.number z) ≠ .number q := by
  rw [rounded, Extended.map, overflow]
  split_ifs with htop hbottom
  · rintro ⟨⟩
  · rintro ⟨⟩
  · exact absurd (abs_lt.2 ⟨not_le.1 hbottom, not_le.1 htop⟩) (not_lt.2 h)

theorem exists_number_of_rounded {z : Extended} {q : ℚ} (h : rounded z = .number q) :
    ∃ p, z = .number p := by
  cases z with
  | number p => exact ⟨p, rfl⟩
  | undefined | bottom | top => cases h

theorem limit_eq (a b : ℤ) (h : a + b = 1024) : limit = 2 ^ a * 2 ^ b := by
  rw [limit, ← h, zpow_add₀ (by norm_num)]

theorem unpackSign_packComponents {f : Format} (s : Sign) (v : BitVec f.exponentBits)
    (w : BitVec f.mantissaBitsWithoutImplicit) :
    Sign.ofBitVec (unpackSign (packComponents f s v w)) = s := by
  have h : unpackSign (packComponents f s v w) = s.toBitVec := by
    ext i hi
    obtain rfl : i = 0 := by omega
    simp [unpackSign, packComponents, BitVec.getLsbD_append, BitVec.getElem_append]
  rw [h]
  cases s <;> rfl

/-- Packing keeps a number that has an exponent left, and makes an end of any other. -/
theorem unpack_pack_finite {s : Sign} {m : ℕ} {e : ℤ} {hm : 0 < m}
    (h : Canonical (.finite s m e hm)) :
    UnpackedFloat.unpack Format.binary64 (UnpackedFloat.pack Format.binary64 (.finite s m e hm)) =
      if 972 ≤ e then .infinity s else .finite s m e hm := by
  obtain ⟨hlt, hleast, hdigits⟩ := h
  have hbias : Format.binary64.exponentBias = 1023 := rfl
  have hbits : Format.binary64.mantissaBits = 53 := rfl
  simp only [UnpackedFloat.pack, hbias, hbits]
  by_cases he : 972 ≤ e
  · rw [if_pos he, if_pos (by omega)]
    simp only [UnpackedFloat.unpack, packedInfinity, unpackMantissa_packComponents,
      unpackExponent_packComponents, unpackSign_packComponents]
    rfl
  · rw [if_neg he, if_neg (by omega)]
    by_cases hnormal : 2 ^ 52 ≤ m
    · have hlog : m.log2 + 1 = 53 := by
        have hle := (Nat.le_log2 hm.ne').2 hnormal
        have hlt := (Nat.log2_lt hm.ne').2 hlt
        omega
      rw [if_pos hlog]
      simp only [UnpackedFloat.unpack, unpackMantissa_packComponents,
        unpackExponent_packComponents, unpackSign_packComponents, eq_neg_one_iff, eq_zero_iff,
        BitVec.toNat_ofNat, toNat_append_one, hbias]
      rw [if_neg (by omega), if_neg (by omega), UnpackedFloat.finite.injEq]
      exact ⟨rfl, by omega, by omega⟩
    · have hlog : m.log2 + 1 ≠ 53 := by
        have hlt := (Nat.log2_lt hm.ne').2 (not_le.1 hnormal)
        omega
      rw [if_neg hlog]
      simp only [UnpackedFloat.unpack, unpackMantissa_packComponents,
        unpackExponent_packComponents, unpackSign_packComponents, eq_neg_one_iff, eq_zero_iff,
        BitVec.toNat_ofNat, hbias]
      rw [if_neg (by omega), if_pos trivial, dif_neg (by omega), UnpackedFloat.finite.injEq]
      exact ⟨rfl, by omega, by omega⟩

theorem value_pack {u : UnpackedFloat} (h : Canonical u) :
    value (.ofModel (.pack u)) = overflow (valueOf u) := by
  have hunpack : value (.ofModel (.pack u)) =
      valueOf (UnpackedFloat.unpack Format.binary64 (UnpackedFloat.pack Format.binary64 u)) :=
    value_eq _
  rw [hunpack]
  cases u with
  | notANumber => rfl
  | infinity s => cases s <;> rfl
  | zero s =>
      have hzero : overflow (.number 0) = .number 0 := by
        rw [overflow, if_neg (not_le.2 limit_pos), if_neg (not_le.2 (neg_lt_zero.2 limit_pos))]
      cases s <;> exact hzero.symm
  | finite s m e hm =>
      rw [unpack_pack_finite h]
      obtain ⟨hlt, hleast, hdigits⟩ := h
      have hpos : (0 : ℚ) < m * 2 ^ e := by positivity
      by_cases he : 972 ≤ e
      · have hle : limit ≤ m * 2 ^ e := by
          have hm' : (2 : ℚ) ^ (52 : ℤ) ≤ m := by exact_mod_cast hdigits.resolve_right (by omega)
          have he' : (2 : ℚ) ^ (972 : ℤ) ≤ 2 ^ e := zpow_le_zpow_right₀ (by norm_num) he
          rw [limit_eq 52 972 rfl]
          exact mul_le_mul hm' he' (by positivity) (by positivity)
        rw [if_pos he]
        cases s with
        | positive => rw [valueOf, valueOf, factor_positive, one_mul, overflow, if_pos hle]
        | negative =>
            rw [valueOf, valueOf, factor_negative, neg_one_mul, overflow,
              if_neg (by linarith [limit_pos]),
              if_pos (neg_le_neg hle)]
      · have hlt' : (m : ℚ) * 2 ^ e < limit := by
          have hm' : (m : ℚ) < 2 ^ (53 : ℤ) := by exact_mod_cast hlt
          have he' : (2 : ℚ) ^ e ≤ 2 ^ (971 : ℤ) := zpow_le_zpow_right₀ (by norm_num) (by omega)
          rw [limit_eq 53 971 rfl]
          exact mul_lt_mul hm' he' (by positivity) (by positivity)
        rw [if_neg he]
        cases s with
        | positive =>
            rw [valueOf, factor_positive, one_mul, overflow, if_neg (not_le.2 hlt'),
              if_neg (by linarith)]
        | negative =>
            rw [valueOf, factor_negative, neg_one_mul, overflow, if_neg (by linarith),
              if_neg (by linarith)]

theorem value_add (x y : Float) : value (x + y) = rounded (Extended.add (value x) (value y)) := by
  obtain ⟨hcanonical, hvalue⟩ := add_value (canonical_unpack x) (canonical_unpack y)
  rw [rounded, value_eq x, value_eq y, ← hvalue]
  exact value_pack hcanonical

theorem value_sub (x y : Float) :
    value (x - y) = rounded (Extended.add (value x) (value y).neg) := by
  obtain ⟨hcanonical, hvalue⟩ := sub_value (canonical_unpack x) (canonical_unpack y)
  rw [rounded, value_eq x, value_eq y, ← hvalue]
  exact value_pack hcanonical

theorem value_mul (x y : Float) : value (x * y) = rounded (Extended.mul (value x) (value y)) := by
  obtain ⟨hcanonical, hvalue⟩ := mul_value (canonical_unpack x) (canonical_unpack y)
  rw [rounded, value_eq x, value_eq y, ← hvalue]
  exact value_pack hcanonical

theorem value_div (x : Float) {y : Float} (hy : value y ≠ .number 0) :
    value (x / y) = rounded (Extended.mul (value x) (value y).inv) := by
  rw [value_eq y] at hy
  obtain ⟨hcanonical, hvalue⟩ := div_value (u := x.toModel.unpack) hy
  rw [rounded, value_eq x, value_eq y, ← hvalue]
  exact value_pack hcanonical

theorem ofModel_pack (x : Float) : .ofModel (.pack x.toModel.unpack) = x := by
  rw [← Float.toBits_inj]
  apply UInt64.toBitVec_inj.1
  exact pack_unpack_of_valid x.toModel.valid

theorem zero_add_unpacked (u : UnpackedFloat) :
    UnpackedFloat.add Format.binary64 (.zero .negative) u = u := by
  cases u with
  | zero s => cases s <;> rfl
  | notANumber | infinity | finite => rfl

/-- Sums start at the zero that changes no number, not even the other zero. -/
theorem neutral_add (x : Float) : Scalar.neutral + x = x := by
  have hneutral : (Scalar.neutral : Float).toModel.unpack = .zero .negative := rfl
  have hadd : Scalar.neutral + x = .ofModel (.pack (UnpackedFloat.add Format.binary64
      (Scalar.neutral : Float).toModel.unpack x.toModel.unpack)) := rfl
  rw [hadd, hneutral, zero_add_unpacked]
  exact ofModel_pack x

end DiceOdds.Binary64
