import DiceOdds.Binary64
import DiceOdds.Proofs.Binary64.Arithmetic

namespace DiceOdds.Binary64

open Float.Model Float.Model.UnpackedFloat

def Reading.value : Reading → Extended
  | .nan => .undefined
  | .infinite true => .bottom
  | .infinite false => .top
  | .finite negative m e => .number ((if negative then -1 else 1) * (m * 2 ^ e))

def value (x : Float) : Extended := (read x).value

theorem toNat_unpackMantissa (b : BitVec 64) :
    (@unpackMantissa Format.binary64 b).toNat = b.toNat % 0x10000000000000 := by
  simp [unpackMantissa, BitVec.extractLsb]

theorem toNat_unpackExponent (b : BitVec 64) :
    (@unpackExponent Format.binary64 b).toNat = b.toNat / 0x10000000000000 % 0x800 := by
  simp [unpackExponent, BitVec.extractLsb, Nat.shiftRight_eq_div_pow]

theorem ofBitVec_unpackSign (b : BitVec 64) :
    Sign.ofBitVec (@unpackSign Format.binary64 b) =
      if 0x8000000000000000 ≤ b.toNat then .negative else .positive := by
  have h : (@unpackSign Format.binary64 b).toNat = b.toNat / 0x8000000000000000 := by
    have hlt := b.isLt
    simp [unpackSign, BitVec.extractLsb, Nat.shiftRight_eq_div_pow]
    omega
  unfold Sign.ofBitVec
  by_cases hb : 0x8000000000000000 ≤ b.toNat
  · rw [if_pos hb, if_neg]
    intro hzero
    rw [hzero, BitVec.toNat_ofNat] at h
    omega
  · rw [if_neg hb, if_pos]
    apply BitVec.eq_of_toNat_eq
    rw [h, BitVec.toNat_ofNat]
    omega

theorem toNat_append_one (v : BitVec 52) : (1#1 ++ v).toNat = 0x10000000000000 + v.toNat := by
  rw [BitVec.toNat_append, ← Nat.shiftLeft_add_eq_or_of_lt v.isLt]
  rfl

theorem eq_neg_one_iff (v : BitVec 11) : v = -1#11 ↔ v.toNat = 2047 :=
  ⟨fun h => by rw [h]; rfl, fun h => BitVec.eq_of_toNat_eq h⟩

theorem eq_zero_iff {n : ℕ} (v : BitVec n) : v = 0#n ↔ v.toNat = 0 :=
  ⟨fun h => by rw [h]; rfl, fun h => BitVec.eq_of_toNat_eq h⟩

def isNegative : Sign → Bool
  | .negative => true
  | .positive => false

inductive Agree : Reading → UnpackedFloat → Prop
  | nan : Agree .nan .notANumber
  | infinite (s : Sign) : Agree (.infinite (isNegative s)) (.infinity s)
  | zero (s : Sign) : Agree (.finite (isNegative s) 0 (-1074)) (.zero s)
  | subnormal (s : Sign) (m : ℕ) (hm : 0 < m) (hlt : m < 2 ^ 52) :
      Agree (.finite (isNegative s) m (-1074)) (.finite s m (-1074) hm)
  | normal (s : Sign) (m : ℕ) (e : ℤ) (hm : 0 < m) (hle : 2 ^ 52 ≤ m) (hlt : m < 2 ^ 53)
      (hleast : -1074 ≤ e) (hgreatest : e ≤ 971) :
      Agree (.finite (isNegative s) m e) (.finite s m e hm)

theorem agree (x : Float) : Agree (read x) x.toModel.unpack := by
  have hbits : x.toBits.toNat = x.toModel.toBits.toBitVec.toNat := rfl
  unfold read Float.Model.unpack
  rw [hbits]
  generalize x.toModel.toBits.toBitVec = b
  have hnegative : decide (0x8000000000000000 ≤ b.toNat) =
      isNegative (Sign.ofBitVec (@unpackSign Format.binary64 b)) := by
    rw [ofBitVec_unpackSign]
    split_ifs with h
    · exact decide_eq_true h
    · exact decide_eq_false h
  have hbias : Format.binary64.exponentBias = 1023 := rfl
  rw [UnpackedFloat.unpack]
  simp only [hnegative, ← toNat_unpackMantissa, ← toNat_unpackExponent, eq_neg_one_iff,
    eq_zero_iff, hbias, toNat_append_one]
  have hm : (@unpackMantissa Format.binary64 b).toNat < 2 ^ 52 := BitVec.isLt _
  have he : (@unpackExponent Format.binary64 b).toNat < 2 ^ 11 := BitVec.isLt _
  split_ifs with hlast hfraction hfirst hfraction
  · exact .infinite _
  · exact .nan
  · rw [hfraction]
    exact .zero _
  · have hexponent : ((@unpackExponent Format.binary64 b).toNat : ℤ) -
        (((1023 : ℕ) : ℤ) + ((52 : ℕ) : ℤ)) + 1 = -1074 := by omega
    simp only [hexponent]
    exact .subnormal _ _ (Nat.pos_of_ne_zero hfraction) hm
  · have hexponent : ((@unpackExponent Format.binary64 b).toNat : ℤ) -
        (((1023 : ℕ) : ℤ) + ((52 : ℕ) : ℤ)) = (@unpackExponent Format.binary64 b).toNat - 1075 := by
      omega
    simp only [hexponent]
    exact .normal _ _ _ _ (by omega) (by omega) (by omega) (by omega)

theorem Agree.value_eq {r : Reading} {u : UnpackedFloat} (h : Agree r u) :
    r.value = valueOf u := by
  cases h with
  | nan => rfl
  | infinite s => cases s <;> rfl
  | zero s => simp [Reading.value, valueOf]
  | subnormal s m hm | normal s m e hm => cases s <;> rfl

theorem Agree.canonical {r : Reading} {u : UnpackedFloat} (h : Agree r u) : Canonical u := by
  cases h with
  | nan | infinite s | zero s => trivial
  | subnormal s m hm hlt => exact ⟨by omega, le_rfl, .inr rfl⟩
  | normal s m e hm hle hlt hleast => exact ⟨hlt, hleast, .inl hle⟩

theorem value_eq (x : Float) : value x = valueOf x.toModel.unpack :=
  (agree x).value_eq

theorem canonical_unpack (x : Float) : Canonical x.toModel.unpack :=
  (agree x).canonical

theorem isFinite_iff (x : Float) : x.isFinite = true ↔ ∃ q, value x = .number q := by
  have h : x.isFinite = x.toModel.unpack.isFinite := rfl
  rw [h, value_eq]
  cases x.toModel.unpack with
  | notANumber => simp [UnpackedFloat.isFinite, valueOf]
  | infinity s => cases s <;> simp [UnpackedFloat.isFinite, valueOf]
  | zero s => simp [UnpackedFloat.isFinite, valueOf]
  | finite s m e hm => simp [UnpackedFloat.isFinite, valueOf]

theorem isFinite_of_value {x : Float} {q : ℚ} (h : value x = .number q) : x.isFinite = true :=
  (isFinite_iff x).2 ⟨q, h⟩

end DiceOdds.Binary64
