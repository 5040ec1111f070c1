import Mathlib.Algebra.Order.Field.Power
import Mathlib.Data.Int.Log
import Mathlib.Data.Rat.Floor
import Mathlib.Tactic.Linarith
import Mathlib.Tactic.Positivity

namespace DiceOdds.Binary64

def roundEven (x : ℚ) : ℤ :=
  if Int.fract x < 1 / 2 then ⌊x⌋
  else if 1 / 2 < Int.fract x then ⌊x⌋ + 1
  else ⌊x⌋ + ⌊x⌋ % 2

theorem roundEven_bounds (x : ℚ) : ⌊x⌋ ≤ roundEven x ∧ roundEven x ≤ ⌊x⌋ + 1 := by
  unfold roundEven
  split_ifs <;> omega

theorem roundEven_intCast (n : ℤ) : roundEven n = n := by
  simp [roundEven]

theorem roundEven_mono {x y : ℚ} (h : x ≤ y) : roundEven x ≤ roundEven y := by
  have hfloor := Int.floor_le_floor h
  have hx := roundEven_bounds x
  have hy := roundEven_bounds y
  rcases hfloor.lt_or_eq with hlt | heq
  · omega
  · have hfract : Int.fract x ≤ Int.fract y := by
      rw [Int.fract, Int.fract, heq]
      linarith
    unfold roundEven
    rw [heq]
    split_ifs <;> first | omega | linarith

theorem roundEven_neg (x : ℚ) : roundEven (-x) = -roundEven x := by
  by_cases hx : Int.fract x = 0
  · obtain ⟨n, rfl⟩ : ∃ n : ℤ, x = n := ⟨⌊x⌋, by rw [Int.fract] at hx; linarith⟩
    rw [← Int.cast_neg, roundEven_intCast, roundEven_intCast]
  · have hfract := Int.fract_neg hx
    have hfloor : ⌊-x⌋ = -⌊x⌋ - 1 := by
      have hx' := Int.floor_add_fract x
      have hneg := Int.floor_add_fract (-x)
      have hcast : ((⌊-x⌋ : ℤ) : ℚ) = ((-⌊x⌋ - 1 : ℤ) : ℚ) := by
        push_cast
        linarith
      exact_mod_cast hcast
    unfold roundEven
    rw [hfract, hfloor]
    split_ifs <;> first | omega | linarith

def exponentOf (x : ℚ) : ℤ := max (Int.log 2 |x| - 52) (-1074)

/-- The number of fifty-three binary digits that is nearest, with an even last digit if two are. -/
def nearest (x : ℚ) : ℚ := roundEven (x / 2 ^ exponentOf x) * 2 ^ exponentOf x

theorem exponentOf_neg (x : ℚ) : exponentOf (-x) = exponentOf x := by
  rw [exponentOf, exponentOf, abs_neg]

theorem nearest_neg (x : ℚ) : nearest (-x) = -nearest x := by
  rw [nearest, nearest, exponentOf_neg, neg_div, roundEven_neg, Int.cast_neg, neg_mul]

theorem nearest_zero : nearest 0 = 0 := by
  have h : roundEven 0 = 0 := by simpa using roundEven_intCast 0
  rw [nearest, zero_div, h, Int.cast_zero, zero_mul]

theorem lt_zpow_exponentOf {x : ℚ} (hx : 0 < x) : x / 2 ^ exponentOf x < 2 ^ (53 : ℤ) := by
  have hlog : x < (2 : ℚ) ^ (Int.log 2 x + 1) := by
    exact_mod_cast Int.lt_zpow_succ_log_self (R := ℚ) (by norm_num : 1 < 2) x
  rw [div_lt_iff₀ (by positivity), ← zpow_add₀ (by norm_num)]
  refine hlog.trans_le (zpow_le_zpow_right₀ (by norm_num) ?_)
  rw [exponentOf, abs_of_pos hx]
  omega

theorem zpow_exponentOf_le {x : ℚ} (hx : 0 < x) (h : exponentOf x ≠ -1074) :
    2 ^ (52 : ℤ) ≤ x / 2 ^ exponentOf x := by
  have hlog : (2 : ℚ) ^ Int.log 2 x ≤ x := by
    exact_mod_cast Int.zpow_log_le_self (R := ℚ) (by norm_num : 1 < 2) hx
  rw [le_div_iff₀ (by positivity), ← zpow_add₀ (by norm_num)]
  refine le_trans (zpow_le_zpow_right₀ (by norm_num) ?_) hlog
  rw [exponentOf, abs_of_pos hx] at h ⊢
  omega

/-- The digits that are kept, where one carry too many may have been made. -/
theorem roundEven_le_two_pow {x : ℚ} (hx : 0 < x) : roundEven (x / 2 ^ exponentOf x) ≤ 2 ^ 53 := by
  have hround := roundEven_mono (lt_zpow_exponentOf hx).le
  rwa [show ((2 : ℚ) ^ (53 : ℤ)) = ((2 ^ 53 : ℤ) : ℚ) by norm_num, roundEven_intCast] at hround

theorem two_pow_le_roundEven {x : ℚ} (hx : 0 < x) (h : exponentOf x ≠ -1074) :
    2 ^ 52 ≤ roundEven (x / 2 ^ exponentOf x) := by
  have hround := roundEven_mono (zpow_exponentOf_le hx h)
  rwa [show ((2 : ℚ) ^ (52 : ℤ)) = ((2 ^ 52 : ℤ) : ℚ) by norm_num, roundEven_intCast] at hround

theorem exponentOf_mono {x y : ℚ} (hx : 0 < x) (h : x ≤ y) : exponentOf x ≤ exponentOf y := by
  have hlog := Int.log_mono_right (b := 2) hx h
  rw [exponentOf, exponentOf, abs_of_pos hx, abs_of_pos (hx.trans_le h)]
  omega

theorem nearest_nonneg {x : ℚ} (hx : 0 ≤ x) : 0 ≤ nearest x := by
  have hround : roundEven 0 ≤ roundEven (x / 2 ^ exponentOf x) :=
    roundEven_mono (by positivity)
  have hzero : roundEven 0 = 0 := by simpa using roundEven_intCast 0
  rw [hzero] at hround
  have hcast : (0 : ℚ) ≤ roundEven (x / 2 ^ exponentOf x) := by exact_mod_cast hround
  unfold nearest
  positivity

theorem nearest_mono_of_pos {x y : ℚ} (hx : 0 < x) (h : x ≤ y) : nearest x ≤ nearest y := by
  have hy := hx.trans_le h
  rcases (exponentOf_mono hx h).lt_or_eq with hlt | heq
  · -- in a greater binade, the power of two between the two is no farther from either
    have hleast : exponentOf y ≠ -1074 := by
      have : -1074 ≤ exponentOf x := le_max_right _ _
      omega
    have hdown := roundEven_le_two_pow hx
    have hup := two_pow_le_roundEven hy hleast
    have hdown' : (roundEven (x / 2 ^ exponentOf x) : ℚ) ≤ 2 ^ 53 := by exact_mod_cast hdown
    have hup' : (2 : ℚ) ^ 52 ≤ roundEven (y / 2 ^ exponentOf y) := by exact_mod_cast hup
    calc nearest x ≤ 2 ^ 53 * 2 ^ exponentOf x := mul_le_mul_of_nonneg_right hdown' (by positivity)
      _ = 2 ^ 52 * 2 ^ (exponentOf x + 1) := by
        rw [zpow_add_one₀ (by norm_num)]
        ring
      _ ≤ 2 ^ 52 * 2 ^ exponentOf y :=
        mul_le_mul_of_nonneg_left (zpow_le_zpow_right₀ (by norm_num) hlt) (by positivity)
      _ ≤ nearest y := mul_le_mul_of_nonneg_right hup' (by positivity)
  · have hround : roundEven (x / 2 ^ exponentOf x) ≤ roundEven (y / 2 ^ exponentOf x) :=
      roundEven_mono (div_le_div_of_nonneg_right h (by positivity))
    have hcast : (roundEven (x / 2 ^ exponentOf x) : ℚ) ≤ roundEven (y / 2 ^ exponentOf x) := by
      exact_mod_cast hround
    rw [nearest, nearest, ← heq]
    exact mul_le_mul_of_nonneg_right hcast (by positivity)

theorem nearest_mono {x y : ℚ} (h : x ≤ y) : nearest x ≤ nearest y := by
  rcases lt_trichotomy x 0 with hx | rfl | hx
  · rcases lt_or_ge y 0 with hy | hy
    · have hneg := nearest_mono_of_pos (neg_pos.2 hy) (neg_le_neg h)
      rw [nearest_neg, nearest_neg] at hneg
      exact neg_le_neg_iff.1 hneg
    · have hneg := nearest_nonneg (neg_pos.2 hx).le
      rw [nearest_neg] at hneg
      exact le_trans (by linarith) (nearest_nonneg hy)
  · rw [nearest_zero]
    exact nearest_nonneg h
  · exact nearest_mono_of_pos hx h

/-- A number is its own nearest if its last binary place is not rounded off. -/
theorem nearest_eq_self {m : ℤ} {e : ℤ} (h : exponentOf (m * 2 ^ e) ≤ e) :
    nearest (m * 2 ^ e) = m * 2 ^ e := by
  obtain ⟨k, hk⟩ := Int.eq_ofNat_of_zero_le (sub_nonneg.2 h)
  have hquot : (m * 2 ^ e / 2 ^ exponentOf (m * 2 ^ e) : ℚ) = ((m * 2 ^ k : ℤ) : ℚ) := by
    rw [mul_div_assoc, ← zpow_sub₀ (by norm_num), hk]
    push_cast
    rfl
  rw [nearest, hquot, roundEven_intCast, ← hquot, div_mul_cancel₀]
  positivity

/-- Fifty-three binary digits are kept. -/
theorem nearest_mul_zpow {m : ℕ} {e : ℤ} (hlt : m < 2 ^ 53) (hleast : -1074 ≤ e) :
    nearest (m * 2 ^ e) = m * 2 ^ e := by
  rcases Nat.eq_zero_or_pos m with rfl | hm
  · rw [Nat.cast_zero, zero_mul, nearest_zero]
  · have hpos : (0 : ℚ) < m * 2 ^ e := by positivity
    have hlog : Int.log 2 ((m : ℚ) * 2 ^ e) < 53 + e := by
      have hlt' : (m : ℚ) < 2 ^ 53 := by exact_mod_cast hlt
      rw [← Int.lt_zpow_iff_log_lt (by norm_num) hpos]
      push_cast
      rw [zpow_add₀ (by norm_num)]
      exact mul_lt_mul_of_pos_right hlt' (by positivity)
    have hexp : exponentOf (((m : ℤ) : ℚ) * 2 ^ e) ≤ e := by
      rw [exponentOf, Int.cast_natCast, abs_of_pos hpos]
      omega
    exact_mod_cast nearest_eq_self hexp

theorem nearest_two_pow (n : ℕ) : nearest (2 ^ n) = 2 ^ n := by
  have h := nearest_mul_zpow (m := 1) (e := n) (by norm_num) (by omega)
  rwa [Nat.cast_one, one_mul, zpow_natCast] at h

/-- Nothing is rounded beyond a power of two. -/
theorem abs_nearest_le {x : ℚ} {n : ℕ} (h : |x| ≤ 2 ^ n) : |nearest x| ≤ 2 ^ n := by
  obtain ⟨hlo, hhi⟩ := abs_le.1 h
  have hlo := nearest_mono hlo
  have hhi := nearest_mono hhi
  rw [nearest_neg, nearest_two_pow] at hlo
  rw [nearest_two_pow] at hhi
  exact abs_le.2 ⟨hlo, hhi⟩

end DiceOdds.Binary64
