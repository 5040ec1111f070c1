import DiceOdds.Scalar
import Mathlib.Data.Sign.Basic
import Mathlib.Algebra.Order.Field.Rat
import Mathlib.Tactic.Linarith

namespace DiceOdds

/-- Rational numbers between two ends, computed without rounding. A result that neither a number
nor an end can be is undefined. -/
inductive Extended
  | undefined
  | bottom
  | number (q : ℚ)
  | top
  deriving DecidableEq

namespace Extended

def add : Extended → Extended → Extended
  | undefined, _ | _, undefined | bottom, top | top, bottom => undefined
  | number p, number q => number (p + q)
  | bottom, _ | _, bottom => bottom
  | top, _ | _, top => top

def neg : Extended → Extended
  | undefined => undefined
  | bottom => top
  | number q => number (-q)
  | top => bottom

def sign : Extended → SignType
  | undefined => 0
  | bottom => -1
  | number q => SignType.sign q
  | top => 1

def ofSign : SignType → Extended
  | .zero => undefined
  | .neg => bottom
  | .pos => top

def mul : Extended → Extended → Extended
  | number p, number q => number (p * q)
  | x, y => ofSign (x.sign * y.sign)

def inv : Extended → Extended
  | undefined => undefined
  | number q => if q = 0 then undefined else number q⁻¹
  | bottom | top => number 0

def map (f : ℚ → ℚ) : Extended → Extended
  | number q => number (f q)
  | x => x

def le : Extended → Extended → Bool
  | undefined, _ | _, undefined => false
  | bottom, _ | _, top => true
  | number p, number q => p ≤ q
  | _, _ => false

theorem map_ofSign (f : ℚ → ℚ) (s : SignType) : (ofSign s).map f = ofSign s := by
  cases s <;> rfl

theorem ofSign_mul (s : SignType) (x : Extended) : mul (ofSign s) x = ofSign (s * x.sign) := by
  cases s <;> rfl

theorem mul_ofSign (x : Extended) (s : SignType) : mul x (ofSign s) = ofSign (x.sign * s) := by
  cases x <;> cases s <;> rfl

theorem top_mul (x : Extended) : mul top x = ofSign x.sign := by
  rw [show top = ofSign 1 from rfl, ofSign_mul, one_mul]

theorem bottom_mul (x : Extended) : mul bottom x = ofSign (-x.sign) := by
  rw [show bottom = ofSign (-1) from rfl, ofSign_mul, neg_one_mul]

theorem le_number (p q : ℚ) : le (number p) (number q) = true ↔ p ≤ q :=
  decide_eq_true_iff

theorem ofSign_le_number {s : SignType} {q : ℚ} : le (ofSign s) (number q) = true ↔ s = -1 := by
  cases s <;> simp [ofSign, le]

theorem le_self {x : Extended} : le x x = true ↔ x ≠ undefined := by
  cases x <;> simp [le]

theorem le_left {x y : Extended} (h : le x y = true) : le x x = true := by
  cases x <;> cases y <;> simp [le] at h ⊢

theorem le_right {x y : Extended} (h : le x y = true) : le y y = true := by
  cases x <;> cases y <;> simp [le] at h ⊢

protected theorem le_trans {x y z : Extended} (hxy : le x y = true) (hyz : le y z = true) :
    le x z = true := by
  cases x <;> cases y <;> cases z <;> simp only [le, decide_eq_true_eq] at hxy hyz ⊢ <;> grind

protected theorem le_total {x y : Extended} (hx : le x x = true) (hy : le y y = true) :
    le x y = true ∨ le y x = true := by
  cases x <;> cases y <;> simp only [le, decide_eq_true_eq] at hx hy ⊢ <;> grind

theorem bottom_le {x : Extended} (h : le x x = true) : le bottom x = true := by
  cases x <;> simp [le] at h ⊢

protected theorem le_top {x : Extended} (h : le x x = true) : le x top = true := by
  cases x <;> simp [le] at h ⊢

protected theorem neg_le_neg (x y : Extended) : le (neg y) (neg x) = le x y := by
  cases x <;> cases y <;> simp [le, neg]

@[simp] protected theorem neg_neg (x : Extended) : neg (neg x) = x := by
  cases x <;> simp [neg]

theorem neg_eq_iff {x y : Extended} : neg x = y ↔ x = neg y :=
  ⟨fun h => h ▸ (Extended.neg_neg x).symm, fun h => h ▸ Extended.neg_neg y⟩

protected theorem sign_neg (x : Extended) : (neg x).sign = -x.sign := by
  cases x with
  | number q => exact Left.sign_neg q
  | undefined | bottom | top => rfl

theorem ofSign_neg (s : SignType) : ofSign (-s) = neg (ofSign s) := by
  cases s <;> rfl

protected theorem mul_comm (x y : Extended) : mul x y = mul y x := by
  cases x <;> cases y <;> simp only [mul, mul_comm]

theorem mul_eq_ofSign {x y : Extended} (h : (∀ p, x ≠ number p) ∨ ∀ q, y ≠ number q) :
    mul x y = ofSign (x.sign * y.sign) := by
  cases x <;> cases y <;> first | rfl | simp at h

protected theorem neg_mul (x y : Extended) : mul (neg x) y = neg (mul x y) := by
  by_cases h : (∃ p, x = number p) ∧ ∃ q, y = number q
  · obtain ⟨⟨p, rfl⟩, q, rfl⟩ := h
    exact congrArg number (neg_mul p q)
  · have h : (∀ p, x ≠ number p) ∨ ∀ q, y ≠ number q := by
      simpa only [not_and_or, not_exists] using h
    have h' : (∀ p, neg x ≠ number p) ∨ ∀ q, y ≠ number q :=
      h.imp_left fun hx p hp => hx (-p) (neg_eq_iff.1 hp)
    rw [mul_eq_ofSign h, mul_eq_ofSign h', Extended.sign_neg, ← ofSign_neg, neg_mul]

theorem inv_number {q : ℚ} (h : q ≠ 0) : (number q).inv = number q⁻¹ := if_neg h

theorem neg_inv (x : Extended) : (neg x).inv = neg x.inv := by
  cases x with
  | undefined => rfl
  | bottom | top => exact congrArg number neg_zero.symm
  | number q =>
      by_cases hq : q = 0
      · rw [hq]
        simp [neg, inv]
      · rw [neg, inv_number hq, inv_number (neg_ne_zero.2 hq), neg, inv_neg]

protected theorem neg_add (x y : Extended) : neg (add x y) = add (neg x) (neg y) := by
  cases x <;> cases y <;> simp [add, neg, add_comm]

/-- A sum can be less than another only where the other is not the upper end. -/
theorem le_add {x y x' y' : Extended} (hx : le x x' = true) (hy : le y y' = true)
    (hx' : x' ≠ top) (hy' : y' ≠ top) : le (add x y) (add x' y') = true := by
  cases x' with
  | undefined => exact absurd (le_right hx) Bool.false_ne_true
  | top => exact absurd rfl hx'
  | bottom =>
      cases x <;> simp only [le, reduceCtorEq] at hx
      cases y <;> cases y' <;> simp [le, add] at hy hy' ⊢
  | number p' =>
      cases y' with
      | undefined => exact absurd (le_right hy) Bool.false_ne_true
      | top => exact absurd rfl hy'
      | bottom => cases x <;> cases y <;> simp [le, add] at hx hy ⊢
      | number q' =>
          cases x <;> cases y <;> simp [le, add] at hx hy ⊢
          exact add_le_add hx hy

instance : ExtendedScalar Extended where
  add := add
  sub x y := add x (neg y)
  mul := mul
  div x y := mul x (inv y)
  ofNat n := number n
  neutral := number 0
  bottom := bottom
  top := top
  le := le

end Extended

end DiceOdds
