import DiceOdds.Expr.Bounds
import DiceOdds.Proofs.Corners
import DiceOdds.Proofs.Hull

namespace DiceOdds

open Extended

class Rounded (α : Type) [ExtendedScalar α] where
  value : α → Extended
  round : Extended → Extended
  round_le {z w : Extended} : le z w = true → le (round z) (round w) = true
  round_undefined : round undefined = undefined
  round_bottom : round bottom = bottom
  round_top : round top = top
  round_natCast {n : ℕ} : n < 2 ^ 53 → round (number n) = number n
  le_eq (x y : α) : ExtendedScalar.le x y = le (value x) (value y)
  value_bottom : value ExtendedScalar.bottom = bottom
  value_top : value ExtendedScalar.top = top
  value_ofNat {n : ℕ} : n < 2 ^ 53 → value (Scalar.ofNat n) = number n
  value_add (x y : α) : value (x + y) = round (add (value x) (value y))
  value_sub (x y : α) : value (x - y) = round (add (value x) (value y).neg)
  value_mul (x y : α) : value (x * y) = round (mul (value x) (value y))
  value_div (x : α) {y : α} :
    value y ≠ number 0 → value (x / y) = round (mul (value x) (value y).inv)

namespace Rounded

variable {α : Type} [ExtendedScalar α] [Rounded α]

instance : ExtendedScalar.Ordered α where
  left {x y} h := by
    rw [le_eq] at h ⊢
    exact le_left h
  right {x y} h := by
    rw [le_eq] at h ⊢
    exact le_right h
  trans {x y z} hxy hyz := by
    rw [le_eq] at hxy hyz ⊢
    exact Extended.le_trans hxy hyz
  total {x y} hx hy := by
    rw [le_eq] at hx hy
    rw [le_eq, le_eq]
    exact Extended.le_total hx hy
  bottom_le {x} h := by
    rw [le_eq] at h ⊢
    rw [value_bottom]
    exact bottom_le h
  le_top {x} h := by
    rw [le_eq] at h ⊢
    rw [value_top]
    exact Extended.le_top h

variable {a b z : Extended}

theorem ne_undefined_of_round (h : round α z ≠ undefined) : z ≠ undefined := by
  rintro rfl
  exact h round_undefined

theorem ne_top_of_round (h : round α z ≠ top) : z ≠ top := by
  rintro rfl
  exact h round_top

theorem ne_bottom_of_round (h : round α z ≠ bottom) : z ≠ bottom := by
  rintro rfl
  exact h round_bottom

theorem between_round (h : Between a b z) : Between (round α a) (round α b) (round α z) := by
  intro hz
  obtain ⟨hlo, hhi⟩ := h (ne_undefined_of_round hz)
  exact ⟨fun htop => round_le (hlo (ne_top_of_round htop)),
    fun hbottom => round_le (hhi (ne_bottom_of_round hbottom))⟩

/-- What some results cover exactly, the hull around them encloses once all of it is rounded. -/
theorem between_hull {xs : List α} {ks : List Extended} (h : xs.map value = ks.map (round α))
    (hcovers : Covers ks z) :
    Between (value (Interval.hull xs).lo) (value (Interval.hull xs).hi) (round α z) := by
  have hhull {k : Extended} (hk : k ∈ ks) (hself : le (round α k) (round α k) = true) :
      le (value (Interval.hull xs).lo) (round α k) = true ∧
        le (round α k) (value (Interval.hull xs).hi) = true := by
    obtain ⟨x, hx, hvalue⟩ :=
      List.mem_map.1 (h ▸ List.mem_map_of_mem hk : round α k ∈ xs.map value)
    rw [← hvalue, ← le_eq] at hself
    rw [← hvalue, ← le_eq, ← le_eq]
    exact ⟨Interval.hull_lo_le hx hself, Interval.le_hull_hi hx hself⟩
  intro hz
  obtain ⟨hlo, hhi⟩ := hcovers (ne_undefined_of_round hz)
  constructor
  · intro htop
    obtain ⟨k, hk, hle⟩ := hlo (ne_top_of_round htop)
    have hround := round_le (α := α) hle
    exact Extended.le_trans (hhull hk (le_left hround)).1 hround
  · intro hbottom
    obtain ⟨k, hk, hle⟩ := hhi (ne_bottom_of_round hbottom)
    have hround := round_le (α := α) hle
    exact Extended.le_trans hround (hhull hk (le_right hround)).2

end Rounded

open Rounded

/-- Where corners are taken, one of them is a number. -/
def Interval.Cornered {α : Type} [ExtendedScalar α] (op : Operator) (i j : Interval α) : Prop :=
  (op = .mul ∨ op = .div ∧ ¬ j.containsZero = true) →
    ∃ k ∈ corners op i j, ExtendedScalar.le k k = true

def Expr.Cornered (α : Type) [ExtendedScalar α] : Expr → Prop
  | .roll _ => True
  | .binary l op r =>
    l.Cornered α ∧ r.Cornered α ∧ Interval.Cornered op (l.bounds : Interval α) r.bounds

variable {α : Type} [ExtendedScalar α] [Rounded α]

def Interval.Encloses (i : Interval α) (x : α) : Prop := Between (value i.lo) (value i.hi) (value x)

namespace Interval

variable {i j : Interval α} {x y : α}

theorem containsZero_eq (i : Interval α) :
    i.containsZero = (le (value i.lo) (number 0) && le (number 0) (value i.hi)) := by
  have hzero : value (Scalar.ofNat 0 : α) = number 0 := value_ofNat (by norm_num)
  rw [containsZero, Rounded.le_eq, Rounded.le_eq, hzero]

theorem exists_ne_undefined {xs : List α} {ks : List Extended} (h : xs.map value = ks.map (round α))
    (hxs : ∃ x ∈ xs, ExtendedScalar.le x x = true) : ∃ k ∈ ks, k ≠ undefined := by
  obtain ⟨x, hx, hself⟩ := hxs
  obtain ⟨k, hk, hround⟩ := List.mem_map.1 (h ▸ List.mem_map_of_mem hx : value x ∈ ks.map (round α))
  rw [Rounded.le_eq, ← hround] at hself
  exact ⟨k, hk, ne_undefined_of_round (le_self.1 hself)⟩

theorem Encloses.add (hx : i.Encloses x) (hy : j.Encloses y) :
    (combine .add i j).Encloses (x + y) := by
  rw [Encloses, combine, value_add, value_add, value_add]
  exact between_round (Between.add hx hy)

theorem Encloses.sub (hx : i.Encloses x) (hy : j.Encloses y) :
    (combine .sub i j).Encloses (x - y) := by
  rw [Encloses, combine, value_sub, value_sub, value_sub]
  exact between_round (Between.add hx hy.neg)

theorem Encloses.mul (hx : i.Encloses x) (hy : j.Encloses y) (h : Cornered .mul i j) :
    (combine .mul i j).Encloses (x * y) := by
  have hcorners : (corners .mul i j).map value =
      (products (value i.lo) (value i.hi) (value j.lo) (value j.hi)).map (round α) := by
    simp only [corners, products, Operator.apply, List.map_cons, List.map_nil, value_mul]
  rw [Encloses, value_mul]
  exact between_hull hcorners (covers_products hx hy (exists_ne_undefined hcorners (h (.inl rfl))))

theorem Encloses.div (hx : i.Encloses x) (hy : j.Encloses y) (h : Cornered .div i j) :
    (combine .div i j).Encloses (x / y) := by
  cases hzero : j.containsZero with
  | true =>
      rw [Encloses, combine, if_pos hzero, whole, value_bottom, value_top]
      exact between_ends _
  | false =>
      have hcontains := hzero
      rw [containsZero_eq, ← Bool.not_eq_true] at hcontains
      have hvalue : value y ≠ number 0 := by
        intro hvalue
        rw [Encloses, hvalue, between_number, ← Bool.and_eq_true] at hy
        exact hcontains hy
      rw [Encloses, combine, hzero, if_neg Bool.false_ne_true, value_div x hvalue]
      by_cases hundefined : value y = undefined
      · intro hz
        rw [hundefined, inv, show undefined = ofSign 0 from rfl, mul_ofSign, mul_zero] at hz
        exact absurd round_undefined hz
      · obtain ⟨hlo, hhi⟩ := hy.ne_zero hundefined hcontains
        have hcorners : (corners .div i j).map value =
            (products (value i.lo) (value i.hi) (value j.lo).inv (value j.hi).inv).map
              (round α) := by
          simp only [corners, products, Operator.apply, List.map_cons, List.map_nil,
            value_div _ hlo, value_div _ hhi]
        have hdefined := exists_ne_undefined hcorners
          (h (.inr ⟨rfl, Bool.not_eq_true _ ▸ hzero⟩))
        exact between_hull hcorners (covers_quotients hx hy hcontains hdefined)

theorem Encloses.apply (op : Operator) (hx : i.Encloses x) (hy : j.Encloses y)
    (h : Cornered op i j) : (combine op i j).Encloses (op.apply x y) := by
  cases op with
  | add => exact hx.add hy
  | sub => exact hx.sub hy
  | mul => exact hx.mul hy h
  | div => exact hx.div hy h

end Interval

namespace Roll

theorem value_least (r : Roll) : value (r.least : α) = number r.count.val :=
  value_ofNat (r.count.lt.trans (by norm_num))

theorem value_greatest (r : Roll) :
    value (r.greatest : α) = round α (number (r.count.val * r.sides.val)) := by
  rw [greatest, value_mul, value_ofNat (r.count.lt.trans (by norm_num)),
    value_ofNat (r.sides.lt.trans (by norm_num))]
  rfl

theorem encloses_least (r : Roll) : Interval.Encloses ⟨r.least, r.greatest⟩ (r.least : α) := by
  have hle : (r.count.val : ℚ) ≤ r.count.val * r.sides.val := by
    exact_mod_cast Nat.le_mul_of_pos_right r.count.val r.sides.pos
  have hround := round_le (α := α) ((le_number _ _).2 hle)
  rw [round_natCast (r.count.lt.trans (by norm_num))] at hround
  rw [Interval.Encloses, value_greatest, value_least, between_number]
  exact ⟨le_self.2 nofun, hround⟩

end Roll

end DiceOdds
