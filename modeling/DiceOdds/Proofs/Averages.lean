import DiceOdds.Proofs.Extended
import Mathlib.Algebra.BigOperators.Ring.List
import Mathlib.Data.List.ProdSigma
import Mathlib.Tactic.FieldSimp
import Mathlib.Tactic.Ring

namespace DiceOdds

open Extended

def average (qs : List ℚ) : ℚ := qs.sum / qs.length

section

variable {ι : Type} {xs : List ι}

theorem average_map_add (xs : List ι) (f g : ι → ℚ) :
    average (xs.map fun x => f x + g x) = average (xs.map f) + average (xs.map g) := by
  simp only [average, List.sum_map_add, List.length_map, add_div]

theorem average_map_mul_left (xs : List ι) (c : ℚ) (f : ι → ℚ) :
    average (xs.map fun x => c * f x) = c * average (xs.map f) := by
  simp only [average, List.sum_map_mul_left, List.length_map, mul_div_assoc]

theorem average_map_const (h : xs ≠ []) (c : ℚ) : average (xs.map fun _ => c) = c := by
  have hlength : (xs.length : ℚ) ≠ 0 := Nat.cast_ne_zero.2 (List.length_pos_of_ne_nil h).ne'
  simp only [average, List.map_const', List.sum_replicate, List.length_replicate, nsmul_eq_mul]
  exact mul_div_cancel_left₀ c hlength

/-- Where every number of one list is paired with every number of another, neither list tells
anything of the other. -/
theorem average_product (ps qs : List ℚ) (f g : ℚ → ℚ) :
    average ((ps ×ˢ qs).map fun x => f x.1 * g x.2) = average (ps.map f) * average (qs.map g) := by
  have hsum : ((ps ×ˢ qs).map fun x => f x.1 * g x.2).sum = (ps.map f).sum * (qs.map g).sum := by
    induction ps with
    | nil => simp
    | cons p ps ih =>
        rw [List.product_cons, List.map_append, List.sum_append, ih, List.map_map, List.map_cons,
          List.sum_cons, add_mul, ← List.sum_map_mul_left qs g (f p)]
        rfl
  rw [average, average, average, hsum, List.length_map, List.length_map, List.length_map,
    List.length_product, Nat.cast_mul, mul_div_mul_comm]

theorem average_product_left (ps : List ℚ) {qs : List ℚ} (hqs : qs ≠ []) (f : ℚ → ℚ) :
    average ((ps ×ˢ qs).map fun x => f x.1) = average (ps.map f) := by
  have h := average_product ps qs f fun _ => 1
  simpa only [mul_one, average_map_const hqs] using h

theorem average_product_right {ps : List ℚ} (hps : ps ≠ []) (qs : List ℚ) (g : ℚ → ℚ) :
    average ((ps ×ˢ qs).map fun x => g x.2) = average (qs.map g) := by
  have h := average_product ps qs (fun _ => 1) g
  simpa only [one_mul, average_map_const hps] using h

/-- The mean square distance from the mean is the mean square less the square of the mean. -/
theorem average_square_sub {qs : List ℚ} (h : qs ≠ []) :
    average (qs.map fun q => (q - average qs) * (q - average qs)) =
      average (qs.map fun q => q * q) - average qs * average qs := by
  have hexpand : (fun q => (q - average qs) * (q - average qs)) =
      fun q => q * q + (-(2 * average qs) * q + average qs * average qs) := by
    funext q
    ring
  rw [hexpand, average_map_add, average_map_add, average_map_mul_left, average_map_const h,
    List.map_id']
  ring

end

theorem foldl_map_number (p : ℚ) (qs : List ℚ) :
    (qs.map number).foldl (· + ·) (number p) = number (p + qs.sum) := by
  induction qs generalizing p with
  | nil => simp
  | cons q qs ih =>
      rw [List.map_cons, List.foldl_cons, List.sum_cons, ← add_assoc]
      exact ih (p + q)

theorem sum_map_number (qs : List ℚ) : Scalar.sum (qs.map number) = number qs.sum := by
  rw [Scalar.sum, ← zero_add qs.sum]
  exact foldl_map_number 0 qs

theorem number_div {p q : ℚ} (hq : q ≠ 0) : number p / number q = number (p / q) := by
  rw [div_eq_mul_inv p q, ← show mul (number p) (number q⁻¹) = number (p * q⁻¹) from rfl,
    ← inv_number hq]
  rfl

theorem mean_map_number {qs : List ℚ} (h : qs ≠ []) :
    Scalar.mean (qs.map number) = number (average qs) := by
  rw [Scalar.mean, sum_map_number, List.length_map]
  exact number_div (Nat.cast_ne_zero.2 (List.length_pos_of_ne_nil h).ne')

theorem number_sub (p q : ℚ) : number p - number q = number (p - q) := by
  rw [sub_eq_add_neg]
  rfl

theorem variance_map_number {qs : List ℚ} (h : qs ≠ []) :
    Scalar.variance (qs.map number) =
      number (average (qs.map fun q => (q - average qs) * (q - average qs))) := by
  have hsquares : (qs.map fun q => (q - average qs) * (q - average qs)) ≠ [] := by simpa using h
  rw [Scalar.variance, mean_map_number h, List.map_map, ← mean_map_number hsquares, List.map_map]
  congr 2
  funext q
  rw [Function.comp_apply, number_sub]
  rfl

end DiceOdds
