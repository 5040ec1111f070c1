import DiceOdds.Proofs.Bins
import DiceOdds.Proofs.Refusals
import DiceOdds.Proofs.RoundTrip
import DiceOdds.Proofs.SampledOutcomes
import Mathlib.Data.Nat.Log

namespace DiceOdds

open Binary64 Extended

namespace Operator

variable {op : Operator} {x y : Float} {p q : ℚ} {m n : ℕ}

def DividesByZero : Operator → Float → Float → Prop
  | .div, _, y => value y = number 0
  | _, _, _ => False

def Overflows (op : Operator) (x y : Float) : Prop :=
  ∃ z, op.apply (value x) (value y) = number z ∧ limit ≤ |nearest z|

theorem value_apply (h : ¬ op.DividesByZero x y) :
    value (op.apply x y) = rounded (op.apply (value x) (value y)) := by
  cases op with
  | add => exact value_add x y
  | sub => exact value_sub x y
  | mul => exact value_mul x y
  | div => exact value_div x h

theorem exists_apply_number (h : op = .div → q ≠ 0) :
    ∃ z, op.apply (number p) (number q) = number z := by
  cases op with
  | add | sub | mul => exact ⟨_, rfl⟩
  | div => exact ⟨p * q⁻¹, congrArg (Extended.mul (number p)) (inv_number (h rfl))⟩

theorem numbers_of_apply (hop : op ≠ .div) {u v : Extended} {z : ℚ}
    (h : op.apply u v = number z) : (∃ p, u = number p) ∧ ∃ q, v = number q := by
  have hsum {u v : Extended} (h : Extended.add u v = number z) :
      (∃ p, u = number p) ∧ ∃ q, v = number q := by
    cases u <;> cases v <;> first | exact ⟨⟨_, rfl⟩, _, rfl⟩ | cases h
  cases op with
  | add => exact hsum h
  | sub =>
      obtain ⟨hu, q, hq⟩ := hsum (v := v.neg) h
      exact ⟨hu, _, neg_eq_iff.1 hq⟩
  | mul =>
      by_contra hends
      rw [not_and_or, not_exists, not_exists] at hends
      have hsign : ofSign (u.sign * v.sign) = number z := (mul_eq_ofSign hends).symm.trans h
      generalize u.sign * v.sign = s at hsign
      cases s <;> cases hsign
  | div => exact absurd rfl hop

/-- On finite operands an operator other than a division by zero only fails by overflow. -/
theorem isFinite_apply (hx : x.isFinite = true) (hy : y.isFinite = true)
    (hzero : ¬ op.DividesByZero x y) : (op.apply x y).isFinite = true ↔ ¬ op.Overflows x y := by
  obtain ⟨p, hp⟩ := (isFinite_iff x).1 hx
  obtain ⟨q, hq⟩ := (isFinite_iff y).1 hy
  obtain ⟨z, hz⟩ : ∃ z, op.apply (number p) (number q) = number z := by
    apply exists_apply_number
    rintro rfl rfl
    exact hzero hq
  rw [isFinite_iff, value_apply hzero, Overflows, hp, hq, hz]
  constructor
  · rintro ⟨r, hr⟩ ⟨w, hw, hlimit⟩
    obtain rfl := number.inj hw
    exact rounded_ne_number hlimit r hr
  · intro hlimit
    exact ⟨_, rounded_number (not_le.1 fun h => hlimit ⟨z, rfl, h⟩)⟩

theorem not_dividesByZero (hop : op ≠ .div) : ¬ op.DividesByZero x y := by
  cases op with
  | add | sub | mul => exact id
  | div => exact absurd rfl hop

theorem isFinite_of_apply (hop : op ≠ .div) (h : (op.apply x y).isFinite = true) :
    x.isFinite = true ∧ y.isFinite = true := by
  obtain ⟨r, hr⟩ := (isFinite_iff _).1 h
  rw [value_apply (not_dividesByZero hop)] at hr
  obtain ⟨z, hz⟩ := exists_number_of_rounded hr
  obtain ⟨hp, hq⟩ := numbers_of_apply hop hz
  exact ⟨(isFinite_iff x).2 hp, (isFinite_iff y).2 hq⟩

/-- Results of operands below so many binary digits; a quotient has no such bound. -/
def magnitude (op : Operator) (m n : ℕ) : ℕ :=
  if op.isMultiplicative then m + n else max m n + 1

theorem le_magnitude (op : Operator) (m n : ℕ) : m ≤ op.magnitude m n ∧ n ≤ op.magnitude m n := by
  rw [magnitude]
  split_ifs <;> omega

theorem abs_apply_le (hop : op ≠ .div) (hp : |p| ≤ 2 ^ m) (hq : |q| ≤ 2 ^ n) :
    ∃ z, op.apply (number p) (number q) = number z ∧ |z| ≤ 2 ^ op.magnitude m n := by
  have hsum {q : ℚ} (hq : |q| ≤ 2 ^ n) : |p + q| ≤ 2 ^ (max m n + 1) := by
    have hm : (2 : ℚ) ^ m ≤ 2 ^ max m n := pow_le_pow_right₀ (by norm_num) (le_max_left m n)
    have hn : (2 : ℚ) ^ n ≤ 2 ^ max m n := pow_le_pow_right₀ (by norm_num) (le_max_right m n)
    calc |p + q| ≤ |p| + |q| := abs_add_le p q
      _ ≤ 2 ^ max m n + 2 ^ max m n := add_le_add (hp.trans hm) (hq.trans hn)
      _ = 2 ^ (max m n + 1) := by rw [pow_succ, mul_two]
  cases op with
  | add => exact ⟨_, rfl, hsum hq⟩
  | sub => exact ⟨_, rfl, hsum (abs_neg q ▸ hq)⟩
  | mul =>
      refine ⟨_, rfl, ?_⟩
      rw [abs_mul]
      exact (mul_le_mul hp hq (abs_nonneg q) (by positivity)).trans_eq (pow_add 2 m n).symm
  | div => exact absurd rfl hop

end Operator

namespace Roll

def magnitude (r : Roll) : ℕ := Nat.clog 2 r.count.val + Nat.clog 2 r.sides.val

def Within (r : Roll) (x : Float) : Prop := ∃ q, value x = number q ∧ |q| ≤ 2 ^ r.magnitude

theorem count_le (r : Roll) : (r.count.val : ℚ) ≤ 2 ^ Nat.clog 2 r.count.val := by
  exact_mod_cast Nat.le_pow_clog (by norm_num) r.count.val

theorem within_least (r : Roll) : r.Within r.least := by
  have hmagnitude : (2 : ℚ) ^ Nat.clog 2 r.count.val ≤ 2 ^ r.magnitude :=
    pow_le_pow_right₀ (by norm_num) (Nat.le_add_right _ _)
  have hvalue : Rounded.value (r.least : Float) = number r.count.val := value_least r
  refine ⟨r.count.val, hvalue, ?_⟩
  rw [Nat.abs_cast]
  exact r.count_le.trans hmagnitude

def AtMost (k s : ℕ) (x : Float) : Prop := ∃ q, value x = number q ∧ 0 ≤ q ∧ q ≤ k * 2 ^ s

theorem AtMost.add_face {k s f : ℕ} {x : Float} (h : AtMost k s x) (hs : s ≤ 32) (hf : f ≤ 2 ^ s)
    (hk : k + 1 < 2 ^ 53) : AtMost (k + 1) s (x + Scalar.ofNat f) := by
  obtain ⟨q, hq, hnonneg, hle⟩ := h
  have hs' : 2 ^ s ≤ 2 ^ 32 := Nat.pow_le_pow_right (by norm_num) hs
  have hface : value (Scalar.ofNat f) = number f := value_ofNat (by omega)
  have hsum : q + f ≤ (k + 1 : ℕ) * 2 ^ s := by
    have hf' : (f : ℚ) ≤ 2 ^ s := by exact_mod_cast hf
    push_cast
    linarith
  have hkept : nearest ((k + 1 : ℕ) * 2 ^ s) = (k + 1 : ℕ) * 2 ^ s := by
    exact_mod_cast nearest_mul_zpow hk (e := s) (by omega)
  have hnearest := nearest_mono hsum
  rw [hkept] at hnearest
  have hnonneg := nearest_nonneg (add_nonneg hnonneg f.cast_nonneg)
  have hbits : ((k + 1 : ℕ) : ℚ) * 2 ^ s ≤ 2 ^ 85 := by
    exact_mod_cast Nat.mul_le_mul hk.le hs'
  refine ⟨nearest (q + f), ?_, hnonneg, hnearest⟩
  rw [value_add, hq, hface]
  apply rounded_number
  rw [abs_of_nonneg hnonneg]
  exact (hnearest.trans hbits).trans_lt (two_pow_lt_limit (by norm_num))

theorem atMost_sum {s : ℕ} (hs : s ≤ 32) {fs : List ℕ} (hfs : ∀ f ∈ fs, f ≤ 2 ^ s)
    (hlength : fs.length < 2 ^ 53) : AtMost fs.length s (Scalar.sum (fs.map Scalar.ofNat)) := by
  induction fs using List.reverseRecOn with
  | nil => exact ⟨0, by decide +kernel, le_rfl, by simp⟩
  | append_singleton fs f ih =>
      obtain ⟨hfs, hf⟩ := List.forall_mem_append.1 hfs
      rw [List.length_append, List.length_singleton] at hlength ⊢
      -- faces are added from the left, so that the last one is added to the sum of the others
      rw [List.map_append, Scalar.sum, List.foldl_append]
      exact (ih hfs (by omega)).add_face hs (hf f (List.mem_singleton_self f)) hlength

theorem face_le {n sides : ℕ} {fs : List ℕ}
    (h : List.Forall₂ IsFace (List.replicate n sides) fs) : ∀ f ∈ fs, f ≤ sides := by
  induction n generalizing fs with
  | zero =>
      cases h
      nofun
  | succ n ih =>
      cases h with
      | cons hf h => exact List.forall_mem_cons.2 ⟨hf.2, ih h⟩

theorem within_faceSum {r : Roll} {fs : List ℕ} (h : List.Forall₂ IsFace r.dice fs) :
    r.Within (faceSum fs) := by
  have hlength : fs.length = r.count.val := by rw [← h.length_eq, length_dice]
  have hfaces : ∀ f ∈ fs, f ≤ 2 ^ Nat.clog 2 r.sides.val := fun f hf =>
    (face_le h f hf).trans (Nat.le_pow_clog (by norm_num) _)
  have hsides : Nat.clog 2 r.sides.val ≤ 32 := Nat.clog_le_of_le_pow r.sides.lt.le
  have hcount : fs.length < 2 ^ 53 := hlength ▸ r.count.lt.trans (by norm_num)
  obtain ⟨q, hq, hnonneg, hle⟩ := atMost_sum hsides hfaces hcount
  rw [sum_eq_faceSum neutral_add] at hq
  refine ⟨q, hq, ?_⟩
  rw [abs_of_nonneg hnonneg, magnitude, pow_add]
  rw [hlength] at hle
  exact hle.trans (mul_le_mul_of_nonneg_right r.count_le (by positivity))

theorem within_totals {rs : List Roll} {fs : List ℕ}
    (h : List.Forall₂ IsFace (rs.flatMap dice) fs) : List.Forall₂ Within rs (totals rs fs) := by
  induction rs generalizing fs with
  | nil => exact .nil
  | cons r rs ih =>
      rw [List.flatMap_cons] at h
      have htake := (List.forall₂_take_append _ _ _ h.flip).flip
      have hdrop := (List.forall₂_drop_append _ _ _ h.flip).flip
      rw [length_dice] at htake hdrop
      exact .cons (within_faceSum htake) (ih hdrop)

end Roll

namespace Expr

/-- Whether an operator of an expression meets such operands, its rolls coming to these totals. -/
def Meets (p : Operator → Float → Float → Prop) : Expr → List Float → Prop
  | .roll _, _ => False
  | .binary l op r, totals =>
    l.Meets p (totals.take l.rolls.length) ∨ r.Meets p (totals.drop l.rolls.length) ∨
      p op (l.value (totals.take l.rolls.length)) (r.value (totals.drop l.rolls.length))

def magnitude : Expr → ℕ
  | .roll r => r.magnitude
  | .binary l op r => op.magnitude l.magnitude r.magnitude

variable {l r e : Expr} {op : Operator} {totals : List Float}

theorem within_value_roll {r : Roll} (h : List.Forall₂ Roll.Within (roll r).rolls totals) :
    r.Within ((roll r).value totals) := by
  cases hr : r.isConstant with
  | true =>
      rw [value, hr, if_pos rfl]
      exact r.within_least
  | false =>
      rw [rolls_roll hr] at h
      rw [value, hr, if_neg Bool.false_ne_true]
      cases h with
      | cons hx _ => exact hx

theorem within_binary (h : List.Forall₂ Roll.Within (binary l op r).rolls totals) :
    List.Forall₂ Roll.Within l.rolls (totals.take l.rolls.length) ∧
      List.Forall₂ Roll.Within r.rolls (totals.drop l.rolls.length) := by
  rw [rolls_binary] at h
  exact ⟨(List.forall₂_take_append _ _ _ h.flip).flip, (List.forall₂_drop_append _ _ _ h.flip).flip⟩

theorem isFinite_value (h : List.Forall₂ Roll.Within e.rolls totals)
    (hzero : ¬ e.Meets Operator.DividesByZero totals)
    (hoverflow : ¬ e.Meets Operator.Overflows totals) : (e.value totals).isFinite = true := by
  induction e generalizing totals with
  | roll r =>
      obtain ⟨q, hq, -⟩ := within_value_roll h
      exact isFinite_of_value hq
  | binary l op r ihl ihr =>
      obtain ⟨hl, hr⟩ := within_binary h
      simp only [Meets, not_or] at hzero hoverflow
      obtain ⟨hzerol, hzeror, hzero⟩ := hzero
      obtain ⟨hoverflowl, hoverflowr, hoverflow⟩ := hoverflow
      exact (Operator.isFinite_apply (ihl hl hzerol hoverflowl) (ihr hr hzeror hoverflowr) hzero).2
        hoverflow

theorem not_meets_dividesByZero (he : e.DivisionFree) (totals : List Float) :
    ¬ e.Meets Operator.DividesByZero totals := by
  induction e generalizing totals with
  | roll r => exact id
  | binary l op r ihl ihr =>
      obtain ⟨hl, hr, hop⟩ := he
      rintro (hmeets | hmeets | hmeets)
      · exact ihl hl _ hmeets
      · exact ihr hr _ hmeets
      · exact Operator.not_dividesByZero hop hmeets

/-- Without division, what is not finite is never left behind. -/
theorem not_meets_overflows (he : e.DivisionFree) (h : (e.value totals).isFinite = true) :
    ¬ e.Meets Operator.Overflows totals := by
  induction e generalizing totals with
  | roll r => exact id
  | binary l op r ihl ihr =>
      obtain ⟨hl, hr, hop⟩ := he
      obtain ⟨hx, hy⟩ := Operator.isFinite_of_apply hop h
      rintro (hmeets | hmeets | hmeets)
      · exact ihl hl hx hmeets
      · exact ihr hr hy hmeets
      · exact (Operator.isFinite_apply hx hy (Operator.not_dividesByZero hop)).1 h hmeets

theorem abs_value_le (he : e.DivisionFree) (h : List.Forall₂ Roll.Within e.rolls totals)
    (hmagnitude : e.magnitude < 1024) :
    ∃ q, Binary64.value (e.value totals) = number q ∧ |q| ≤ 2 ^ e.magnitude := by
  induction e generalizing totals with
  | roll r => exact within_value_roll h
  | binary l op r ihl ihr =>
      obtain ⟨hl, hr, hop⟩ := he
      obtain ⟨hwithinl, hwithinr⟩ := within_binary h
      obtain ⟨hlel, hler⟩ := op.le_magnitude l.magnitude r.magnitude
      obtain ⟨p, hp, hple⟩ := ihl hl hwithinl (hlel.trans_lt hmagnitude)
      obtain ⟨q, hq, hqle⟩ := ihr hr hwithinr (hler.trans_lt hmagnitude)
      obtain ⟨z, hz, hzle⟩ := Operator.abs_apply_le hop hple hqle
      refine ⟨nearest z, ?_, abs_nearest_le hzle⟩
      rw [value, Operator.value_apply (Operator.not_dividesByZero hop), hp, hq, hz]
      exact rounded_of_abs_le hmagnitude hzle

def NeverOverflows (e : Expr) : Prop :=
  ∀ fs, List.Forall₂ IsFace e.dice fs → ¬ e.Meets Operator.Overflows (Roll.totals e.rolls fs)

theorem isFinite_iff_not_overflows (he : e.DivisionFree) {fs : List ℕ}
    (h : List.Forall₂ IsFace e.dice fs) :
    (e.value (Roll.totals e.rolls fs) : Float).isFinite = true ↔
      ¬ e.Meets Operator.Overflows (Roll.totals e.rolls fs) :=
  ⟨not_meets_overflows he,
    isFinite_value (Roll.within_totals h) (not_meets_dividesByZero he _)⟩

theorem neverOverflows_of_magnitude (he : e.DivisionFree) (h : e.magnitude < 1024) :
    e.NeverOverflows := by
  intro fs hfs
  obtain ⟨q, hq, -⟩ := abs_value_le he (Roll.within_totals hfs) h
  exact (isFinite_iff_not_overflows he hfs).1 (isFinite_of_value hq)

/-- What is computed is finite unless an operator divides by zero or overflows. Without division
the finite results are exactly those without overflow, so that a summary counts none that are not
finite exactly where nothing can overflow; that no magnitude reaches the limit is enough. -/
theorem nonFinite_causes (e : Expr) :
    (∀ fs, List.Forall₂ IsFace e.dice fs →
      (e.value (Roll.totals e.rolls fs) : Float).isFinite = false →
      e.Meets Operator.DividesByZero (Roll.totals e.rolls fs) ∨
        e.Meets Operator.Overflows (Roll.totals e.rolls fs)) ∧
    (e.DivisionFree →
      (∀ fs, List.Forall₂ IsFace e.dice fs →
        ((e.value (Roll.totals e.rolls fs) : Float).isFinite = true ↔
          ¬ e.Meets Operator.Overflows (Roll.totals e.rolls fs))) ∧
      (∀ (cap : Cap) (journal : Journal) (v : List Float) (w : Weighting),
        ((Enumeration.outcomes cap e).run.run journal).1 = .ok v →
        ((Summary.ofOutcomes w v).nonFinite = 0 ↔ e.NeverOverflows)) ∧
      (e.NeverOverflows → ∀ {m : Type → Type} [Monad m] [LawfulMonad m] (next : m UInt32)
        (attempts n : ℕ) (journal : Journal) (w : Weighting),
        Ensures ((Sampling.samples (Sampling.uniform next attempts) e n).run journal).run fun r =>
          ∀ drawn ∈ r, (Summary.ofOutcomes w drawn.1).nonFinite = 0) ∧
      (e.magnitude < 1024 → e.NeverOverflows)) := by
  refine ⟨?_, fun he => ⟨fun fs hfs => isFinite_iff_not_overflows he hfs, ?_, ?_,
    neverOverflows_of_magnitude he⟩⟩
  · intro fs hfs hnot
    by_contra hcauses
    obtain ⟨hzero, hoverflow⟩ := not_or.1 hcauses
    rw [isFinite_value (Roll.within_totals hfs) hzero hoverflow] at hnot
    cases hnot
  · intro cap journal v w hv
    obtain ⟨-, rfl⟩ := Enumeration.outcomes_eq_ok_iff.1 hv
    rw [Summary.nonFinite_eq_zero]
    constructor
    · intro hfinite fs hfs
      exact (isFinite_iff_not_overflows he hfs).1
        (hfinite _ (Enumeration.mem_table.2 ⟨fs, hfs, rfl⟩))
    · intro hnever x hx
      obtain ⟨fs, hfs, rfl⟩ := Enumeration.mem_table.1 hx
      exact (isFinite_iff_not_overflows he hfs).2 (hnever fs hfs)
  · intro hnever m _ _ next attempts n journal w
    have hone := (Sampling.ensures_one next attempts neutral_add e).mono
      fun x ⟨fs, hfs, hx⟩ => show x.isFinite = true from
        hx ▸ (isFinite_iff_not_overflows he hfs).2 (hnever fs hfs)
    apply Ensures.run_option
    rw [Sampling.run_samples]
    exact (Sampling.ensures_draws hone n).map fun xs hxs => Summary.nonFinite_eq_zero.2 hxs.2

/-- One divided by nothing, and a product of two dice. -/
theorem nonFinite_causes_quotient :
    let one : Expr := .roll (.constant .one)
    let quotient : Expr := .binary one .div (.binary one .sub one)
    let product : Expr := .binary (.roll ⟨.one, ⟨2, by decide, by decide⟩⟩) .mul
      (.roll ⟨.one, ⟨3, by decide, by decide⟩⟩)
    (quotient.value (Roll.totals quotient.rolls []) : Float).isFinite = false ∧
    (quotient.Meets Operator.DividesByZero (Roll.totals quotient.rolls []) ∨
      quotient.Meets Operator.Overflows (Roll.totals quotient.rolls [])) ∧
    ∃ v : List Float, ((Enumeration.outcomes none product).run.run []).1 = .ok v ∧
      (Summary.ofOutcomes .equal v).nonFinite = 0 := by
  intro one quotient product
  have hinfinite : (quotient.value (Roll.totals quotient.rolls []) : Float).isFinite = false := by
    decide +kernel
  refine ⟨hinfinite, (nonFinite_causes quotient).1 [] .nil hinfinite, _, rfl, ?_⟩
  obtain ⟨-, hlisted, -, hnever⟩ := (nonFinite_causes product).2 ⟨trivial, trivial, nofun⟩
  exact (hlisted none [] _ .equal rfl).2 (hnever (by decide +kernel))

def power : ℕ → Expr
  | 0 => .roll (.constant ⟨0xffffffff, by decide, by decide⟩)
  | n + 1 => .binary (power n) .mul (.roll (.constant ⟨0xffffffff, by decide, by decide⟩))

theorem divisionFree_power (n : ℕ) : (power n).DivisionFree := by
  induction n with
  | zero => trivial
  | succ n ih => exact ⟨ih, trivial, nofun⟩

/-- A product may overflow, and what is then multiplied by zero is no number at all. -/
theorem not_forall_meets_dividesByZero :
    ¬ ∀ (text : String) (e : Expr) (fs : List ℕ), Grammar.parse text = .ok e →
      List.Forall₂ IsFace e.dice fs →
      (e.value (Roll.totals e.rolls fs) : Float).isFinite = false →
      e.Meets Operator.DividesByZero (Roll.totals e.rolls fs) := by
  intro h
  let one : Expr := .roll (.constant .one)
  let e : Expr := .binary (power 32) .mul (.binary one .sub one)
  have hfree : e.DivisionFree := ⟨divisionFree_power 32, ⟨trivial, trivial, nofun⟩, nofun⟩
  have hparse : Grammar.parse e.text = .ok e := by
    apply (Grammar.derives_compact e).parse_eq_ok_iff.2
    rw [Grammar.nesting_text]
    decide +kernel
  have hdice : List.Forall₂ IsFace e.dice [] := .nil
  have hundefined : (e.value (Roll.totals e.rolls []) : Float).isFinite = false := by
    decide +kernel
  exact not_meets_dividesByZero hfree _ (h e.text e [] hparse hdice hundefined)

end Expr

end DiceOdds
