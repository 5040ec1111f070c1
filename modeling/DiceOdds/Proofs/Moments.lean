import DiceOdds.Proofs.Averages
import DiceOdds.Proofs.Refusals
import Mathlib.Tactic.Linarith

namespace DiceOdds

open Extended

structure Moments where
  mean : ℚ
  variance : ℚ

structure HasMoments (xs : List Extended) (m : Moments) : Prop where
  mean : Scalar.mean xs = number m.mean
  variance : Scalar.variance xs = number m.variance

theorem HasMoments.unique {xs : List Extended} {m m' : Moments} (h : HasMoments xs m)
    (h' : HasMoments xs m') : m = m' := by
  obtain ⟨mean, variance⟩ := m
  obtain ⟨mean', variance'⟩ := m'
  obtain rfl : mean = mean' := number.inj (h.mean.symm.trans h'.mean)
  obtain rfl : variance = variance' := number.inj (h.variance.symm.trans h'.variance)
  rfl

/-- How the moments of what is independent make up those of its sum, difference or product. -/
inductive Operator.Joins : Operator → Moments → Moments → Moments → Prop
  | add (l r : Moments) : Joins .add l r ⟨l.mean + r.mean, l.variance + r.variance⟩
  | sub (l r : Moments) : Joins .sub l r ⟨l.mean - r.mean, l.variance + r.variance⟩
  | mul (l r : Moments) :
      Joins .mul l r ⟨l.mean * r.mean, l.variance * r.variance + l.variance * r.mean ^ 2 +
        r.variance * l.mean ^ 2⟩

def Moments.ofDice (count sides : ℕ) : Moments :=
  ⟨count * (sides + 1) / 2, count * (sides ^ 2 - 1) / 12⟩

/-- The second moment is kept about zero, where it is an average of products. -/
structure Spread (qs : List ℚ) (m : Moments) : Prop where
  nonempty : qs ≠ []
  mean : average qs = m.mean
  square : average (qs.map fun q => q * q) = m.variance + m.mean * m.mean

namespace Spread

variable {ps qs : List ℚ} {l r : Moments}

theorem hasMoments (h : Spread qs l) : HasMoments (qs.map number) l := by
  constructor
  · rw [mean_map_number h.nonempty, h.mean]
  · rw [variance_map_number h.nonempty, average_square_sub h.nonempty, h.square, h.mean,
      add_sub_cancel_right]

theorem product_ne_nil (hl : Spread ps l) (hr : Spread qs r) (f : ℚ × ℚ → ℚ) :
    (ps ×ˢ qs).map f ≠ [] := by
  rw [← List.length_pos_iff, List.length_map, List.length_product]
  exact Nat.mul_pos (List.length_pos_of_ne_nil hl.nonempty) (List.length_pos_of_ne_nil hr.nonempty)

/-- A sum and a difference. -/
theorem combination (hl : Spread ps l) (hr : Spread qs r) (c : ℚ) :
    Spread ((ps ×ˢ qs).map fun x => x.1 + c * x.2)
      ⟨l.mean + c * r.mean, l.variance + c * c * r.variance⟩ := by
  have hleft := average_product_left ps hr.nonempty
  have hright := average_product_right hl.nonempty qs
  have hmean : average ((ps ×ˢ qs).map fun x => x.1 * x.2) = l.mean * r.mean := by
    rw [← hl.mean, ← hr.mean]
    simpa using average_product ps qs id id
  constructor
  · exact product_ne_nil hl hr _
  · rw [average_map_add, average_map_mul_left, hleft fun p => p, hright fun q => q, List.map_id',
      List.map_id', hl.mean, hr.mean]
  · have hexpand : (fun q : ℚ => q * q) ∘ (fun x : ℚ × ℚ => x.1 + c * x.2) =
        fun x => x.1 * x.1 + (2 * c * (x.1 * x.2) + c * c * (x.2 * x.2)) := by
      funext x
      rw [Function.comp_apply]
      ring
    rw [List.map_map, hexpand, average_map_add, average_map_add, average_map_mul_left,
      average_map_mul_left, hmean, hleft fun p => p * p, hright fun q => q * q, hl.square,
        hr.square]
    ring

theorem mul (hl : Spread ps l) (hr : Spread qs r) :
    Spread ((ps ×ˢ qs).map fun x => x.1 * x.2)
      ⟨l.mean * r.mean, l.variance * r.variance + l.variance * r.mean ^ 2 +
        r.variance * l.mean ^ 2⟩ := by
  constructor
  · exact product_ne_nil hl hr _
  · rw [average_product ps qs (fun p => p) fun q => q, List.map_id', List.map_id', hl.mean, hr.mean]
  · have hexpand : (fun q : ℚ => q * q) ∘ (fun x : ℚ × ℚ => x.1 * x.2) =
        fun x => x.1 * x.1 * (x.2 * x.2) := by
      funext x
      rw [Function.comp_apply]
      ring
    rw [List.map_map, hexpand, average_product ps qs (fun p => p * p) fun q => q * q, hl.square,
      hr.square]
    ring

end Spread

theorem sum_range_succ (n : ℕ) :
    ((List.range n).map fun i => ((i + 1 : ℕ) : ℚ)).sum = n * (n + 1) / 2 := by
  induction n with
  | zero => simp
  | succ n ih =>
      rw [List.range_succ, List.map_append, List.sum_append, ih, List.map_singleton,
        List.sum_singleton]
      push_cast
      ring

theorem sum_range_succ_square (n : ℕ) :
    ((List.range n).map fun i => ((i + 1 : ℕ) : ℚ) * ((i + 1 : ℕ) : ℚ)).sum =
      n * (n + 1) * (2 * n + 1) / 6 := by
  induction n with
  | zero => simp
  | succ n ih =>
      rw [List.range_succ, List.map_append, List.sum_append, ih, List.map_singleton,
        List.sum_singleton]
      push_cast
      ring

namespace Enumeration

def Spreads (xs : List Extended) (m : Moments) : Prop := ∃ qs, qs.map number = xs ∧ Spread qs m

theorem spreads_faces (sides : Quantity) : Spreads (faces sides) (.ofDice 1 sides.val) := by
  have hsides : (sides.val : ℚ) ≠ 0 := Nat.cast_ne_zero.2 sides.pos.ne'
  refine ⟨(List.range sides.val).map fun i => ((i + 1 : ℕ) : ℚ), List.map_map, ?_, ?_, ?_⟩
  · simpa using sides.pos.ne'
  · rw [average, sum_range_succ, List.length_map, List.length_range, Moments.ofDice, Nat.cast_one]
    field_simp
  · rw [average, List.map_map, List.length_map, List.length_range]
    refine (congrArg (· / (sides.val : ℚ)) (sum_range_succ_square sides.val)).trans ?_
    simp only [Moments.ofDice]
    field_simp
    ring

theorem pairs_map_number {op : Operator} {f : ℚ → ℚ → ℚ}
    (h : ∀ p q, op.apply (number p) (number q) = number (f p q)) (ps qs : List ℚ) :
    pairs op (ps.map number) (qs.map number) = ((ps ×ˢ qs).map fun x => f x.1 x.2).map number := by
  simp only [pairs, List.flatMap_map, List.map_map, SProd.sprod, List.product, List.map_flatMap]
  congr 1
  funext p
  apply List.map_congr_left
  intro q _
  exact h p q

theorem exists_spreads_pairs {op : Operator} (hop : op ≠ .div) {xs ys : List Extended}
    {l r : Moments} (hl : Spreads xs l) (hr : Spreads ys r) :
    ∃ m, op.Joins l r m ∧ Spreads (pairs op xs ys) m := by
  obtain ⟨ps, rfl, hl⟩ := hl
  obtain ⟨qs, rfl, hr⟩ := hr
  cases op with
  | add =>
      refine ⟨_, .add l r, _, (pairs_map_number (fun p q => rfl) ps qs).symm, ?_⟩
      simpa only [one_mul] using hl.combination hr 1
  | sub =>
      have hsub (p q : ℚ) : Operator.sub.apply (number p) (number q) = number (p - q) :=
        number_sub p q
      refine ⟨_, .sub l r, _, (pairs_map_number hsub ps qs).symm, ?_⟩
      simpa only [neg_one_mul, neg_neg, one_mul, ← sub_eq_add_neg] using hl.combination hr (-1)
  | mul => exact ⟨_, .mul l r, _, (pairs_map_number (fun p q => rfl) ps qs).symm, hl.mul hr⟩
  | div => exact absurd rfl hop

theorem Gives.spreads_addDice {cap : Cap} {sides : Quantity} {n count : ℕ} {xs zs : List Extended}
    (h : Gives (addDice cap sides n xs) zs) (hxs : Spreads xs (.ofDice count sides.val)) :
    Spreads zs (.ofDice (count + n) sides.val) := by
  induction n generalizing count xs with
  | zero => exact h.of_pure ▸ hxs
  | succ n ih =>
      obtain ⟨ys, hys, h⟩ := h.of_bind
      obtain ⟨_, _, h⟩ := h.of_bind
      rw [← Nat.succ_add_eq_add_succ]
      apply ih h
      have hop : Operator.add ≠ .div := nofun
      obtain ⟨m, hm, hspreads⟩ := exists_spreads_pairs hop hxs (spreads_faces sides)
      rw [hys.of_combine]
      cases hm
      have hmoments : Moments.ofDice (count + 1) sides.val =
          ⟨(Moments.ofDice count sides.val).mean + (Moments.ofDice 1 sides.val).mean,
            (Moments.ofDice count sides.val).variance + (Moments.ofDice 1 sides.val).variance⟩ := by
        simp only [Moments.ofDice, Moments.mk.injEq]
        push_cast
        constructor <;> ring
      rwa [Nat.succ_eq_add_one, hmoments]

theorem Gives.spreads_roll {cap : Cap} {r : Roll} {zs : List Extended} (h : Gives (roll cap r) zs) :
    Spreads zs (.ofDice r.count.val r.sides.val) := by
  cases hr : r.isConstant with
  | true =>
      rw [roll, hr, if_pos rfl] at h
      have hsides : r.sides.val = 1 := by simpa [Roll.isConstant] using hr
      refine ⟨[(r.count.val : ℚ)], h.of_pure, List.cons_ne_nil _ _, ?_, ?_⟩
      all_goals
        simp only [average, Moments.ofDice, hsides, List.map_singleton, List.sum_singleton,
          List.length_singleton, Nat.cast_one]
        ring
  | false =>
      rw [roll, hr, if_neg Bool.false_ne_true] at h
      have hspreads := h.spreads_addDice (spreads_faces r.sides)
      rwa [Nat.add_sub_cancel' r.count.pos] at hspreads

theorem Gives.exists_spreads {cap : Cap} {e : Expr} (he : e.DivisionFree) {zs : List Extended}
    (h : Gives (walk cap e) zs) : ∃ m, Spreads zs m := by
  induction e generalizing zs with
  | roll r => exact ⟨_, Gives.spreads_roll h⟩
  | binary l op r ihl ihr =>
      obtain ⟨hl, hr, hop⟩ := he
      obtain ⟨xs, hxs, h⟩ := h.of_bind
      obtain ⟨ys, hys, h⟩ := h.of_bind
      obtain ⟨ml, hml⟩ := ihl hl hxs
      obtain ⟨mr, hmr⟩ := ihr hr hys
      obtain ⟨m, -, hm⟩ := exists_spreads_pairs hop hml hmr
      exact ⟨m, h.of_combine ▸ hm⟩

theorem Spreads.hasMoments {xs : List Extended} {m : Moments} (h : Spreads xs m) :
    HasMoments xs m := by
  obtain ⟨qs, rfl, hqs⟩ := h
  exact hqs.hasMoments

/-- In exact arithmetic the outcomes of an expression without division have the mean and the
variance of independent dice, each face as likely as any other: so at every roll, and at every
operator from what its operands have. -/
theorem outcomes_moments (e : Expr) (he : e.DivisionFree) (cap : Cap) (journal : Journal)
    (v : List Extended) (hv : ((outcomes cap e).run.run journal).1 = .ok v) :
    ∃ m, HasMoments v m ∧
      match e with
      | .roll r => m = .ofDice r.count.val r.sides.val
      | .binary l op r => ∃ xs ys ml mr,
        ((outcomes cap l).run.run journal).1 = .ok xs ∧ HasMoments xs ml ∧
        ((outcomes cap r).run.run journal).1 = .ok ys ∧ HasMoments ys mr ∧ op.Joins ml mr m := by
  cases e with
  | roll r =>
      have hroll : Gives (roll cap r) v := Gives.of_outcomes ⟨journal, hv⟩
      exact ⟨_, hroll.spreads_roll.hasMoments, rfl⟩
  | binary l op r =>
      obtain ⟨hl, hr, hop⟩ := he
      obtain ⟨hfits, rfl⟩ := outcomes_eq_ok_iff.1 hv
      rw [Expr.dice_binary, List.prod_append] at hfits
      have hxs : ((outcomes cap l).run.run journal).1 = .ok (l.table : List Extended) :=
        outcomes_eq_ok_iff.2 ⟨hfits.mono (Nat.le_mul_of_pos_right _ r.prod_dice_pos), rfl⟩
      have hys : ((outcomes cap r).run.run journal).1 = .ok (r.table : List Extended) :=
        outcomes_eq_ok_iff.2 ⟨hfits.mono (Nat.le_mul_of_pos_left _ l.prod_dice_pos), rfl⟩
      obtain ⟨ml, hml⟩ := Gives.exists_spreads hl (Gives.of_outcomes ⟨journal, hxs⟩)
      obtain ⟨mr, hmr⟩ := Gives.exists_spreads hr (Gives.of_outcomes ⟨journal, hys⟩)
      obtain ⟨m, hjoins, hm⟩ := exists_spreads_pairs hop hml hmr
      rw [pairs_table] at hm
      exact ⟨m, hm.hasMoments, _, _, ml, mr, hxs, hml.hasMoments, hys, hmr.hasMoments, hjoins⟩

/-- One die with two sides times one with three. -/
theorem outcomes_moments_product :
    let l : Expr := .roll ⟨.one, ⟨2, by decide, by decide⟩⟩
    let r : Expr := .roll ⟨.one, ⟨3, by decide, by decide⟩⟩
    ∃ v, ((outcomes (some 6) (.binary l .mul r)).run.run []).1 = .ok v ∧
      HasMoments v ⟨3, 8 / 3⟩ := by
  intro l r
  refine ⟨_, rfl, ?_⟩
  obtain ⟨m, hm, xs, ys, ml, mr, hxs, hml, hys, hmr, hjoins⟩ :=
    outcomes_moments (.binary l .mul r) ⟨trivial, trivial, nofun⟩ (some 6) [] _ rfl
  obtain ⟨_, hleft, rfl⟩ := outcomes_moments l trivial (some 6) [] xs hxs
  obtain ⟨_, hright, rfl⟩ := outcomes_moments r trivial (some 6) [] ys hys
  cases hjoins
  rw [hml.unique hleft, hmr.unique hright] at hm
  norm_num [Moments.ofDice, Quantity.one] at hm
  exact hm

end Enumeration

end DiceOdds
