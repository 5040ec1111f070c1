import DiceOdds.Proofs.Refusals
import DiceOdds.Proofs.SampledOutcomes

namespace DiceOdds

open Extended Rounded MixedRadix

inductive Pool (sides : Quantity) : Expr → ℕ → Prop
  | roll (count : Quantity) : Pool sides (.roll ⟨count, sides⟩) count.val
  | add {l r : Expr} {m n : ℕ} :
      Pool sides l m → Pool sides r n → Pool sides (.binary l .add r) (m + n)

def Expr.singles (sides : Quantity) : ℕ → Expr
  | 0 => .roll ⟨.one, sides⟩
  | n + 1 => .binary (singles sides n) .add (.roll ⟨.one, sides⟩)

namespace Pool

variable {sides : Quantity} {e e' : Expr} {n : ℕ}

theorem singles (sides : Quantity) (n : ℕ) : Pool sides (Expr.singles sides n) (n + 1) := by
  induction n with
  | zero => exact .roll .one
  | succ n ih => exact .add ih (.roll .one)

theorem pos (h : Pool sides e n) : 0 < n := by
  induction h with
  | roll count => exact count.pos
  | add _ _ ihl _ => exact Nat.add_pos_left ihl _

theorem rolls_eq_nil (h : Pool sides e n) (hsides : sides.val = 1) : e.rolls = [] := by
  induction h with
  | roll count => exact Expr.rolls_constant (beq_iff_eq.2 hsides)
  | add _ _ ihl ihr => rw [Expr.rolls_binary, ihl, ihr, List.append_nil]

theorem dice_eq (h : Pool sides e n) (hsides : sides.val ≠ 1) :
    e.dice = List.replicate n sides.val := by
  induction h with
  | roll count =>
      rw [Expr.dice, Expr.rolls_roll (beq_eq_false_iff_ne.2 hsides), List.flatMap_singleton,
        Roll.dice]
  | add _ _ ihl ihr => rw [Expr.dice_binary, ihl, ihr, List.replicate_append_replicate]

section Values

variable {α : Type} [ExtendedScalar α] [Rounded α]

theorem value_constant (h : Pool sides e n) (hsides : sides.val = 1) (hn : n < 2 ^ 53) :
    value (e.value [] : α) = number n := by
  induction h with
  | roll count =>
      have hconstant : Roll.isConstant ⟨count, sides⟩ = true := beq_iff_eq.2 hsides
      rw [Expr.value, hconstant, if_pos rfl]
      exact Roll.value_least _
  | @add l r m k hl hr ihl ihr =>
      have hrolls : ([] : List α).length = l.rolls.length := by rw [hl.rolls_eq_nil hsides]; rfl
      have happend := Expr.value_binary_append l .add r hrolls ([] : List α)
      rw [List.append_nil] at happend
      rw [happend]
      exact Enumeration.value_add_natCast (ihl (by omega)) (ihr (by omega)) hn

/-- However the dice are grouped, what they show is added up without rounding. -/
theorem value_totals (h : Pool sides e n) (hsides : sides.val ≠ 1) {fs : List ℕ}
    (hlength : fs.length = n) (hsum : fs.sum < 2 ^ 53) :
    value (e.value (Roll.totals e.rolls fs) : α) = number fs.sum := by
  induction h generalizing fs with
  | roll count =>
      have hconstant : Roll.isConstant ⟨count, sides⟩ = false := beq_eq_false_iff_ne.2 hsides
      have hne : fs ≠ [] := by
        rintro rfl
        exact absurd hlength count.pos.ne
      rw [Expr.rolls_roll hconstant, Expr.value, hconstant, if_neg Bool.false_ne_true, Roll.totals,
        List.take_of_length_le hlength.le, List.headD_cons]
      exact Roll.value_faceSum hne hsum
  | @add l r m k hl hr ihl ihr =>
      obtain ⟨fs, gs, rfl, hfs⟩ : ∃ fs' gs, fs = fs' ++ gs ∧ fs'.length = m :=
        ⟨fs.take m, fs.drop m, (List.take_append_drop m fs).symm, by simp; omega⟩
      rw [List.length_append] at hlength
      rw [List.sum_append] at hsum ⊢
      have hdice : fs.length = (l.rolls.flatMap Roll.dice).length := by
        rw [show l.rolls.flatMap Roll.dice = l.dice from rfl, hl.dice_eq hsides,
          List.length_replicate, hfs]
      rw [Expr.rolls_binary, Roll.totals_append _ _ hdice,
        Expr.value_binary_append l .add r (Roll.length_totals _ _)]
      exact Enumeration.value_add_natCast (ihl hfs (by omega)) (ihr (by omega) (by omega)) hsum

end Values

theorem sum_lt (hsides : sides.val ≠ 1) {cap : Cap} (h : cap.Fits (sides.val ^ n)) {fs : List ℕ}
    (hfs : List.Forall₂ IsFace (List.replicate n sides.val) fs) : fs.sum < 2 ^ 53 := by
  have htwo : 2 ≤ sides.val := by have := sides.pos; omega
  have hfew : n < 64 := by
    have hpow : 2 ^ n < 2 ^ 64 := (Nat.pow_le_pow_left htwo n).trans_lt h.1
    exact (Nat.pow_lt_pow_iff_right (by decide)).1 hpow
  have hsum := (sum_faces hfs).2
  rw [List.sum_replicate, smul_eq_mul] at hsum
  calc fs.sum ≤ n * sides.val := hsum
    _ ≤ 64 * 0x100000000 := Nat.mul_le_mul hfew.le sides.lt.le
    _ < 2 ^ 53 := by norm_num

theorem eq_of_value_eq_natCast {x y : Float} {k : ℕ} (hk : 0 < k) (hx : value x = number k)
    (hy : value y = number k) : x = y :=
  Binary64.eq_of_value_eq (Nat.cast_ne_zero.2 hk.ne') hx hy

/-- What the dice show is all that counts, and neither sum of it is rounded. -/
theorem table_eq (h : Pool sides e n) (h' : Pool sides e' n) (hn : n < 2 ^ 53) {cap : Cap}
    (hfits : cap.Fits e.dice.prod) : (e.table : List Float) = e'.table := by
  by_cases hsides : sides.val = 1
  · have hvalue : (e.value [] : Float) = e'.value [] :=
      eq_of_value_eq_natCast h.pos (h.value_constant hsides hn) (h'.value_constant hsides hn)
    simp only [Expr.table, Expr.dice, h.rolls_eq_nil hsides, h'.rolls_eq_nil hsides,
      List.flatMap_nil, tabulate_nil, Roll.totals, hvalue]
  · rw [h.dice_eq hsides, List.prod_replicate] at hfits
    rw [Expr.table, Expr.table, h.dice_eq hsides, h'.dice_eq hsides]
    apply tabulate_congr_of_lt
    intro ds hds
    have hfaces := Enumeration.faces_of_digits hds
    have hlength : (ds.map Nat.succ).length = n := by
      rw [← hfaces.length_eq, List.length_replicate]
    have hsum := sum_lt hsides hfits hfaces
    have hpos : 0 < (ds.map Nat.succ).sum := by
      have hle := (sum_faces hfaces).1
      rw [List.length_replicate] at hle
      exact h.pos.trans_le hle
    exact eq_of_value_eq_natCast hpos (h.value_totals hsides hlength hsum)
      (h'.value_totals hsides hlength hsum)

theorem run_outcomes_eq (h : Pool sides e n) (h' : Pool sides e' n) (hn : n < 2 ^ 53) (cap : Cap)
    (journal : Journal) :
    ((Enumeration.outcomes cap e : Enumeration (List Float)).run.run journal).1 =
      ((Enumeration.outcomes cap e').run.run journal).1 := by
  apply Enumeration.run_outcomes_congr
  · by_cases hsides : sides.val = 1
    · rw [Expr.dice, Expr.dice, h.rolls_eq_nil hsides, h'.rolls_eq_nil hsides]
    · rw [h.dice_eq hsides, h'.dice_eq hsides]
  · exact fun hfits => h.table_eq h' hn hfits

end Pool

/-- Dice with the same number of sides are refused or listed alike, outcome by outcome, whether
they are rolled together, in two rolls, or one after another. -/
theorem Enumeration.outcomes_pool (sides : Quantity) (cap : Cap) (journal : Journal) :
    let result (e : Expr) : Except Overflow (List Float) := ((outcomes cap e).run.run journal).1
    (∀ a b c : Quantity, a.val + b.val = c.val →
      result (.binary (.roll ⟨a, sides⟩) .add (.roll ⟨b, sides⟩)) = result (.roll ⟨c, sides⟩)) ∧
    ∀ c : Quantity, result (Expr.singles sides (c.val - 1)) = result (.roll ⟨c, sides⟩) := by
  have hlt (c : Quantity) : c.val < 2 ^ 53 := c.lt.trans (by norm_num)
  constructor
  · intro a b c hc
    have hpool : Pool sides (.binary (.roll ⟨a, sides⟩) .add (.roll ⟨b, sides⟩)) c.val :=
      hc ▸ .add (.roll a) (.roll b)
    exact hpool.run_outcomes_eq (.roll c) (hlt c) cap journal
  · intro c
    have hpool := Pool.singles sides (c.val - 1)
    rw [Nat.sub_add_cancel c.pos] at hpool
    exact hpool.run_outcomes_eq (.roll c) (hlt c) cap journal

/-- One coin and two more are three coins: eight outcomes, which a limit of seven refuses. -/
theorem Enumeration.outcomes_pool_coins :
    let two : Quantity := ⟨2, by decide, by decide⟩
    let three : Quantity := ⟨3, by decide, by decide⟩
    let split : Expr := .binary (.roll ⟨.one, two⟩) .add (.roll ⟨two, two⟩)
    let pool : Expr := .roll ⟨three, two⟩
    let result (cap : Cap) (e : Expr) : Except Overflow (List Float) :=
      ((outcomes cap e).run.run []).1
    Quantity.one.val + two.val = three.val ∧
    (∃ v, v.length = 8 ∧ result (some 8) pool = .ok v ∧ result (some 8) split = .ok v) ∧
    result (some 7) split = .error (.tooManyOutcomes 8 7) := by
  intro two three split pool result
  have hsum : Quantity.one.val + two.val = three.val := rfl
  have hsplit (cap : Cap) : result cap split = result cap pool :=
    (outcomes_pool two cap []).1 .one two three hsum
  refine ⟨hsum, ⟨_, ?_, rfl, hsplit (some 8)⟩, (hsplit (some 7)).trans rfl⟩
  rfl

end DiceOdds
