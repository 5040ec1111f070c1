import DiceOdds.Proofs.Binary64.Order

namespace DiceOdds.Binary64

/-- The nearest integer; of two as near that farther from zero. -/
def halfAway (q : ℚ) : ℤ := if q < 0 then -⌊-q + 1 / 2⌋ else ⌊q + 1 / 2⌋

theorem halfAway_of_nonneg {q : ℚ} (h : 0 ≤ q) : halfAway q = ⌊q + 1 / 2⌋ :=
  if_neg (not_lt.2 h)

theorem halfAway_neg_of_nonneg {q : ℚ} (h : 0 ≤ q) : halfAway (-q) = -⌊q + 1 / 2⌋ := by
  rcases h.eq_or_lt with rfl | hpos
  · norm_num [halfAway]
  · rw [halfAway, if_pos (neg_lt_zero.2 hpos), neg_neg]

theorem halfAway_mono {p q : ℚ} (h : p ≤ q) : halfAway p ≤ halfAway q := by
  have hfloor {r : ℚ} (hr : 0 ≤ r) : 0 ≤ ⌊r + 1 / 2⌋ := Int.floor_nonneg.2 (by linarith)
  rcases le_or_gt 0 p with hp | hp
  · rw [halfAway_of_nonneg hp, halfAway_of_nonneg (hp.trans h)]
    exact Int.floor_mono (by linarith)
  · have hp' : 0 ≤ -p := (neg_pos.2 hp).le
    rw [← neg_neg p, halfAway_neg_of_nonneg hp']
    rcases le_or_gt 0 q with hq | hq
    · rw [halfAway_of_nonneg hq]
      exact (neg_nonpos.2 (hfloor hp')).trans (hfloor hq)
    · rw [← neg_neg q, halfAway_neg_of_nonneg (neg_pos.2 hq).le]
      exact neg_le_neg (Int.floor_mono (by linarith))

/-- The nearest integer, or the end of 64 signed bits that it is beyond. -/
def saturated (q : ℚ) : ℤ := max (-2 ^ 63) (min (2 ^ 63 - 1) (halfAway q))

theorem saturated_mono {p q : ℚ} (h : p ≤ q) : saturated p ≤ saturated q :=
  max_le_max_left _ (min_le_min_left _ (halfAway_mono h))

theorem confine_halfAway (q : ℚ) : confine (halfAway q) = saturated q := rfl

theorem scaledUp_div_scaledDown (m : ℕ) (e : ℤ) :
    (scaledUp m e : ℚ) / scaledDown e = m * 2 ^ e := by
  simp only [scaledUp, scaledDown, Nat.pow_eq]
  push_cast
  rw [← zpow_natCast, ← zpow_natCast, mul_div_assoc, ← zpow_sub₀ (by norm_num)]
  congr 2
  omega

theorem roundHalfUp_eq_floor (num : ℕ) {den : ℕ} (h : 0 < den) :
    (Decimal.roundHalfUp num den : ℤ) = ⌊(num : ℚ) / den + 1 / 2⌋ := by
  have hsum : (num : ℚ) / den + 1 / 2 = ((2 * num + den : ℕ) : ℚ) / ((2 * den : ℕ) : ℚ) := by
    push_cast
    field_simp
  rw [hsum, Rat.floor_natCast_div_natCast]
  exact Int.natCast_ediv _ _

theorem toInteger_eq {x : Float} {q : ℚ} (h : value x = .number q) :
    toInteger x = saturated q := by
  rw [value] at h
  rw [← confine_halfAway]
  unfold toInteger
  cases hread : read x with
  | nan => rw [hread] at h; cases h
  | infinite negative => rw [hread] at h; cases negative <;> cases h
  | finite negative m e =>
      rw [hread] at h
      obtain rfl := Extended.number.inj h
      have hround := roundHalfUp_eq_floor (scaledUp m e) (scaledDown_pos e)
      rw [scaledUp_div_scaledDown] at hround
      have hnonneg : (0 : ℚ) ≤ m * 2 ^ e := by positivity
      cases negative with
      | false => simp [signed, hround, halfAway_of_nonneg hnonneg]
      | true => simp [signed, hround, halfAway_neg_of_nonneg hnonneg]

def roundsInto (p : ℤ → Bool) (x : Float) : Bool :=
  match value x with
  | .number q => p (saturated q)
  | _ => false

def roundsTo (x : Float) (v : ℤ) : Bool := roundsInto (· == v) x

theorem roundsInto_eq (p : ℤ → Bool) (x : Float) :
    roundsInto p x = (x.isFinite && p (toInteger x)) := by
  cases hfinite : x.isFinite with
  | true =>
      obtain ⟨q, hq⟩ := (isFinite_iff x).1 hfinite
      rw [roundsInto, toInteger_eq hq, hq, Bool.true_and]
  | false =>
      rw [roundsInto, Bool.false_and]
      cases hvalue : value x with
      | number q => exact absurd (isFinite_of_value hvalue) (by rw [hfinite]; nofun)
      | undefined | bottom | top => rfl

theorem toInteger_mono {x y : Float} (hx : x.isFinite = true) (hy : y.isFinite = true)
    (h : x ≤ y) : toInteger x ≤ toInteger y := by
  obtain ⟨p, hp⟩ := (isFinite_iff x).1 hx
  obtain ⟨q, hq⟩ := (isFinite_iff y).1 hy
  rw [toInteger_eq hp, toInteger_eq hq]
  exact saturated_mono ((le_iff_of_value hp hq).1 h)

end DiceOdds.Binary64
