import DiceOdds.Proofs.Binary64.Integer
import DiceOdds.Proofs.SoundBounds
import DiceOdds.Proofs.Tally
import DiceOdds.Summary

namespace DiceOdds.Summary

open Binary64

def occurrences (xs : List Float) (v : ℤ) : ℕ := xs.countP fun x => roundsTo x v

structure Spanning (xs : List Float) (s : Summary) (least greatest : ℚ) : Prop where
  lo_mem : s.extremes.lo ∈ xs ∧ value s.extremes.lo = .number least
  hi_mem : s.extremes.hi ∈ xs ∧ value s.extremes.hi = .number greatest
  between : ∀ x ∈ xs, x.isFinite = true → s.extremes.lo ≤ x ∧ x ≤ s.extremes.hi
  first : ∃ b, s.bins.head? = some b ∧ b.value = saturated least ∧ 0 < occurrences xs b.value
  last : ∃ b, s.bins.getLast? = some b ∧ b.value = saturated greatest ∧
    0 < occurrences xs b.value
  dense : saturated greatest - saturated least < 65536 →
    ∀ v, (∃ b ∈ s.bins, b.value = v) ↔ saturated least ≤ v ∧ v ≤ saturated greatest
  sparse : 65536 ≤ saturated greatest - saturated least →
    ∀ v, (∃ b ∈ s.bins, b.value = v) ↔ occurrences xs v ≠ 0

/-- The bins of a summary count every finite outcome once. -/
structure Faithful (w : Weighting) (xs : List Float) (s : Summary) : Prop where
  total : s.total = xs.length
  nonFinite : s.nonFinite = xs.countP fun x => !x.isFinite
  ascending : s.bins.Pairwise fun b c => b.value < c.value
  once : ∀ v, occurrences xs v ≠ 0 → s.bins.countP (fun b => b.value == v) = 1
  weight : ∀ b ∈ s.bins, (s.weight b : Float) =
    match w with
    | .sampled => Float.ofNat (occurrences xs b.value)
    | .equal => Float.ofNat (occurrences xs b.value) / Float.ofNat xs.length
  sum : (s.bins.map fun b => occurrences xs b.value).sum = s.total - s.nonFinite
  empty : (∀ x ∈ xs, x.isFinite = false) → s.bins = []
  spanning : (∃ x ∈ xs, x.isFinite = true) → ∃ least greatest, Spanning xs s least greatest

variable {w : Weighting} {xs : List Float}

theorem le_self_of_isFinite {x : Float} (h : x.isFinite = true) : ExtendedScalar.le x x = true := by
  obtain ⟨q, hq⟩ := (isFinite_iff x).1 h
  rw [Binary64.le_eq, hq]
  exact Extended.le_self.2 nofun

/-- The extremes of finite outcomes are among them, and no outcome is beyond. -/
theorem hull_extreme (hfinite : ∀ x ∈ xs, x.isFinite = true) {x : Float} (hx : x ∈ xs) :
    ((Interval.hull xs).lo ∈ xs ∧ (Interval.hull xs).hi ∈ xs) ∧
      (Interval.hull xs).lo ≤ x ∧ x ≤ (Interval.hull xs).hi := by
  have hself := le_self_of_isFinite (hfinite x hx)
  obtain ⟨q, hq⟩ := (isFinite_iff x).1 (hfinite x hx)
  have htop : ¬ ExtendedScalar.le ExtendedScalar.top x = true := by
    rw [Binary64.le_eq, value_top, hq]
    exact Bool.false_ne_true
  have hbottom : ¬ ExtendedScalar.le x ExtendedScalar.bottom = true := by
    rw [Binary64.le_eq, value_bottom, hq]
    exact Bool.false_ne_true
  exact ⟨⟨Interval.hull_lo_mem hx hself htop, Interval.hull_hi_mem hx hself hbottom⟩,
    of_decide_eq_true (Interval.hull_lo_le hx hself),
    of_decide_eq_true (Interval.le_hull_hi hx hself)⟩

theorem spans_toInteger (hfinite : ∀ x ∈ xs, x.isFinite = true) (hne : xs ≠ []) :
    Bin.Spans (xs.map toInteger) (toInteger (Interval.hull xs).lo)
      (toInteger (Interval.hull xs).hi) := by
  obtain ⟨x, hx⟩ := List.exists_mem_of_ne_nil xs hne
  obtain ⟨⟨hlo, hhi⟩, -⟩ := hull_extreme hfinite hx
  refine ⟨List.mem_map_of_mem hlo, List.mem_map_of_mem hhi, ?_⟩
  intro v hv
  obtain ⟨y, hy, rfl⟩ := List.mem_map.1 hv
  obtain ⟨-, hley, hyle⟩ := hull_extreme hfinite hy
  exact ⟨toInteger_mono (hfinite _ hlo) (hfinite y hy) hley,
    toInteger_mono (hfinite y hy) (hfinite _ hhi) hyle⟩

theorem ofOutcomes_of_finite (h : ∃ x ∈ xs, x.isFinite = true) :
    ofOutcomes w xs = ofFinite w xs.length (xs.filter Float.isFinite) := by
  obtain ⟨x, hx, hfinite⟩ := h
  apply if_neg
  rw [List.isEmpty_iff]
  exact List.ne_nil_of_mem (List.mem_filter.2 ⟨hx, hfinite⟩)

theorem filter_eq_nil (h : ∀ x ∈ xs, x.isFinite = false) : xs.filter Float.isFinite = [] := by
  rw [List.filter_eq_nil_iff]
  intro x hx
  rw [h x hx]
  exact Bool.false_ne_true

theorem ofOutcomes_of_none (h : ∀ x ∈ xs, x.isFinite = false) :
    ofOutcomes w xs = empty w xs.length := by
  apply if_pos
  rw [filter_eq_nil h]
  rfl

def values (xs : List Float) : List ℤ := (xs.filter Float.isFinite).map toInteger

theorem countP_values (xs : List Float) (p : ℤ → Bool) :
    (values xs).countP p = xs.countP (roundsInto p) := by
  rw [values, List.countP_map, List.countP_filter]
  apply List.countP_congr
  intro x _
  rw [roundsInto_eq, Function.comp_apply, Bool.and_comm]

theorem count_values (xs : List Float) (v : ℤ) : (values xs).count v = occurrences xs v :=
  countP_values xs (· == v)

theorem occurrences_ne_zero {v : ℤ} : occurrences xs v ≠ 0 ↔ v ∈ values xs := by
  rw [← count_values, ← Nat.pos_iff_ne_zero, List.count_pos_iff]

theorem exists_finite_of_mem_values {v : ℤ} (h : v ∈ values xs) : ∃ x ∈ xs, x.isFinite = true := by
  obtain ⟨x, hx, -⟩ := List.mem_map.1 h
  exact ⟨x, List.mem_filter.1 hx⟩

section

variable (h : ∃ x ∈ xs, x.isFinite = true)
include h

theorem spans_values : Bin.Spans (values xs) (toInteger (ofOutcomes w xs).extremes.lo)
    (toInteger (ofOutcomes w xs).extremes.hi) := by
  rw [ofOutcomes_of_finite h]
  obtain ⟨x, hx, hfinite⟩ := h
  exact spans_toInteger (fun x hx => (List.mem_filter.1 hx).2)
    (List.ne_nil_of_mem (List.mem_filter.2 ⟨hx, hfinite⟩))

theorem bins_eq_table : (ofOutcomes w xs).bins =
    Bin.table (values xs) (toInteger (ofOutcomes w xs).extremes.lo)
      (toInteger (ofOutcomes w xs).extremes.hi) := by
  rw [ofOutcomes_of_finite h]
  rfl

theorem bins_eq : (ofOutcomes w xs).bins =
    (Bin.listed (values xs) (toInteger (ofOutcomes w xs).extremes.lo)
      (toInteger (ofOutcomes w xs).extremes.hi)).map fun v => ⟨v, occurrences xs v⟩ := by
  simp only [← count_values]
  rw [bins_eq_table h, Bin.table_eq]

theorem exists_mem_bins (v : ℤ) : (∃ b ∈ (ofOutcomes w xs).bins, b.value = v) ↔
    v ∈ Bin.listed (values xs) (toInteger (ofOutcomes w xs).extremes.lo)
      (toInteger (ofOutcomes w xs).extremes.hi) := by
  rw [bins_eq h]
  simp

theorem head?_bins : (ofOutcomes w xs).bins.head? =
    some ⟨toInteger (ofOutcomes w xs).extremes.lo,
      occurrences xs (toInteger (ofOutcomes w xs).extremes.lo)⟩ := by
  rw [bins_eq h, List.head?_map, (spans_values h).head?_listed]
  rfl

theorem getLast?_bins : (ofOutcomes w xs).bins.getLast? =
    some ⟨toInteger (ofOutcomes w xs).extremes.hi,
      occurrences xs (toInteger (ofOutcomes w xs).extremes.hi)⟩ := by
  rw [bins_eq h, List.getLast?_map, (spans_values h).getLast?_listed]
  rfl

theorem exists_spanning :
    ∃ least greatest, Spanning xs (ofOutcomes w xs) least greatest := by
  have hspans := spans_values (w := w) h
  have hextreme {x : Float} (hx : x ∈ xs) (hfinite : x.isFinite = true) :
      (((ofOutcomes w xs).extremes.lo ∈ xs.filter Float.isFinite ∧
        (ofOutcomes w xs).extremes.hi ∈ xs.filter Float.isFinite) ∧
        (ofOutcomes w xs).extremes.lo ≤ x ∧ x ≤ (ofOutcomes w xs).extremes.hi) := by
    rw [ofOutcomes_of_finite h]
    exact hull_extreme (fun x hx => (List.mem_filter.1 hx).2) (List.mem_filter.2 ⟨hx, hfinite⟩)
  have hends : (ofOutcomes w xs).extremes.lo ∈ xs.filter Float.isFinite ∧
      (ofOutcomes w xs).extremes.hi ∈ xs.filter Float.isFinite := by
    obtain ⟨x, hx, hfinite⟩ := h
    exact (hextreme hx hfinite).1
  obtain ⟨hlo, hlofinite⟩ := List.mem_filter.1 hends.1
  obtain ⟨hhi, hhifinite⟩ := List.mem_filter.1 hends.2
  obtain ⟨least, hleast⟩ := (isFinite_iff _).1 hlofinite
  obtain ⟨greatest, hgreatest⟩ := (isFinite_iff _).1 hhifinite
  refine ⟨least, greatest, ?_⟩
  constructor
  · exact ⟨hlo, hleast⟩
  · exact ⟨hhi, hgreatest⟩
  · exact fun x hx hfinite => (hextreme hx hfinite).2
  · exact ⟨_, head?_bins h, toInteger_eq hleast,
      Nat.pos_of_ne_zero (occurrences_ne_zero.2 hspans.lo_mem)⟩
  · exact ⟨_, getLast?_bins h, toInteger_eq hgreatest,
      Nat.pos_of_ne_zero (occurrences_ne_zero.2 hspans.hi_mem)⟩
  · rw [← toInteger_eq hleast, ← toInteger_eq hgreatest]
    intro hspread v
    rw [exists_mem_bins h, Bin.mem_listed_dense hspread]
  · rw [← toInteger_eq hleast, ← toInteger_eq hgreatest]
    intro hspread v
    rw [exists_mem_bins h, Bin.mem_listed_sparse hspread, occurrences_ne_zero]

end

theorem exists_finite_or (xs : List Float) :
    (∃ x ∈ xs, x.isFinite = true) ∨ ∀ x ∈ xs, x.isFinite = false := by
  by_cases h : ∃ x ∈ xs, x.isFinite = true
  · exact .inl h
  · refine .inr fun x hx => ?_
    rw [← Bool.not_eq_true]
    exact fun hfinite => h ⟨x, hx, hfinite⟩

theorem total_ofOutcomes (w : Weighting) (xs : List Float) :
    (ofOutcomes w xs).total = xs.length := by
  rcases exists_finite_or xs with h | h
  · rw [ofOutcomes_of_finite h]
    rfl
  · rw [ofOutcomes_of_none h]
    rfl

theorem nonFinite_ofOutcomes (w : Weighting) (xs : List Float) :
    (ofOutcomes w xs).nonFinite = xs.length - (values xs).length := by
  rcases exists_finite_or xs with h | h
  · rw [ofOutcomes_of_finite h, values, List.length_map]
    rfl
  · rw [ofOutcomes_of_none h, values, filter_eq_nil h]
    rfl

theorem length_values (xs : List Float) :
    xs.length = (values xs).length + xs.countP fun x => !x.isFinite := by
  have h := List.length_eq_countP_add_countP Float.isFinite (l := xs)
  simp only [Bool.not_eq_true, Bool.decide_eq_false] at h
  rwa [values, List.length_map, ← List.countP_eq_length_filter]

theorem nonFinite_eq_zero {w : Weighting} {xs : List Float} :
    (ofOutcomes w xs).nonFinite = 0 ↔ ∀ x ∈ xs, x.isFinite = true := by
  rw [nonFinite_ofOutcomes, length_values, Nat.add_sub_cancel_left, List.countP_eq_zero]
  simp

theorem ascending_bins (w : Weighting) (xs : List Float) :
    (ofOutcomes w xs).bins.Pairwise fun b c => b.value < c.value := by
  rcases exists_finite_or xs with h | h
  · rw [bins_eq h, List.pairwise_map]
    exact Bin.pairwise_listed _ _ _
  · rw [ofOutcomes_of_none h]
    exact .nil

theorem countP_bins {v : ℤ} (hv : occurrences xs v ≠ 0) :
    (ofOutcomes w xs).bins.countP (fun b => b.value == v) = 1 := by
  have hmem := occurrences_ne_zero.1 hv
  have h := exists_finite_of_mem_values hmem
  rw [bins_eq h, List.countP_map]
  exact List.count_eq_one_of_mem ((Bin.pairwise_listed _ _ _).imp fun hlt => ne_of_lt hlt)
    ((spans_values h).mem_listed hmem)

theorem count_of_mem_bins {b : Bin} (hb : b ∈ (ofOutcomes w xs).bins) :
    b.count = occurrences xs b.value := by
  rcases exists_finite_or xs with h | h
  · rw [bins_eq h] at hb
    obtain ⟨v, -, rfl⟩ := List.mem_map.1 hb
    rfl
  · rw [ofOutcomes_of_none h] at hb
    cases hb

theorem sum_bins (w : Weighting) (xs : List Float) :
    ((ofOutcomes w xs).bins.map Bin.count).sum = (values xs).length := by
  rcases exists_finite_or xs with h | h
  · rw [bins_eq_table h]
    exact (spans_values h).sum_counts
  · rw [ofOutcomes_of_none h, values, filter_eq_nil h]
    rfl

theorem weighting_ofOutcomes (w : Weighting) (xs : List Float) :
    (ofOutcomes w xs).weighting = w := by
  rcases exists_finite_or xs with h | h
  · rw [ofOutcomes_of_finite h]
    rfl
  · rw [ofOutcomes_of_none h]
    rfl

theorem faithful_ofOutcomes (w : Weighting) (xs : List Float) :
    Faithful w xs (ofOutcomes w xs) := by
  constructor
  · exact total_ofOutcomes w xs
  · have hlength := length_values xs
    rw [nonFinite_ofOutcomes]
    omega
  · exact ascending_bins w xs
  · exact fun v hv => countP_bins hv
  · intro b hb
    rw [weight, weighting_ofOutcomes, total_ofOutcomes, count_of_mem_bins hb]
    cases w <;> rfl
  · have hlength := length_values xs
    rw [← List.map_congr_left fun b hb => count_of_mem_bins hb, sum_bins, total_ofOutcomes,
      nonFinite_ofOutcomes]
    omega
  · intro h
    rw [ofOutcomes_of_none h]
    rfl
  · exact exists_spanning

theorem bins_perm {ys : List Float} (h : xs.Perm ys) :
    (ofOutcomes w ys).bins = (ofOutcomes w xs).bins := by
  have hvalues : (values ys).Perm (values xs) := (h.symm.filter _).map _
  rcases exists_finite_or xs with hx | hx
  · have hy : ∃ y ∈ ys, y.isFinite = true := by
      obtain ⟨x, hmem, hfinite⟩ := hx
      exact ⟨x, h.mem_iff.1 hmem, hfinite⟩
    rw [bins_eq_table hx, bins_eq_table hy]
    exact (spans_values hy).table_perm (spans_values hx) hvalues
  · rw [ofOutcomes_of_none hx, ofOutcomes_of_none fun y hy => hx y (h.mem_iff.2 hy)]
    rfl

theorem bins_weighting (w w' : Weighting) (xs : List Float) :
    (ofOutcomes w' xs).bins = (ofOutcomes w xs).bins := by
  rcases exists_finite_or xs with h | h
  · rw [ofOutcomes_of_finite h, ofOutcomes_of_finite h]
    rfl
  · rw [ofOutcomes_of_none h, ofOutcomes_of_none h]
    rfl

/-- The bins of a summary count every finite outcome once, and depend neither on the order of the
outcomes nor on how they are weighted. -/
theorem bins_faithful (w : Weighting) (xs : List Float) :
    Faithful w xs (ofOutcomes w xs) ∧
    (∀ ys, xs.Perm ys → (ofOutcomes w ys).bins = (ofOutcomes w xs).bins ∧
      (ofOutcomes w ys).total = (ofOutcomes w xs).total) ∧
    ∀ w', (ofOutcomes w' xs).bins.map Bin.value = (ofOutcomes w xs).bins.map Bin.value := by
  refine ⟨faithful_ofOutcomes w xs, fun ys hperm => ⟨bins_perm hperm, ?_⟩, fun w' => ?_⟩
  · rw [total_ofOutcomes, total_ofOutcomes, hperm.length_eq]
  · rw [bins_weighting w w']

/-- Outcomes beyond 64 signed bits have their bins at the ends of these. -/
theorem bins_faithful_saturated :
    let s := ofOutcomes .sampled [10000000000000000000, 7 / 2, -10000000000000000000]
    ∀ v ∈ [-2 ^ 63, 4, 2 ^ 63 - 1], s.bins.countP (fun b => b.value == v) = 1 := by
  intro s v hv
  obtain ⟨hfaithful, -⟩ :=
    bins_faithful .sampled [10000000000000000000, 7 / 2, -10000000000000000000]
  apply hfaithful.once
  revert v
  decide +kernel

end DiceOdds.Summary
