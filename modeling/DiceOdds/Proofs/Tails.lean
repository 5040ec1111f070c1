import DiceOdds.Proofs.Averages
import DiceOdds.Proofs.Bins

namespace DiceOdds.Summary

open Binary64 Extended

def tail (xs : List Float) (v : ℤ) : ℕ := xs.countP (roundsInto (v ≤ ·))

variable {w : Weighting} {xs : List Float} {v : ℤ}

/-- Both ways to weigh a bin divide by the total, one before the bins are added up and one after. -/
theorem probabilityAtLeast_eq {s : Summary} (h : s.total ≠ 0) (v : ℤ) :
    (s.probabilityAtLeast v : Extended) =
      number (((s.bins.filter fun b => v ≤ b.value).map Bin.count).sum / s.total) := by
  have htotal : (s.total : ℚ) ≠ 0 := Nat.cast_ne_zero.2 h
  rw [probabilityAtLeast, if_neg h]
  generalize s.bins.filter (fun b => v ≤ b.value) = bins
  rw [Nat.cast_list_sum, List.map_map]
  cases hw : s.weighting with
  | sampled =>
      have hweights : bins.map s.weight = (bins.map fun b => (b.count : ℚ)).map number := by
        rw [List.map_map]
        apply List.map_congr_left
        intro b _
        rw [weight, hw]
        rfl
      rw [hweights, sum_map_number]
      exact number_div htotal
  | equal =>
      have hweights :
          bins.map s.weight = (bins.map fun b => (b.count : ℚ) / s.total).map number := by
        rw [List.map_map]
        apply List.map_congr_left
        intro b _
        rw [weight, hw]
        exact number_div htotal
      simp only [hweights, sum_map_number, div_eq_mul_inv, List.sum_map_mul_right]
      rfl

theorem sum_tail (w : Weighting) (xs : List Float) (v : ℤ) :
    (((ofOutcomes w xs).bins.filter fun b => v ≤ b.value).map Bin.count).sum = tail xs v := by
  rw [tail, ← countP_values]
  rcases exists_finite_or xs with h | h
  · rw [bins_eq_table h]
    exact (spans_values h).sum_counts_filter (v ≤ ·)
  · rw [ofOutcomes_of_none h, values, filter_eq_nil h]
    rfl

theorem tail_antitone (xs : List Float) {u v : ℤ} (h : u ≤ v) : tail xs v ≤ tail xs u := by
  rw [tail, tail, ← countP_values, ← countP_values]
  apply List.countP_mono_left
  intro n _ hn
  exact decide_eq_true (h.trans (of_decide_eq_true hn))

theorem between_of_mem_values (h : v ∈ values xs) :
    toInteger (ofOutcomes w xs).extremes.lo ≤ v ∧ v ≤ toInteger (ofOutcomes w xs).extremes.hi :=
  (spans_values (exists_finite_of_mem_values h)).between v h

/-- No finite outcome rounds to less than the least one does. -/
theorem tail_of_le (h : v ≤ toInteger (ofOutcomes w xs).extremes.lo) :
    tail xs v = (values xs).length := by
  rw [tail, ← countP_values, List.countP_eq_length]
  intro n hn
  exact decide_eq_true (h.trans (between_of_mem_values hn).1)

theorem tail_of_lt (h : toInteger (ofOutcomes w xs).extremes.hi < v) : tail xs v = 0 := by
  rw [tail, ← countP_values, List.countP_eq_zero]
  intro n hn hle
  exact absurd (of_decide_eq_true hle) (not_le.2 ((between_of_mem_values hn).2.trans_lt h))

theorem probabilityAtLeast_ofOutcomes (w : Weighting) (h : xs ≠ []) (v : ℤ) :
    ((ofOutcomes w xs).probabilityAtLeast v : Extended) = number (tail xs v / xs.length) := by
  have htotal : (ofOutcomes w xs).total ≠ 0 := by
    rw [total_ofOutcomes]
    exact (List.length_pos_of_ne_nil h).ne'
  rw [probabilityAtLeast_eq htotal, sum_tail, total_ofOutcomes]

/-- What the bins from a value on weigh together is the share of the outcomes that round to it or
to more, in every table and however the outcomes are weighted. -/
theorem probabilityAtLeast_counts (w : Weighting) (xs : List Float) :
    let s := ofOutcomes w xs
    (xs ≠ [] → ∀ v, s.probabilityAtLeast v = number (tail xs v / xs.length)) ∧
    (∀ w' v, ((ofOutcomes w' xs).probabilityAtLeast v : Extended) = s.probabilityAtLeast v) ∧
    (∀ u v, u ≤ v → le (s.probabilityAtLeast v) (s.probabilityAtLeast u) = true) ∧
    (xs ≠ [] → ∀ v, v ≤ toInteger s.extremes.lo →
      s.probabilityAtLeast v = number (1 - s.nonFinite / s.total)) ∧
    (∀ v, toInteger s.extremes.hi < v → s.probabilityAtLeast v = number 0) ∧
    (xs = [] → ∀ v, s.probabilityAtLeast v = number 0) := by
  intro s
  have hnil (hxs : xs = []) (w' : Weighting) (v : ℤ) :
      ((ofOutcomes w' xs).probabilityAtLeast v : Extended) = number 0 := by
    rw [hxs]
    rfl
  refine ⟨probabilityAtLeast_ofOutcomes w, ?_, ?_, ?_, ?_, fun hxs => hnil hxs w⟩
  · intro w' v
    by_cases hxs : xs = []
    · rw [hnil hxs w', hnil hxs w]
    · rw [probabilityAtLeast_ofOutcomes w' hxs, probabilityAtLeast_ofOutcomes w hxs]
  · intro u v huv
    by_cases hxs : xs = []
    · rw [hnil hxs w, hnil hxs w]
      exact le_self.2 nofun
    · rw [probabilityAtLeast_ofOutcomes w hxs, probabilityAtLeast_ofOutcomes w hxs, le_number]
      have htail : (tail xs v : ℚ) ≤ tail xs u := by exact_mod_cast tail_antitone xs huv
      exact div_le_div_of_nonneg_right htail (Nat.cast_nonneg _)
  · intro hxs v hv
    have hlength := length_values xs
    have htotal : (xs.length : ℚ) ≠ 0 := Nat.cast_ne_zero.2 (List.length_pos_of_ne_nil hxs).ne'
    rw [probabilityAtLeast_ofOutcomes w hxs, tail_of_le hv, nonFinite_ofOutcomes, total_ofOutcomes,
      Nat.cast_sub (by omega)]
    congr 1
    field_simp
    ring
  · intro v hv
    by_cases hxs : xs = []
    · exact hnil hxs w v
    · rw [probabilityAtLeast_ofOutcomes w hxs, tail_of_lt hv, Nat.cast_zero, zero_div]

/-- Half of these outcomes come to two or more: what is infinite is one of four, but no bin is for
it, and the table lists nothing between the other two. -/
theorem probabilityAtLeast_counts_sparse :
    let xs : List Float := [1, 1000000000, 1 / 0, 1000000000]
    xs ≠ [] ∧ ((ofOutcomes .equal xs).probabilityAtLeast 2 : Extended) = number (1 / 2) := by
  intro xs
  have hxs : xs ≠ [] := List.cons_ne_nil _ _
  refine ⟨hxs, ?_⟩
  obtain ⟨hcounts, -⟩ := probabilityAtLeast_counts .equal xs
  have htail : tail xs 2 = 2 := by decide +kernel
  rw [hcounts hxs 2, htail]
  norm_num [xs]

end DiceOdds.Summary
