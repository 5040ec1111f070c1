import DiceOdds.Summary
import Mathlib.Algebra.BigOperators.Group.Finset.Basic
import Mathlib.Algebra.Order.Ring.Int
import Mathlib.Data.List.Sort

namespace DiceOdds.Bin

variable {values : List ℤ} {lo hi v : ℤ}

theorem tally_append_singleton (values : List ℤ) (v : ℤ) :
    tally (values ++ [v]) = (tally values).insert v ((tally values).getD v 0 + 1) := by
  rw [tally, List.foldl_append]
  rfl

theorem getElem?_tally (values : List ℤ) (v : ℤ) :
    (tally values)[v]? = if v ∈ values then some (values.count v) else none := by
  induction values using List.reverseRecOn with
  | nil => rfl
  | append_singleton values w ih =>
      rw [tally_append_singleton, Std.TreeMap.getElem?_insert]
      by_cases h : w = v
      · rw [h, if_pos (compare_eq_iff_eq.2 rfl), if_pos (by simp)]
        rw [Std.TreeMap.getD_eq_getD_getElem?, ih]
        by_cases hmem : v ∈ values
        · simp [hmem]
        · simp [hmem, List.count_eq_zero.2 hmem]
      · rw [if_neg (fun heq => h (compare_eq_iff_eq.1 heq)), ih]
        simp [h, Ne.symm h]

theorem getD_tally (values : List ℤ) (v : ℤ) : (tally values).getD v 0 = values.count v := by
  rw [Std.TreeMap.getD_eq_getD_getElem?, getElem?_tally]
  by_cases h : v ∈ values
  · rw [if_pos h]
    rfl
  · rw [if_neg h, List.count_eq_zero.2 h]
    rfl

def listed (values : List ℤ) (lo hi : ℤ) : List ℤ :=
  if hi - lo < maxSpread then rangeOf lo hi else (tally values).keys

/-- Both ways of making a table count the same. -/
theorem table_eq (values : List ℤ) (lo hi : ℤ) :
    table values lo hi = (listed values lo hi).map fun v => ⟨v, values.count v⟩ := by
  unfold table listed
  split
  · simp only [getD_tally]
  · rw [← Std.TreeMap.map_fst_toList_eq_keys, List.map_map]
    apply List.map_congr_left
    rintro ⟨v, n⟩ hmem
    have hget := Std.TreeMap.mem_toList_iff_getElem?_eq_some.1 hmem
    have hcount := getD_tally values v
    rw [Std.TreeMap.getD_eq_getD_getElem?, hget] at hcount
    exact congrArg (Bin.mk v) hcount

theorem mem_rangeOf : v ∈ rangeOf lo hi ↔ lo ≤ v ∧ v ≤ hi := by
  unfold rangeOf
  rw [List.mem_map]
  constructor
  · rintro ⟨i, hi, rfl⟩
    rw [List.mem_range] at hi
    omega
  · rintro ⟨hlo, hhi⟩
    refine ⟨(v - lo).toNat, ?_, by omega⟩
    rw [List.mem_range]
    omega

theorem mem_keys_tally : v ∈ (tally values).keys ↔ v ∈ values := by
  rw [Std.TreeMap.mem_keys, Std.TreeMap.mem_iff_isSome_getElem?, getElem?_tally]
  by_cases h : v ∈ values <;> simp [h]

theorem mem_listed_dense (h : hi - lo < 65536) : v ∈ listed values lo hi ↔ lo ≤ v ∧ v ≤ hi := by
  have hspread : hi - lo < maxSpread := h
  rw [listed, if_pos hspread, mem_rangeOf]

theorem mem_listed_sparse (h : 65536 ≤ hi - lo) : v ∈ listed values lo hi ↔ v ∈ values := by
  have hspread : ¬ hi - lo < maxSpread := not_lt.2 h
  rw [listed, if_neg hspread, mem_keys_tally]

theorem pairwise_listed (values : List ℤ) (lo hi : ℤ) :
    (listed values lo hi).Pairwise (· < ·) := by
  unfold listed
  split
  · rw [rangeOf, List.pairwise_map]
    apply List.pairwise_lt_range.imp
    intro i j hij
    omega
  · exact Std.TreeMap.ordered_keys.imp compare_lt_iff_lt.1

theorem head?_of_pairwise {r : ℤ → ℤ → Prop} {vs : List ℤ} (h : vs.Pairwise r) (hv : v ∈ vs)
    (hfirst : ∀ w ∈ vs, ¬ r w v) : vs.head? = some v := by
  cases vs with
  | nil => cases hv
  | cons w ws =>
      rcases List.mem_cons.1 hv with rfl | hv
      · rfl
      · exact absurd ((List.pairwise_cons.1 h).1 v hv) (hfirst w List.mem_cons_self)

structure Spans (values : List ℤ) (lo hi : ℤ) : Prop where
  lo_mem : lo ∈ values
  hi_mem : hi ∈ values
  between : ∀ v ∈ values, lo ≤ v ∧ v ≤ hi

namespace Spans

theorem mem_listed (h : Spans values lo hi) (hv : v ∈ values) : v ∈ listed values lo hi := by
  unfold listed
  split
  · exact mem_rangeOf.2 (h.between v hv)
  · exact mem_keys_tally.2 hv

theorem between_of_mem_listed (h : Spans values lo hi) (hv : v ∈ listed values lo hi) :
    lo ≤ v ∧ v ≤ hi := by
  unfold listed at hv
  split at hv
  · exact mem_rangeOf.1 hv
  · exact h.between v (mem_keys_tally.1 hv)

theorem head?_listed (h : Spans values lo hi) : (listed values lo hi).head? = some lo :=
  head?_of_pairwise (pairwise_listed values lo hi) (h.mem_listed h.lo_mem) fun _ hw =>
    not_lt.2 (h.between_of_mem_listed hw).1

theorem getLast?_listed (h : Spans values lo hi) : (listed values lo hi).getLast? = some hi := by
  rw [List.getLast?_eq_head?_reverse]
  apply head?_of_pairwise (List.pairwise_reverse.2 (pairwise_listed values lo hi))
    (List.mem_reverse.2 (h.mem_listed h.hi_mem))
  intro w hw
  exact not_lt.2 (h.between_of_mem_listed (List.mem_reverse.1 hw)).2

/-- Each value is counted in one bin, and so is each of a kind in the bins of that kind. -/
theorem sum_counts_filter (h : Spans values lo hi) (p : ℤ → Bool) :
    (((table values lo hi).filter fun b => p b.value).map Bin.count).sum = values.countP p := by
  have hnodup : ((listed values lo hi).filter p).Nodup :=
    ((pairwise_listed values lo hi).imp fun hlt => ne_of_lt hlt).filter p
  have hmem :
      ∀ v ∈ (values.filter p : Multiset ℤ), v ∈ ((listed values lo hi).filter p).toFinset := by
    intro v hv
    obtain ⟨hv, hp⟩ := List.mem_filter.1 (Multiset.mem_coe.1 hv)
    exact List.mem_toFinset.2 (List.mem_filter.2 ⟨h.mem_listed hv, hp⟩)
  have hsum := Multiset.sum_count_eq_card hmem
  simp only [List.sum_toFinset _ hnodup, Multiset.coe_count, Multiset.coe_card] at hsum
  rw [List.countP_eq_length_filter, ← hsum, table_eq, List.filter_map, List.map_map]
  congr 1
  apply List.map_congr_left
  intro v hv
  exact (List.count_filter (List.mem_filter.1 hv).2).symm

theorem sum_counts (h : Spans values lo hi) :
    ((table values lo hi).map Bin.count).sum = values.length := by
  have hsum := h.sum_counts_filter fun _ => true
  rwa [List.filter_true, List.countP_true] at hsum

theorem table_perm {values' : List ℤ} {lo' hi' : ℤ} (h : Spans values lo hi)
    (h' : Spans values' lo' hi') (hperm : values.Perm values') :
    table values lo hi = table values' lo' hi' := by
  obtain rfl : lo = lo' := le_antisymm (h.between _ (hperm.mem_iff.2 h'.lo_mem)).1
    (h'.between _ (hperm.mem_iff.1 h.lo_mem)).1
  obtain rfl : hi = hi' := le_antisymm (h'.between _ (hperm.mem_iff.1 h.hi_mem)).2
    (h.between _ (hperm.mem_iff.2 h'.hi_mem)).2
  have hlisted : listed values lo hi = listed values' lo hi := by
    apply (pairwise_listed values lo hi).eq_of_mem_iff (pairwise_listed values' lo hi)
    intro v
    unfold listed
    split
    · rfl
    · rw [mem_keys_tally, mem_keys_tally, hperm.mem_iff]
  rw [table_eq, table_eq, hlisted]
  apply List.map_congr_left
  intro v _
  rw [hperm.count_eq]

end Spans

end DiceOdds.Bin
