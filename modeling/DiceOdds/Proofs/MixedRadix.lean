import Mathlib.Algebra.BigOperators.Group.List.Basic

namespace DiceOdds.MixedRadix

variable {α : Type}

/-- The digits of a number to mixed bases, the most significant first. -/
def digits : List Nat → Nat → List Nat
  | [], _ => []
  | _ :: bs, k => k / bs.prod :: digits bs (k % bs.prod)

def tabulate (bases : List Nat) (f : List Nat → α) : List α :=
  (List.range bases.prod).map fun k => f (digits bases k)

theorem length_digits (bs : List Nat) (k : Nat) : (digits bs k).length = bs.length := by
  induction bs generalizing k with
  | nil => rfl
  | cons b bs ih => simp [digits, ih]

theorem digits_singleton (b k : Nat) : digits [b] k = [k] := by
  simp [digits]

theorem digits_append (as bs : List Nat) (i j : Nat) (hi : i < as.prod) (hj : j < bs.prod) :
    digits (as ++ bs) (bs.prod * i + j) = digits as i ++ digits bs j := by
  have hpos : 0 < bs.prod := Nat.zero_lt_of_lt hj
  induction as generalizing i with
  | nil =>
      have hi : i = 0 := by simpa using hi
      rw [hi, Nat.mul_zero, Nat.zero_add]
      rfl
  | cons a as ih =>
      rw [List.prod_cons] at hi
      have has : 0 < as.prod := Nat.pos_of_mul_pos_left (Nat.zero_lt_of_lt hi)
      have hdiv : (bs.prod * i + j) / (as.prod * bs.prod) = i / as.prod := by
        rw [Nat.mul_comm as.prod, ← Nat.div_div_eq_div_mul, Nat.mul_add_div hpos,
          Nat.div_eq_of_lt hj, Nat.add_zero]
      have hmod : (bs.prod * i + j) % (as.prod * bs.prod) = bs.prod * (i % as.prod) + j := by
        rw [Nat.mul_comm as.prod, Nat.mod_mul, Nat.mul_add_mod, Nat.mod_eq_of_lt hj,
          Nat.mul_add_div hpos, Nat.div_eq_of_lt hj, Nat.add_zero, Nat.add_comm]
      rw [List.cons_append, digits, List.prod_append, hdiv, hmod, ih _ (Nat.mod_lt i has)]
      rfl

theorem digits_lt {bs : List Nat} {k : Nat} (hk : k < bs.prod) :
    List.Forall₂ (fun b d => d < b) bs (digits bs k) := by
  induction bs generalizing k with
  | nil => exact .nil
  | cons b bs ih =>
      rw [List.prod_cons] at hk
      have hpos : 0 < bs.prod := Nat.pos_of_mul_pos_left (Nat.zero_lt_of_lt hk)
      exact .cons ((Nat.div_lt_iff_lt_mul hpos).2 hk) (ih (Nat.mod_lt k hpos))

theorem exists_digits {bs ds : List Nat} (h : List.Forall₂ (fun b d => d < b) bs ds) :
    ∃ k < bs.prod, digits bs k = ds := by
  induction h with
  | nil => exact ⟨0, Nat.one_pos, rfl⟩
  | @cons b d bs ds hd _ ih =>
      obtain ⟨k, hk, rfl⟩ := ih
      refine ⟨bs.prod * d + k, ?_, ?_⟩
      · calc bs.prod * d + k < bs.prod * d + bs.prod := Nat.add_lt_add_left hk _
          _ = bs.prod * (d + 1) := (Nat.mul_succ _ _).symm
          _ ≤ bs.prod * b := Nat.mul_le_mul_left _ hd
          _ = (b :: bs).prod := by rw [List.prod_cons, Nat.mul_comm]
      · rw [digits, Nat.mul_add_div (Nat.zero_lt_of_lt hk), Nat.div_eq_of_lt hk, Nat.add_zero,
          Nat.mul_add_mod, Nat.mod_eq_of_lt hk]

theorem length_tabulate (bs : List Nat) (f : List Nat → α) :
    (tabulate bs f).length = bs.prod := by
  simp [tabulate]

theorem getElem_tabulate (bs : List Nat) (f : List Nat → α) (k : Nat)
    (hk : k < (tabulate bs f).length) : (tabulate bs f)[k] = f (digits bs k) := by
  simp [tabulate]

theorem mem_tabulate {bs : List Nat} {f : List Nat → α} {x : α} :
    x ∈ tabulate bs f ↔ ∃ ds, List.Forall₂ (fun b d => d < b) bs ds ∧ f ds = x := by
  rw [tabulate, List.mem_map]
  constructor
  · rintro ⟨k, hk, rfl⟩
    exact ⟨_, digits_lt (List.mem_range.1 hk), rfl⟩
  · rintro ⟨ds, hds, rfl⟩
    obtain ⟨k, hk, rfl⟩ := exists_digits hds
    exact ⟨k, List.mem_range.2 hk, rfl⟩

theorem tabulate_congr_of_lt (bs : List Nat) (f g : List Nat → α)
    (h : ∀ ds, List.Forall₂ (fun b d => d < b) bs ds → f ds = g ds) :
    tabulate bs f = tabulate bs g := by
  rw [tabulate, tabulate]
  apply List.map_congr_left
  intro k hk
  exact h _ (digits_lt (List.mem_range.1 hk))

theorem tabulate_congr (bs : List Nat) (f g : List Nat → α)
    (h : ∀ ds, ds.length = bs.length → f ds = g ds) : tabulate bs f = tabulate bs g :=
  tabulate_congr_of_lt bs f g fun ds hds => h ds hds.length_eq.symm

theorem tabulate_nil (f : List Nat → α) : tabulate [] f = [f []] := rfl

theorem tabulate_singleton (b : Nat) (f : List Nat → α) :
    tabulate [b] f = (List.range b).map fun i => f [i] := by
  simp [tabulate, digits_singleton]

theorem range_mul (m n : Nat) :
    List.range (m * n) = (List.range m).flatMap fun i => (List.range n).map fun j => n * i + j := by
  induction m with
  | zero => simp
  | succ m ih =>
      rw [Nat.succ_mul, List.range_add, ih, List.range_succ, List.flatMap_append,
        List.flatMap_singleton, Nat.mul_comm]

theorem tabulate_append (as bs : List Nat) (f : List Nat → α) :
    tabulate (as ++ bs) f =
      (List.range as.prod).flatMap fun i => (List.range bs.prod).map fun j =>
        f (digits as i ++ digits bs j) := by
  rw [tabulate, List.prod_append, range_mul, List.map_flatMap]
  simp only [List.map_map]
  apply List.flatMap_congr
  intro i hi
  apply List.map_congr_left
  intro j hj
  simp only [List.mem_range] at hi hj
  rw [Function.comp_apply, digits_append as bs i j hi hj]

end DiceOdds.MixedRadix
