import DiceOdds.Proofs.SoundBounds
import Mathlib.Data.Set.List
import Mathlib.Order.Bounds.Defs

namespace DiceOdds

open Extended

instance : Rounded Extended where
  value := id
  round := id
  round_le h := h
  round_undefined := rfl
  round_bottom := rfl
  round_top := rfl
  round_natCast _ := rfl
  le_eq _ _ := rfl
  value_bottom := rfl
  value_top := rfl
  value_ofNat _ := rfl
  value_add _ _ := rfl
  value_sub _ _ := rfl
  value_mul _ _ := rfl
  value_div _ _ _ := rfl

def Interval.Apart (i : Interval Extended) : Prop :=
  (∃ c, 0 < c ∧ i.lo = number c) ∨ ∃ d, d < 0 ∧ i.hi = number d

def Expr.DivisorsApart : Expr → Prop
  | .roll _ => True
  | .binary l op r => l.DivisorsApart ∧ r.DivisorsApart ∧ (op = .div → Interval.Apart r.bounds)

structure Interval.Sharp (i : Interval Extended) (zs : List Extended) : Prop where
  lo_mem : i.lo ∈ zs
  hi_mem : i.hi ∈ zs
  exists_number {z : Extended} : z ∈ zs → ∃ q, z = number q
  encloses {z : Extended} : z ∈ zs → i.Encloses z

namespace Interval

variable {i j : Interval Extended} {xs ys : List Extended}

theorem Apart.not_containsZero (h : i.Apart) : ¬ i.containsZero = true := by
  have hlo : i.containsZero = true → le i.lo (number 0) = true :=
    fun h => (Bool.and_eq_true_iff.1 h).1
  have hhi : i.containsZero = true → le (number 0) i.hi = true :=
    fun h => (Bool.and_eq_true_iff.1 h).2
  intro hzero
  rcases h with ⟨c, hc, hci⟩ | ⟨d, hd, hdi⟩
  · rw [hci] at hlo
    exact absurd ((le_number ..).1 (hlo hzero)) (not_le.2 hc)
  · rw [hdi] at hhi
    exact absurd ((le_number ..).1 (hhi hzero)) (not_le.2 hd)

/-- Numbers that lie apart from zero have a quotient, as all have a sum and a product. -/
theorem Sharp.exists_apply (op : Operator) (hx : i.Sharp xs) (hy : j.Sharp ys)
    (hdiv : op = .div → j.Apart) {x y : Extended} (hxs : x ∈ xs) (hys : y ∈ ys) :
    ∃ q, op.apply x y = number q := by
  obtain ⟨p, rfl⟩ := hx.exists_number hxs
  obtain ⟨q, rfl⟩ := hy.exists_number hys
  cases op with
  | add | sub | mul => exact ⟨_, rfl⟩
  | div =>
      have hq : q ≠ 0 := by
        rintro rfl
        have hzero := between_number.1 (hy.encloses hys)
        exact (hdiv rfl).not_containsZero (Bool.and_eq_true_iff.2 hzero)
      refine ⟨p * q⁻¹, ?_⟩
      rw [show Operator.div.apply (number p) (number q) = mul (number p) (number q).inv from rfl,
        inv_number hq, mul]

theorem mem_pairs {op : Operator} {x y : Extended} (hx : x ∈ xs) (hy : y ∈ ys) :
    op.apply x y ∈ Enumeration.pairs op xs ys :=
  List.mem_flatMap.2 ⟨x, hx, List.mem_map.2 ⟨y, hy, rfl⟩⟩

/-- The corners are among the results, so that their ends are reached. -/
theorem Sharp.hull_mem {op : Operator} (hx : i.Sharp xs) (hy : j.Sharp ys)
    (hdiv : op = .div → j.Apart) :
    (hull (corners op i j)).lo ∈ Enumeration.pairs op xs ys ∧
      (hull (corners op i j)).hi ∈ Enumeration.pairs op xs ys := by
  have hcorners : ∀ k ∈ corners op i j, k ∈ Enumeration.pairs op xs ys := by
    simp only [corners, List.forall_mem_cons]
    exact ⟨mem_pairs hx.lo_mem hy.lo_mem, mem_pairs hx.lo_mem hy.hi_mem,
      mem_pairs hx.hi_mem hy.lo_mem, mem_pairs hx.hi_mem hy.hi_mem, List.forall_mem_nil _⟩
  obtain ⟨q, hq⟩ := hx.exists_apply op hy hdiv hx.lo_mem hy.lo_mem
  have hfirst : number q ∈ corners op i j := hq ▸ List.mem_cons_self
  have hself : ExtendedScalar.le (number q) (number q) = true :=
    (le_number q q).2 le_rfl
  exact ⟨hcorners _ (hull_lo_mem hfirst hself Bool.false_ne_true),
    hcorners _ (hull_hi_mem hfirst hself Bool.false_ne_true)⟩

theorem Sharp.combine (op : Operator) (hx : i.Sharp xs) (hy : j.Sharp ys)
    (hdiv : op = .div → j.Apart) : (combine op i j).Sharp (Enumeration.pairs op xs ys) := by
  have hends : (Interval.combine op i j).lo ∈ Enumeration.pairs op xs ys ∧
      (Interval.combine op i j).hi ∈ Enumeration.pairs op xs ys := by
    cases op with
    | add => exact ⟨mem_pairs hx.lo_mem hy.lo_mem, mem_pairs hx.hi_mem hy.hi_mem⟩
    | sub => exact ⟨mem_pairs hx.lo_mem hy.hi_mem, mem_pairs hx.hi_mem hy.lo_mem⟩
    | mul => exact hx.hull_mem hy hdiv
    | div =>
        rw [Interval.combine, if_neg (hdiv rfl).not_containsZero]
        exact hx.hull_mem hy hdiv
  have hcornered : Cornered op i j := by
    obtain ⟨q, hq⟩ := hx.exists_apply op hy hdiv hx.lo_mem hy.lo_mem
    exact fun _ => ⟨op.apply i.lo j.lo, List.mem_cons_self, hq ▸ (le_number q q).2 le_rfl⟩
  have hmem {z : Extended} (hz : z ∈ Enumeration.pairs op xs ys) :
      ∃ x ∈ xs, ∃ y ∈ ys, op.apply x y = z := by
    simpa [Enumeration.pairs] using hz
  constructor
  · exact hends.1
  · exact hends.2
  · intro z hz
    obtain ⟨x, hxs, y, hys, rfl⟩ := hmem hz
    exact hx.exists_apply op hy hdiv hxs hys
  · intro z hz
    obtain ⟨x, hxs, y, hys, rfl⟩ := hmem hz
    exact (hx.encloses hxs).apply op (hy.encloses hys) hcornered

end Interval

namespace Enumeration

theorem Gives.sharp_roll {cap : Cap} {r : Roll} {n : ℕ} (hcount : r.outcomeCount = some n)
    {zs : List Extended} (h : Gives (roll cap r) zs) :
    Interval.Sharp ⟨r.least, r.greatest⟩ zs := by
  have hshows := h.shows_roll hcount
  have hsides : r.count.val ≤ r.count.val * r.sides.val :=
    Nat.le_mul_of_pos_right r.count.val r.sides.pos
  obtain ⟨lo, hlo, hleast⟩ := hshows.complete r.count.val le_rfl hsides
  obtain ⟨hi, hhi, hgreatest⟩ := hshows.complete (r.count.val * r.sides.val) hsides le_rfl
  have hlo' : lo = r.least := hleast.trans (Roll.value_least (α := Extended) r).symm
  have hhi' : hi = r.greatest := hgreatest.trans (value_greatest (α := Extended) hcount).symm
  constructor
  · exact hlo' ▸ hlo
  · exact hhi' ▸ hhi
  · intro z hz
    obtain ⟨total, htotal, -⟩ := hshows.sound z hz
    exact ⟨total, htotal⟩
  · intro z hz
    exact h.encloses_roll hcount hz

theorem Gives.sharp_walk {cap : Cap} {e : Expr} (he : e.DivisorsApart) {n : ℕ}
    (hcount : e.outcomeCount = some n) {zs : List Extended} (h : Gives (walk cap e) zs) :
    Interval.Sharp e.bounds zs := by
  induction e generalizing n zs with
  | roll r => exact h.sharp_roll hcount
  | binary l op r ihl ihr =>
      obtain ⟨hl, hr, hdiv⟩ := he
      obtain ⟨a, b, ha, hb, -, -⟩ := Expr.outcomeCount_binary.1 hcount
      obtain ⟨xs, hxs, h⟩ := h.of_bind
      obtain ⟨ys, hys, h⟩ := h.of_bind
      rw [h.of_combine]
      exact (ihl hl ha hxs).combine op (ihr hr hb hys) hdiv

end Enumeration

/-- In exact arithmetic the bounds are the least and the greatest outcome, unless a divisor can be
zero. -/
theorem Expr.bounds_eq_extremes (e : Expr) (he : e.DivisorsApart) (cap : Cap) (journal : Journal)
    (v : List Extended) (hv : ((Enumeration.outcomes cap e).run.run journal).1 = .ok v) :
    ∃ qs : List ℚ, v = qs.map number ∧
      ∃ lo hi, (e.bounds : Interval Extended) = ⟨number lo, number hi⟩ ∧
        IsLeast {q | q ∈ qs} lo ∧ IsGreatest {q | q ∈ qs} hi := by
  have hgives : Enumeration.Gives (Enumeration.outcomes cap e) v := ⟨journal, hv⟩
  obtain ⟨n, hcount⟩ := hgives.exists_outcomeCount
  have hsharp := hgives.of_outcomes.sharp_walk he hcount
  have hnumbers : v ∈ Set.range (List.map number) := by
    rw [Set.range_list_map]
    intro z hz
    obtain ⟨q, hq⟩ := hsharp.exists_number hz
    exact ⟨q, hq.symm⟩
  obtain ⟨qs, rfl⟩ := hnumbers
  obtain ⟨lo, hlo, hlo'⟩ := List.mem_map.1 hsharp.lo_mem
  obtain ⟨hi, hhi, hhi'⟩ := List.mem_map.1 hsharp.hi_mem
  have hbetween {q : ℚ} (hq : q ∈ qs) : lo ≤ q ∧ q ≤ hi := by
    have h := between_number.1 (hsharp.encloses (List.mem_map_of_mem hq))
    exact ⟨(le_number lo q).1 (hlo' ▸ h.1), (le_number q hi).1 (hhi' ▸ h.2)⟩
  refine ⟨qs, rfl, lo, hi, ?_, ⟨hlo, fun q hq => (hbetween hq).1⟩, hhi, fun q hq => (hbetween hq).2⟩
  rw [hlo', hhi']

/-- A quotient of two ranges, where the divisor's is below zero. -/
theorem Expr.bounds_eq_extremes_quotient :
    let coin : Expr := .roll ⟨.one, ⟨2, by decide, by decide⟩⟩
    let three : Expr := .roll (.constant ⟨3, by decide, by decide⟩)
    let e : Expr := .binary (.binary coin .sub coin) .div (.binary coin .sub three)
    e.DivisorsApart ∧
    ∃ v : List Extended, ((Enumeration.outcomes (some 8) e).run.run []).1 = .ok v ∧
      ∃ qs : List ℚ, v = qs.map number ∧
        ∃ lo hi, (e.bounds : Interval Extended) = ⟨number lo, number hi⟩ ∧
          IsLeast {q | q ∈ qs} lo ∧ IsGreatest {q | q ∈ qs} hi := by
  intro coin three e
  have h : e.DivisorsApart :=
    ⟨⟨trivial, trivial, nofun⟩, ⟨trivial, trivial, nofun⟩,
      fun _ => .inr ⟨-1, by norm_num, by decide +kernel⟩⟩
  exact ⟨h, _, rfl, Expr.bounds_eq_extremes e h (some 8) [] _ rfl⟩

end DiceOdds
