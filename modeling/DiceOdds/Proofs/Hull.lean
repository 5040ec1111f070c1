import DiceOdds.Expr.Bounds

namespace DiceOdds

namespace ExtendedScalar

class Ordered (α : Type) [ExtendedScalar α] : Prop where
  left {x y : α} : le x y = true → le x x = true
  right {x y : α} : le x y = true → le y y = true
  trans {x y z : α} : le x y = true → le y z = true → le x z = true
  total {x y : α} : le x x = true → le y y = true → le x y = true ∨ le y x = true
  bottom_le {x : α} : le x x = true → le bottom x = true
  le_top {x : α} : le x x = true → le x top = true

end ExtendedScalar

namespace Interval

open ExtendedScalar

variable {α : Type}

/-- What `lower` and `upper` have in common: they differ in the direction of the order. -/
def pick (r : α → α → Bool) (x y : α) : α := if r x y then x else if r y y then y else x

theorem pick_eq (r : α → α → Bool) (x y : α) : pick r x y = x ∨ pick r x y = y := by
  unfold pick
  split
  · exact .inl rfl
  · split
    · exact .inr rfl
    · exact .inl rfl

theorem foldl_pick_mem (r : α → α → Bool) (xs : List α) (i : α) :
    xs.foldl (pick r) i = i ∨ xs.foldl (pick r) i ∈ xs := by
  induction xs generalizing i with
  | nil => exact .inl rfl
  | cons x xs ih =>
      rw [List.foldl_cons]
      rcases ih (pick r i x) with h | h
      · rw [h]
        rcases pick_eq r i x with h | h
        · exact .inl h
        · rw [h]
          exact .inr List.mem_cons_self
      · exact .inr (List.mem_cons_of_mem x h)

theorem foldl_pick_le {r : α → α → Bool} (htrans : ∀ x y z, r x y → r y z → r x z)
    (htotal : ∀ x y, r x x → r y y → r x y ∨ r y x) (hleft : ∀ x y, r x y → r x x)
    {xs : List α} {i x : α} (hx : r x x) (h : x = i ∨ x ∈ xs) : r (xs.foldl (pick r) i) x := by
  have hpick (x y z : α) (hz : r z z) (h : z = x ∨ z = y) : r (pick r x y) z := by
    unfold pick
    by_cases hxy : r x y
    · rw [if_pos hxy]
      rcases h with rfl | rfl
      · exact hz
      · exact hxy
    · rw [if_neg hxy]
      by_cases hy : r y y
      · rw [if_pos hy]
        rcases h with rfl | rfl
        · exact (htotal z y hz hy).resolve_left hxy
        · exact hz
      · rw [if_neg hy]
        rcases h with rfl | rfl
        · exact hz
        · exact absurd hz hy
  induction xs generalizing i x with
  | nil =>
      rcases h with rfl | h
      · exact hx
      · cases h
  | cons y xs ih =>
      rw [List.foldl_cons]
      by_cases hmem : x ∈ xs
      · exact ih hx (.inr hmem)
      · have hxy : x = i ∨ x = y := by
          rcases h with h | h
          · exact .inl h
          · exact .inr ((List.mem_cons.1 h).resolve_right hmem)
        have hle := hpick i y x hx hxy
        exact htrans _ _ _ (ih (hleft _ _ hle) (.inl rfl)) hle

variable [ExtendedScalar α]

theorem foldl_hull (xs : List α) (i : Interval α) :
    xs.foldl (fun i x => ⟨lower i.lo x, upper i.hi x⟩) i =
      ⟨xs.foldl (pick le) i.lo, xs.foldl (pick fun x y => le y x) i.hi⟩ := by
  induction xs generalizing i with
  | nil => rfl
  | cons x xs ih =>
      rw [List.foldl_cons, ih]
      rfl

theorem hull_eq (xs : List α) :
    hull xs = ⟨xs.foldl (pick le) top, xs.foldl (pick fun x y => le y x) bottom⟩ :=
  foldl_hull xs ⟨top, bottom⟩

variable [Ordered α] {xs : List α} {x : α}

theorem hull_lo_le (h : x ∈ xs) (hx : le x x = true) : le (hull xs).lo x = true := by
  rw [hull_eq]
  exact foldl_pick_le (r := le) (fun _ _ _ => Ordered.trans) (fun _ _ => Ordered.total)
    (fun _ _ => Ordered.left) hx (.inr h)

theorem le_hull_hi (h : x ∈ xs) (hx : le x x = true) : le x (hull xs).hi = true := by
  rw [hull_eq]
  exact foldl_pick_le (r := fun x y => le y x) (fun _ _ _ hxy hyz => Ordered.trans hyz hxy)
    (fun _ _ hx hy => (Ordered.total hx hy).symm) (fun _ _ => Ordered.right) hx (.inr h)

/-- A number that is not the upper end keeps the upper end from being the least. -/
theorem hull_lo_mem (h : x ∈ xs) (hx : le x x = true) (htop : ¬ le top x = true) :
    (hull xs).lo ∈ xs := by
  have hle := hull_lo_le h hx
  rw [hull_eq] at hle ⊢
  rcases foldl_pick_mem le xs top with hlo | hlo
  · rw [hlo] at hle
    exact absurd hle htop
  · exact hlo

theorem hull_hi_mem (h : x ∈ xs) (hx : le x x = true) (hbottom : ¬ le x bottom = true) :
    (hull xs).hi ∈ xs := by
  have hle := le_hull_hi h hx
  rw [hull_eq] at hle ⊢
  rcases foldl_pick_mem (fun x y => le y x) xs bottom with hhi | hhi
  · rw [hhi] at hle
    exact absurd hle hbottom
  · exact hhi

end Interval

end DiceOdds
