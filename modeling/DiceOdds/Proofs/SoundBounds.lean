import DiceOdds.Proofs.Binary64.Order
import DiceOdds.Proofs.Counting
import DiceOdds.Proofs.Enclosure

namespace DiceOdds

open Extended Rounded

namespace Sampling

variable {α : Type} [ExtendedScalar α] [Rounded α]

/-- Whatever a roller does within the range of each roll, the value ends up within the bounds. -/
theorem encloses_one {e : Expr} (he : e.Cornered α) {σ : Type} {roller : Roller (StateM σ) α}
    (hroller : ∀ r s, Interval.Encloses ⟨r.least, r.greatest⟩ ((roller r).run s).1) (s : σ) :
    e.bounds.Encloses ((one roller e).run s).1 := by
  induction e generalizing s with
  | roll r =>
      cases hr : r.isConstant with
      | true =>
          rw [one, hr, if_pos rfl]
          exact Roll.encloses_least r
      | false =>
          rw [one, hr, if_neg Bool.false_ne_true]
          exact hroller r s
  | binary l op r ihl ihr =>
      obtain ⟨hl, hr, hop⟩ := he
      exact (ihl hl s).apply op (ihr hr ((one roller l).run s).2) hop

end Sampling

namespace Enumeration

theorem Gives.mem_combine {α : Type} [Scalar α] {cap : Cap} {op : Operator} {xs ys zs : List α}
    (h : Gives (combine cap op xs ys) zs) (z : α) :
    z ∈ zs ↔ ∃ x ∈ xs, ∃ y ∈ ys, op.apply x y = z := by
  rw [h.of_combine]
  simp [pairs]

variable {α : Type} [ExtendedScalar α] [Rounded α]

structure Shows (count sides : ℕ) (xs : List α) : Prop where
  sound : ∀ x ∈ xs, ∃ n : ℕ, value x = number n ∧ count ≤ n ∧ n ≤ count * sides
  complete : ∀ n : ℕ, count ≤ n → n ≤ count * sides → ∃ x ∈ xs, value x = number n

theorem shows_faces (sides : Quantity) : Shows 1 sides.val (faces sides : List α) := by
  have hlt := sides.lt
  constructor
  · intro x hx
    obtain ⟨i, hi, rfl⟩ := List.mem_map.1 hx
    have hi := List.mem_range.1 hi
    exact ⟨i + 1, value_ofNat (by omega), by omega, by omega⟩
  · intro n hn hsides
    refine ⟨Scalar.ofNat n, List.mem_map.2 ⟨n - 1, ?_, ?_⟩, value_ofNat (by omega)⟩
    · rw [List.mem_range]
      omega
    · rw [Nat.sub_add_cancel hn]

theorem value_add_natCast {x y : α} {m n : ℕ} (hx : value x = number m) (hy : value y = number n)
    (h : m + n < 2 ^ 53) : value (x + y) = number (m + n : ℕ) := by
  rw [value_add, hx, hy, add, ← Nat.cast_add]
  exact round_natCast h

theorem Shows.combine {cap : Cap} {count sides : ℕ} {xs ys zs : List α}
    (h : Gives (combine cap .add xs ys) zs) (hxs : Shows count sides xs) (hys : Shows 1 sides ys)
    (hlimit : (count + 1) * sides < 2 ^ 53) : Shows (count + 1) sides zs := by
  rw [Nat.succ_mul] at hlimit
  constructor
  · intro z hz
    obtain ⟨x, hx, y, hy, rfl⟩ := (h.mem_combine z).1 hz
    obtain ⟨m, hm, hmlo, hmhi⟩ := hxs.sound x hx
    obtain ⟨n, hn, hnlo, hnhi⟩ := hys.sound y hy
    rw [Nat.succ_mul]
    exact ⟨m + n, value_add_natCast hm hn (by omega), by omega, by omega⟩
  · intro n hlo hhi
    rw [Nat.succ_mul] at hhi
    -- the last die shows as much as it can, and leaves enough for the others
    obtain ⟨m, k, hn, hmlo, hmhi, hklo, hkhi⟩ : ∃ m k, m + k = n ∧ count ≤ m ∧
        m ≤ count * sides ∧ 1 ≤ k ∧ k ≤ 1 * sides := by
      have hsides : 1 ≤ sides := by
        by_contra hzero
        obtain rfl : sides = 0 := by omega
        omega
      have hcount : count ≤ count * sides := Nat.le_mul_of_pos_right count hsides
      by_cases hleft : count + sides ≤ n
      · exact ⟨n - sides, sides, by omega, by omega, by omega, by omega, by omega⟩
      · exact ⟨count, n - count, by omega, by omega, by omega, by omega, by omega⟩
    obtain ⟨x, hx, hxvalue⟩ := hxs.complete m hmlo hmhi
    obtain ⟨y, hy, hyvalue⟩ := hys.complete k hklo hkhi
    refine ⟨x + y, (h.mem_combine _).2 ⟨x, hx, y, hy, rfl⟩, ?_⟩
    rw [value_add_natCast hxvalue hyvalue (by omega), hn]

theorem Shows.addDice {cap : Cap} {sides : Quantity} {n count : ℕ} {xs zs : List α}
    (h : Gives (addDice cap sides n xs) zs) (hxs : Shows count sides.val xs)
    (hlimit : (count + n) * sides.val < 2 ^ 53) : Shows (count + n) sides.val zs := by
  induction n generalizing count xs with
  | zero => exact h.of_pure ▸ hxs
  | succ n ih =>
      obtain ⟨ys, hys, h⟩ := h.of_bind
      obtain ⟨_, _, h⟩ := h.of_bind
      rw [← Nat.succ_add_eq_add_succ] at hlimit ⊢
      have hcount : (count + 1) * sides.val ≤ (count + 1 + n) * sides.val :=
        Nat.mul_le_mul_right _ (Nat.le_add_right _ n)
      exact ih h (hxs.combine hys (shows_faces sides) (hcount.trans_lt hlimit)) hlimit

/-- A roll that has a number of outcomes has few enough dice for exact sums. -/
theorem total_lt {r : Roll} {n : ℕ} (h : r.outcomeCount = some n) :
    r.count.val * r.sides.val < 2 ^ 53 := by
  have hcount := r.count.lt
  have hsides := r.sides.lt
  cases hr : r.isConstant with
  | true =>
      have hone : r.sides.val = 1 := by simpa [Roll.isConstant] using hr
      rw [hone]
      omega
  | false =>
      obtain ⟨hfew, -⟩ := (Roll.outcomeCount_eq_some hr).1 h
      calc r.count.val * r.sides.val ≤ 64 * 0x100000000 := Nat.mul_le_mul hfew.le hsides.le
        _ < 2 ^ 53 := by norm_num

theorem Gives.shows_roll {cap : Cap} {r : Roll} {zs : List α} (h : Gives (roll cap r) zs)
    {n : ℕ} (hcount : r.outcomeCount = some n) : Shows r.count.val r.sides.val zs := by
  cases hr : r.isConstant with
  | true =>
      rw [roll, hr, if_pos rfl] at h
      have hsides : r.sides.val = 1 := by simpa [Roll.isConstant] using hr
      rw [← h.of_pure, hsides]
      constructor
      · intro x hx
        rw [List.mem_singleton.1 hx]
        exact ⟨r.count.val, Roll.value_least r, le_rfl, by omega⟩
      · intro n hlo hhi
        obtain rfl : n = r.count.val := by omega
        exact ⟨r.least, List.mem_singleton_self _, Roll.value_least r⟩
  | false =>
      rw [roll, hr, if_neg Bool.false_ne_true] at h
      have hone : 1 + (r.count.val - 1) = r.count.val := Nat.add_sub_cancel' r.count.pos
      have hlimit := total_lt hcount
      rw [← hone] at hlimit
      have hshows := (shows_faces r.sides).addDice h hlimit
      rwa [hone] at hshows

theorem value_greatest {r : Roll} {n : ℕ} (h : r.outcomeCount = some n) :
    value (r.greatest : α) = number (r.count.val * r.sides.val : ℕ) := by
  rw [Roll.value_greatest, ← Nat.cast_mul]
  exact round_natCast (total_lt h)

theorem Gives.encloses_roll {cap : Cap} {r : Roll} {zs : List α} (h : Gives (roll cap r) zs)
    {n : ℕ} (hcount : r.outcomeCount = some n) {z : α} (hz : z ∈ zs) :
    Interval.Encloses ⟨r.least, r.greatest⟩ z := by
  obtain ⟨total, htotal, hlo, hhi⟩ := (h.shows_roll hcount).sound z hz
  rw [Interval.Encloses, htotal, Roll.value_least, value_greatest hcount, between_number, le_number,
    le_number]
  exact ⟨by exact_mod_cast hlo, by exact_mod_cast hhi⟩

theorem Gives.encloses_walk {cap : Cap} {e : Expr} (he : e.Cornered α) {n : ℕ}
    (hcount : e.outcomeCount = some n) {zs : List α} (h : Gives (walk cap e) zs) {z : α}
    (hz : z ∈ zs) : e.bounds.Encloses z := by
  induction e generalizing n zs z with
  | roll r => exact h.encloses_roll hcount hz
  | binary l op r ihl ihr =>
      obtain ⟨hl, hr, hop⟩ := he
      obtain ⟨a, b, ha, hb, -, -⟩ := Expr.outcomeCount_binary.1 hcount
      obtain ⟨xs, hxs, h⟩ := h.of_bind
      obtain ⟨ys, hys, h⟩ := h.of_bind
      obtain ⟨x, hx, y, hy, rfl⟩ := (h.mem_combine z).1 hz
      exact (ihl hl ha hxs hx).apply op (ihr hr hb hys hy) hop

end Enumeration

instance : Rounded Float where
  value := Binary64.value
  round := Binary64.rounded
  round_le := Binary64.rounded_le
  round_undefined := rfl
  round_bottom := rfl
  round_top := rfl
  round_natCast := Binary64.rounded_natCast
  le_eq := Binary64.le_eq
  value_bottom := Binary64.value_bottom
  value_top := Binary64.value_top
  value_ofNat := Binary64.value_ofNat
  value_add := Binary64.value_add
  value_sub := Binary64.value_sub
  value_mul := Binary64.value_mul
  value_div x _ := Binary64.value_div x

namespace Interval

theorem Encloses.le_and_le {i : Interval Float} {x : Float} (h : i.Encloses x)
    (hx : x.isFinite = true) : i.lo ≤ x ∧ x ≤ i.hi := by
  obtain ⟨q, hq⟩ := (Binary64.isFinite_iff x).1 hx
  have hvalue : value x = number q := hq
  rw [Encloses, hvalue, between_number, ← hvalue, ← le_eq, ← le_eq] at h
  exact ⟨of_decide_eq_true h.1, of_decide_eq_true h.2⟩

theorem encloses_of_le {i : Interval Float} {x : Float} (hlo : i.lo ≤ x) (hhi : x ≤ i.hi) :
    i.Encloses x := by
  have hlo := (le_eq i.lo x).symm.trans (decide_eq_true hlo)
  have hhi := (le_eq x i.hi).symm.trans (decide_eq_true hhi)
  exact fun _ => ⟨fun _ => hlo, fun _ => hhi⟩

end Interval

theorem Roll.least_mem_range (r : Roll) :
    (r.least : Float) ≤ r.least ∧ (r.least : Float) ≤ r.greatest := by
  have hvalue : Rounded.value (r.least : Float) = number r.count.val := value_least r
  exact (encloses_least r).le_and_le (Binary64.isFinite_of_value hvalue)

/-- The bounds hold for every outcome that is listed and every value that is sampled, provided that
wherever they are taken from corners, one of the corners is a number. -/
theorem Expr.within_bounds (e : Expr) (h : e.Cornered Float) :
    (∀ (cap : Cap) (journal : Journal) (v : List Float),
      ((Enumeration.outcomes cap e).run.run journal).1 = .ok v →
      ∀ x ∈ v, x.isFinite = true → e.bounds.lo ≤ x ∧ x ≤ e.bounds.hi) ∧
    (∀ (σ : Type) (roller : Roller (StateM σ) Float),
      (∀ r s, r.least ≤ ((roller r).run s).1 ∧ ((roller r).run s).1 ≤ r.greatest) →
      ∀ s, ((Sampling.one roller e).run s).1.isFinite = true →
        e.bounds.lo ≤ ((Sampling.one roller e).run s).1 ∧
        ((Sampling.one roller e).run s).1 ≤ e.bounds.hi) := by
  constructor
  · intro cap journal v hv x hx hfinite
    have hgives : Enumeration.Gives (Enumeration.outcomes cap e) v := ⟨journal, hv⟩
    obtain ⟨n, hcount⟩ := hgives.exists_outcomeCount
    exact (hgives.of_outcomes.encloses_walk h hcount hx).le_and_le hfinite
  · intro σ roller hroller s hfinite
    have hencloses (r : Roll) (s : σ) :
        Interval.Encloses ⟨r.least, r.greatest⟩ ((roller r).run s).1 :=
      Interval.encloses_of_le (hroller r s).1 (hroller r s).2
    exact (Sampling.encloses_one h hencloses s).le_and_le hfinite

/-- Either end of an unbounded quotient times zero is undefined, but another corner is not. -/
theorem Expr.within_bounds_unbounded :
    let one : Expr := .roll (.constant .one)
    let coin : Expr := .roll ⟨.one, ⟨2, by decide, by decide⟩⟩
    let e : Expr := .binary (.binary one .div (.binary coin .sub one)) .mul (.binary coin .sub one)
    let least : Roller (StateM Unit) Float := fun r => pure r.least
    e.Cornered Float ∧
    (∃ v : List Float, ((Enumeration.outcomes none e).run.run []).1 = .ok v ∧
      ∀ x ∈ v, x.isFinite = true → e.bounds.lo ≤ x ∧ x ≤ e.bounds.hi) ∧
    (((Sampling.one least e).run ()).1.isFinite = true →
      e.bounds.lo ≤ ((Sampling.one least e).run ()).1 ∧
      ((Sampling.one least e).run ()).1 ≤ e.bounds.hi) := by
  intro one coin e least
  have hrange : (Expr.binary coin .sub one).Cornered Float :=
    ⟨trivial, trivial, fun h => by rcases h with h | ⟨h, -⟩ <;> cases h⟩
  have hquotient : (Expr.binary one .div (.binary coin .sub one)).Cornered Float := by
    refine ⟨trivial, hrange, fun h => ?_⟩
    rcases h with h | ⟨-, hzero⟩
    · cases h
    · exact absurd (by decide +kernel) hzero
  have h : e.Cornered Float :=
    ⟨hquotient, hrange, fun _ => ⟨_, .tail _ (.head _), by decide +kernel⟩⟩
  obtain ⟨hlisted, hsampled⟩ := Expr.within_bounds e h
  refine ⟨h, ⟨_, rfl, hlisted none [] _ rfl⟩, hsampled Unit least (fun r s => ?_) ()⟩
  exact Roll.least_mem_range r

/-- The bounds of an unbounded quotient times nothing but zero are the wrong way around: no corner
is a number, but the product is where the quotient is. -/
theorem Expr.not_forall_within_bounds :
    ¬ ∀ (e : Expr) (v : List Float), ((Enumeration.outcomes none e).run.run []).1 = .ok v →
      ∀ x ∈ v, x.isFinite = true → e.bounds.lo ≤ x ∧ x ≤ e.bounds.hi := by
  intro h
  let one : Expr := .roll (.constant .one)
  let coin : Expr := .roll ⟨.one, ⟨2, by decide, by decide⟩⟩
  let e : Expr := .binary (.binary one .div (.binary coin .sub one)) .mul (.binary one .sub one)
  have houtside : ∃ v : List Float, ((Enumeration.outcomes none e).run.run []).1 = .ok v ∧
      ∃ x ∈ v, x.isFinite = true ∧ ¬ e.bounds.lo ≤ x :=
    ⟨_, rfl, _, .tail _ (.head _), by decide +kernel, by decide +kernel⟩
  obtain ⟨v, hv, x, hx, hfinite, hlo⟩ := houtside
  exact hlo (h e v hv x hx hfinite).1

end DiceOdds
