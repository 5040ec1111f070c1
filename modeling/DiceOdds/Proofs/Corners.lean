import DiceOdds.Proofs.Extended
import Mathlib.Tactic.FieldSimp

namespace DiceOdds.Extended

/-- A number lies between two ends. An infinite one is only held to the end on its side, and what
is undefined to neither. -/
def Between (a b z : Extended) : Prop :=
  z ≠ undefined → (z ≠ top → le a z = true) ∧ (z ≠ bottom → le z b = true)

def Covers (ks : List Extended) (z : Extended) : Prop :=
  z ≠ undefined → (z ≠ top → ∃ k ∈ ks, le k z = true) ∧ (z ≠ bottom → ∃ k ∈ ks, le z k = true)

def products (a b c d : Extended) : List Extended := [mul a c, mul a d, mul b c, mul b d]

variable {a b c d u v z : Extended} {p q : ℚ}

theorem between_number :
    Between a b (number q) ↔ le a (number q) = true ∧ le (number q) b = true := by
  simp [Between]

theorem Between.eq_top (h : Between a b top) : b = top := by
  have hle := (h nofun).2 nofun
  cases b <;> simp [le] at hle ⊢

theorem Between.eq_bottom (h : Between a b bottom) : a = bottom := by
  have hle := (h nofun).1 nofun
  cases a <;> simp [le] at hle ⊢

theorem between_ends (z : Extended) : Between bottom top z := fun hz =>
  ⟨fun _ => bottom_le (le_self.2 hz), fun _ => Extended.le_top (le_self.2 hz)⟩

theorem covers_of_mem {ks : List Extended} (h : z ∈ ks) : Covers ks z := fun hz =>
  ⟨fun _ => ⟨z, h, le_self.2 hz⟩, fun _ => ⟨z, h, le_self.2 hz⟩⟩

theorem Covers.mono {ks ls : List Extended} (h : Covers ks z) (hsub : ∀ k ∈ ks, k ∈ ls) :
    Covers ls z := by
  intro hz
  obtain ⟨hlo, hhi⟩ := h hz
  constructor
  · intro htop
    obtain ⟨k, hk, hle⟩ := hlo htop
    exact ⟨k, hsub k hk, hle⟩
  · intro hbottom
    obtain ⟨k, hk, hle⟩ := hhi hbottom
    exact ⟨k, hsub k hk, hle⟩

theorem Between.neg (h : Between a b z) : Between b.neg a.neg z.neg := by
  intro hz
  obtain ⟨hlo, hhi⟩ := h fun hz' => hz (neg_eq_iff.2 hz')
  rw [Extended.neg_le_neg, Extended.neg_le_neg]
  exact ⟨fun hz => hhi fun hz' => hz (neg_eq_iff.2 hz'),
    fun hz => hlo fun hz' => hz (neg_eq_iff.2 hz')⟩

theorem add_le (hu : Between a b u) (hv : Between c d v) (hz : add u v ≠ undefined)
    (htop : add u v ≠ top) : le (add a c) (add u v) = true := by
  have hdefined : u ≠ undefined ∧ v ≠ undefined := by
    cases u <;> cases v <;> simp [add] at hz ⊢
  have hfinite : u ≠ top ∧ v ≠ top := by
    cases u <;> cases v <;> simp [add] at hz htop ⊢
  exact le_add ((hu hdefined.1).1 hfinite.1) ((hv hdefined.2).1 hfinite.2) hfinite.1 hfinite.2

theorem Between.add (hu : Between a b u) (hv : Between c d v) :
    Between (add a c) (add b d) (add u v) := by
  intro hz
  refine ⟨add_le hu hv hz, fun hbottom => ?_⟩
  have h := add_le hu.neg hv.neg
  rw [← Extended.neg_add, ← Extended.neg_add, Extended.neg_le_neg] at h
  exact h (fun h => hz (neg_eq_iff.1 h)) fun h => hbottom (neg_eq_iff.1 h)

theorem sign_of_le_neg (h : le a (number q) = true) (hq : q < 0) : a.sign = -1 := by
  cases a with
  | bottom => rfl
  | number p => exact sign_neg (((le_number p q).1 h).trans_lt hq)
  | undefined | top => exact absurd h Bool.false_ne_true

theorem sign_of_pos_le (h : le (number q) b = true) (hq : 0 < q) : b.sign = 1 := by
  cases b with
  | top => rfl
  | number p => exact sign_pos (hq.trans_le ((le_number q p).1 h))
  | undefined | bottom => exact absurd h Bool.false_ne_true

/-- Scaled, a number is not less than one of its ends, unless zero times an end is all there is. -/
theorem exists_mul_number_le (ha : le a (number p) = true) (hb : le (number p) b = true)
    (h : q ≠ 0 ∨ a ≠ bottom ∨ b ≠ top) :
    ∃ e, (e = a ∨ e = b) ∧ le (mul e (number q)) (number (p * q)) = true := by
  rcases lt_trichotomy q 0 with hq | rfl | hq
  · refine ⟨b, .inr rfl, ?_⟩
    cases b with
    | undefined | bottom => exact absurd hb Bool.false_ne_true
    | top => rw [top_mul, sign_of_le_neg (le_self.2 nofun) hq]; rfl
    | number r => exact (le_number ..).2 (mul_le_mul_of_nonpos_right ((le_number ..).1 hb) hq.le)
  · have hzero (r : ℚ) : le (mul (number r) (number 0)) (number (p * 0)) = true := by
      simp [mul, le]
    rcases h.resolve_left (fun h => h rfl) with h | h
    · refine ⟨a, .inl rfl, ?_⟩
      cases a with
      | undefined | top => exact absurd ha Bool.false_ne_true
      | bottom => exact absurd rfl h
      | number r => exact hzero r
    · refine ⟨b, .inr rfl, ?_⟩
      cases b with
      | undefined | bottom => exact absurd hb Bool.false_ne_true
      | top => exact absurd rfl h
      | number r => exact hzero r
  · refine ⟨a, .inl rfl, ?_⟩
    cases a with
    | undefined | top => exact absurd ha Bool.false_ne_true
    | bottom => rw [bottom_mul, sign_of_pos_le (le_self.2 nofun) hq]; rfl
    | number r => exact (le_number ..).2 (mul_le_mul_of_nonneg_right ((le_number ..).1 ha) hq.le)

/-- With one end picked, the other factor has an end that does not make the product larger. -/
theorem exists_mul_le {e : Extended} (he : le (mul e (number q)) (number p) = true)
    (hc : le c (number q) = true) (hd : le (number q) d = true)
    (h : e ≠ number 0 ∨ c ≠ bottom ∨ d ≠ top) :
    ∃ f, (f = c ∨ f = d) ∧ le (mul e f) (number p) = true := by
  cases e with
  | undefined => exact absurd he Bool.false_ne_true
  | number r =>
      have hr : r ≠ 0 ∨ c ≠ bottom ∨ d ≠ top := h.imp_left fun h hr => h (congrArg number hr)
      obtain ⟨f, hf, hle⟩ := exists_mul_number_le hc hd hr
      rw [mul_comm q r] at hle
      refine ⟨f, hf, ?_⟩
      rw [Extended.mul_comm]
      exact Extended.le_trans hle he
  | bottom =>
      rw [bottom_mul, ofSign_le_number, neg_inj] at he
      refine ⟨d, .inr rfl, ?_⟩
      rw [bottom_mul, sign_of_pos_le hd (sign_eq_one_iff.1 he)]
      rfl
  | top =>
      rw [top_mul, ofSign_le_number] at he
      refine ⟨c, .inl rfl, ?_⟩
      rw [top_mul, sign_of_le_neg hc (sign_eq_neg_one_iff.1 he)]
      rfl

/-- Both ends times anything but zero have a product with either end. -/
theorem ends_mem_products (h : ∃ k ∈ products bottom top c d, k ≠ undefined) :
    bottom ∈ products bottom top c d ∧ top ∈ products bottom top c d := by
  rw [products, bottom_mul, bottom_mul, top_mul, top_mul] at h ⊢
  generalize c.sign = s at h ⊢
  generalize d.sign = t at h ⊢
  decide +revert

theorem mem_products_comm {k : Extended} : k ∈ products a b c d ↔ k ∈ products c d a b := by
  simp only [products, List.mem_cons, List.not_mem_nil, or_false, Extended.mul_comm c,
    Extended.mul_comm d]
  tauto

theorem mem_products {e f : Extended} (he : e = a ∨ e = b) (hf : f = c ∨ f = d) :
    mul e f ∈ products a b c d := by
  rcases he with rfl | rfl <;> rcases hf with rfl | rfl <;> simp [products]

theorem exists_product_le (hu : Between a b (number p)) (hv : Between c d (number q))
    (h : ∃ k ∈ products a b c d, k ≠ undefined) :
    ∃ k ∈ products a b c d, le k (number (p * q)) = true := by
  obtain ⟨ha, hb⟩ := between_number.1 hu
  obtain ⟨hc, hd⟩ := between_number.1 hv
  by_cases hab : q ≠ 0 ∨ a ≠ bottom ∨ b ≠ top
  · obtain ⟨e, he, hle⟩ := exists_mul_number_le ha hb hab
    by_cases hcd : e ≠ number 0 ∨ c ≠ bottom ∨ d ≠ top
    · obtain ⟨f, hf, hle⟩ := exists_mul_le hle hc hd hcd
      exact ⟨mul e f, mem_products he hf, hle⟩
    · push Not at hcd
      obtain ⟨-, rfl, rfl⟩ := hcd
      obtain ⟨k, hk, hdefined⟩ := h
      have hends := ends_mem_products ⟨k, mem_products_comm.1 hk, hdefined⟩
      exact ⟨bottom, mem_products_comm.1 hends.1, rfl⟩
  · push Not at hab
    obtain ⟨-, rfl, rfl⟩ := hab
    exact ⟨bottom, (ends_mem_products h).1, rfl⟩

theorem mem_products_neg {k : Extended} :
    k ∈ products b.neg a.neg c d ↔ k.neg ∈ products a b c d := by
  simp only [products, List.mem_cons, List.not_mem_nil, or_false, Extended.neg_mul, neg_eq_iff]
  tauto

theorem exists_le_product (hu : Between a b (number p)) (hv : Between c d (number q))
    (h : ∃ k ∈ products a b c d, k ≠ undefined) :
    ∃ k ∈ products a b c d, le (number (p * q)) k = true := by
  obtain ⟨k, hk, hdefined⟩ := h
  have hneg : ∃ k ∈ products b.neg a.neg c d, k ≠ undefined :=
    ⟨k.neg, mem_products_neg.2 (by rwa [Extended.neg_neg]), fun h => hdefined (neg_eq_iff.1 h)⟩
  obtain ⟨k, hk, hle⟩ := exists_product_le hu.neg hv hneg
  refine ⟨k.neg, mem_products_neg.1 hk, ?_⟩
  rw [← Extended.neg_le_neg, Extended.neg_neg, Extended.neg, ← neg_mul]
  exact hle

/-- Apart from zero there is an end with the number's sign, and it is that number if it is
infinite. -/
theorem exists_sign_eq (h : Between a b z) (hz : z.sign ≠ 0) :
    ∃ e, (e = a ∨ e = b) ∧ e.sign = z.sign ∧ ((∀ q, z ≠ number q) → e = z) := by
  cases z with
  | undefined => exact absurd rfl hz
  | bottom => exact ⟨a, .inl rfl, by rw [h.eq_bottom], fun _ => h.eq_bottom⟩
  | top => exact ⟨b, .inr rfl, by rw [h.eq_top], fun _ => h.eq_top⟩
  | number q =>
      obtain ⟨ha, hb⟩ := between_number.1 h
      rcases lt_trichotomy q 0 with hq | rfl | hq
      · have hsign := (sign_of_le_neg ha hq).trans (sign_neg hq).symm
        exact ⟨a, .inl rfl, hsign, fun h => absurd rfl (h q)⟩
      · exact absurd sign_zero hz
      · have hsign := (sign_of_pos_le hb hq).trans (sign_pos hq).symm
        exact ⟨b, .inr rfl, hsign, fun h => absurd rfl (h q)⟩

/-- A product that no two numbers have is one of the corners. -/
theorem mul_mem_products (hu : Between a b u) (hv : Between c d v)
    (h : (∀ p, u ≠ number p) ∨ ∀ q, v ≠ number q) (hz : mul u v ≠ undefined) :
    mul u v ∈ products a b c d := by
  have hmul := mul_eq_ofSign h
  have hsign : u.sign * v.sign ≠ 0 := fun h => hz (hmul.trans (by rw [h]; rfl))
  obtain ⟨e, he, hesign, heq⟩ := exists_sign_eq hu (left_ne_zero_of_mul hsign)
  obtain ⟨f, hf, hfsign, hfeq⟩ := exists_sign_eq hv (right_ne_zero_of_mul hsign)
  have hends : mul e f = mul u v := by
    rw [hmul, ← hesign, ← hfsign]
    apply mul_eq_ofSign
    rcases h with h | h
    · exact .inl (heq h ▸ h)
    · exact .inr (hfeq h ▸ h)
  exact hends ▸ mem_products he hf

/-- The corners cover a product, unless none of them is defined. -/
theorem covers_products (hu : Between a b u) (hv : Between c d v)
    (h : ∃ k ∈ products a b c d, k ≠ undefined) : Covers (products a b c d) (mul u v) := by
  by_cases hnumbers : (∃ p, u = number p) ∧ ∃ q, v = number q
  · obtain ⟨⟨p, rfl⟩, q, rfl⟩ := hnumbers
    exact fun _ => ⟨fun _ => exists_product_le hu hv h, fun _ => exists_le_product hu hv h⟩
  · intro hz
    have hends : (∀ p, u ≠ number p) ∨ ∀ q, v ≠ number q := by
      simpa only [not_and_or, not_exists] using hnumbers
    exact covers_of_mem (mul_mem_products hu hv hends hz) hz

theorem mem_products_swap {k : Extended} : k ∈ products a b c d ↔ k ∈ products a b d c := by
  simp only [products, List.mem_cons, List.not_mem_nil, or_false]
  tauto

theorem Between.inv_of_pos {r : ℚ} (h : Between (number r) d (number q)) (hr : 0 < r) :
    Between d.inv (number r).inv (number q).inv := by
  obtain ⟨hc, hd⟩ := between_number.1 h
  have hrq := (le_number r q).1 hc
  have hq := hr.trans_le hrq
  rw [inv_number hr.ne', inv_number hq.ne', between_number]
  refine ⟨?_, (le_number ..).2 (inv_anti₀ hr hrq)⟩
  cases d with
  | undefined | bottom => exact absurd hd Bool.false_ne_true
  | top => exact (le_number ..).2 (inv_pos.2 hq).le
  | number s =>
      have hqs := (le_number q s).1 hd
      rw [inv_number (hq.trans_le hqs).ne', le_number]
      exact inv_anti₀ hq hqs

/-- Away from zero inverses are ordered the other way around. -/
theorem Between.inv (h : Between c d (number q))
    (hzero : ¬ (le c (number 0) && le (number 0) d) = true) :
    Between d.inv c.inv (number q).inv := by
  obtain ⟨hc, hd⟩ := between_number.1 h
  rw [Bool.and_eq_true, not_and_or] at hzero
  rcases hzero with hpos | hneg
  · cases c with
    | undefined | top => exact absurd hc Bool.false_ne_true
    | bottom => exact absurd rfl hpos
    | number r => exact h.inv_of_pos (not_le.1 fun hr => hpos ((le_number ..).2 hr))
  · cases d with
    | undefined | bottom => exact absurd hd Bool.false_ne_true
    | top => exact absurd rfl hneg
    | number r =>
        have hr : 0 < -r := neg_pos.2 (not_le.1 fun hr => hneg ((le_number ..).2 hr))
        have h := (Between.inv_of_pos h.neg hr).neg
        rwa [← Extended.neg, ← Extended.neg, neg_inv, neg_inv, neg_inv, Extended.neg_neg,
          Extended.neg_neg, Extended.neg_neg] at h

/-- What is defined and away from zero has ends other than zero. -/
theorem Between.ne_zero (h : Between c d v) (hv : v ≠ undefined)
    (hzero : ¬ (le c (number 0) && le (number 0) d) = true) : c ≠ number 0 ∧ d ≠ number 0 := by
  have hself : le (number 0) (number 0) = true := le_self.2 nofun
  obtain ⟨hlo, hhi⟩ := h hv
  constructor
  · rintro rfl
    apply hzero
    rw [hself, Bool.true_and]
    cases v with
    | bottom => exact absurd h.eq_bottom nofun
    | top => rw [h.eq_top]; rfl
    | undefined => exact absurd rfl hv
    | number q => exact Extended.le_trans (hlo nofun) (hhi nofun)
  · rintro rfl
    apply hzero
    rw [hself, Bool.and_true]
    cases v with
    | bottom => rw [h.eq_bottom]; rfl
    | top => exact absurd h.eq_top nofun
    | undefined => exact absurd rfl hv
    | number q => exact Extended.le_trans (hlo nofun) (hhi nofun)

theorem covers_zero (hu : Between a b (number p)) (hc : c = number 0 ∨ d = number 0)
    (h : ∃ k ∈ products a b c d, k ≠ undefined) : Covers (products a b c d) (number 0) := by
  obtain ⟨ha, hb⟩ := between_number.1 hu
  have hmem {e : Extended} {r : ℚ} (he : e = a ∨ e = b) (hr : e = number r) :
      number 0 ∈ products a b c d := by
    have hzero : mul e (number 0) = number 0 := by
      rw [hr, mul, mul_zero]
    rw [← hzero]
    exact mem_products he (hc.imp Eq.symm Eq.symm)
  cases a with
  | undefined | top => exact absurd ha Bool.false_ne_true
  | number r => exact covers_of_mem (hmem (.inl rfl) rfl)
  | bottom =>
      cases b with
      | undefined | bottom => exact absurd hb Bool.false_ne_true
      | number r => exact covers_of_mem (hmem (.inr rfl) rfl)
      | top =>
          obtain ⟨hbottom, htop⟩ := ends_mem_products h
          exact fun _ => ⟨fun _ => ⟨bottom, hbottom, rfl⟩, fun _ => ⟨top, htop, rfl⟩⟩

/-- The corners cover a quotient by a divisor that cannot be zero, unless none of them is
defined. -/
theorem covers_quotients (hu : Between a b u) (hv : Between c d v)
    (hzero : ¬ (le c (number 0) && le (number 0) d) = true)
    (h : ∃ k ∈ products a b c.inv d.inv, k ≠ undefined) :
    Covers (products a b c.inv d.inv) (mul u v.inv) := by
  have hends (hc : c.inv = number 0 ∨ d.inv = number 0) :
      Covers (products a b c.inv d.inv) (mul u (number 0)) := by
    by_cases hnumber : ∃ p, u = number p
    · obtain ⟨p, rfl⟩ := hnumber
      rw [mul, mul_zero]
      exact covers_zero hu hc h
    · have hundefined : mul u (number 0) = undefined := by
        rw [mul_eq_ofSign (.inl (not_exists.1 hnumber)), sign, sign_zero, mul_zero]
        rfl
      exact fun hz => absurd hundefined hz
  cases v with
  | undefined =>
      have hundefined : mul u undefined = undefined := by
        rw [show undefined = ofSign 0 from rfl, mul_ofSign, mul_zero]
      exact fun hz => absurd hundefined hz
  | bottom => exact hends (.inl (by rw [hv.eq_bottom]; rfl))
  | top => exact hends (.inr (by rw [hv.eq_top]; rfl))
  | number q =>
      obtain ⟨k, hk, hdefined⟩ := h
      have hcovers := covers_products hu (hv.inv hzero) ⟨k, mem_products_swap.1 hk, hdefined⟩
      exact hcovers.mono fun k hk => mem_products_swap.1 hk

end DiceOdds.Extended
