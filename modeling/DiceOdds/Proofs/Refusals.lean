import DiceOdds.Proofs.Counting

namespace DiceOdds

def Roll.products (r : Roll) : List ℕ :=
  if r.isConstant then [] else (List.range (r.count.val - 1)).map fun i => r.sides.val ^ (i + 2)

namespace Expr

/-- The numbers of outcomes that a walk checks, in the order in which it meets them. -/
def products : Expr → List ℕ
  | roll r => r.products
  | binary l _ r => l.products ++ (r.products ++ [l.dice.prod * r.dice.prod])

def Lone (e : Expr) : Prop := ∃ r, e = roll r ∧ (r.isConstant = true ∨ r.count.val = 1)

theorem Lone.products_eq_nil {e : Expr} (h : e.Lone) : e.products = [] := by
  obtain ⟨r, rfl, hconstant | hone⟩ := h
  · simp [products, Roll.products, hconstant]
  · simp [products, Roll.products, hone]

theorem dice_roll {r : Roll} (h : r.isConstant = false) :
    (roll r).dice.prod = r.sides.val ^ r.count.val := by
  rw [dice, rolls_roll h, List.flatMap_singleton, Roll.prod_dice]

/-- No part of an expression has more outcomes than all of it. -/
theorem le_of_mem_products {e : Expr} {n : ℕ} (h : n ∈ e.products) : n ≤ e.dice.prod := by
  induction e with
  | roll r =>
      cases hr : r.isConstant with
      | true => simp [products, Roll.products, hr] at h
      | false =>
          simp only [products, Roll.products, hr, Bool.false_eq_true, if_false, List.mem_map,
            List.mem_range] at h
          obtain ⟨i, hi, rfl⟩ := h
          rw [dice_roll hr]
          exact Nat.pow_le_pow_right r.sides.pos (by omega)
  | binary l op r ihl ihr =>
      rw [dice_binary, List.prod_append]
      simp only [products, List.mem_append, List.mem_singleton] at h
      rcases h with hl | hr | rfl
      · exact Nat.le_trans (ihl hl) (Nat.le_mul_of_pos_right _ r.prod_dice_pos)
      · exact Nat.le_trans (ihr hr) (Nat.le_mul_of_pos_left _ l.prod_dice_pos)
      · exact Nat.le_refl _

/-- The last of the numbers is that of all outcomes. -/
theorem prod_dice_mem_products {e : Expr} (h : ¬ e.Lone) : e.dice.prod ∈ e.products := by
  cases e with
  | roll r =>
      have hconstant : r.isConstant = false := by
        by_contra hr
        exact h ⟨r, rfl, .inl (by simpa using hr)⟩
      have hone : r.count.val ≠ 1 := fun hr => h ⟨r, rfl, .inr hr⟩
      have hpos := r.count.pos
      rw [dice_roll hconstant]
      simp only [products, Roll.products, hconstant, Bool.false_eq_true, if_false, List.mem_map,
        List.mem_range]
      exact ⟨r.count.val - 2, by omega, by congr 1; omega⟩
  | binary l op r =>
      rw [dice_binary, List.prod_append]
      simp [products]

end Expr

namespace Cap

def refusal (cap : Cap) (n : ℕ) : Option Overflow :=
  if 2 ^ 64 ≤ n then some .uncountable
  else cap.bind fun limit => if limit < n then some (.tooManyOutcomes n limit) else none

variable {cap : Cap} {n : ℕ}

theorem refusal_eq_none_iff : cap.refusal n = none ↔ cap.Fits n := by
  rw [refusal, Fits]
  split_ifs with hlarge
  · constructor
    · intro h
      cases h
    · intro h
      exact absurd hlarge (Nat.not_le.2 h.1)
  · have hcounted := Nat.not_le.1 hlarge
    simp only [Option.bind_eq_none_iff, ite_eq_right_iff, reduceCtorEq, imp_false, Nat.not_lt,
      hcounted, true_and]

theorem exists_refusal (h : ¬ cap.Fits n) : ∃ o, cap.refusal n = some o :=
  Option.ne_none_iff_exists'.1 (mt refusal_eq_none_iff.1 h)

theorem refusal_eq_tooMany {k limit : ℕ} (h : cap.refusal n = some (.tooManyOutcomes k limit)) :
    k = n ∧ cap = some limit ∧ limit < n := by
  rw [refusal] at h
  split_ifs at h
  · cases h
  · obtain ⟨limit', rfl, hrefused⟩ := Option.bind_eq_some_iff.1 h
    split_ifs at hrefused with hlimit
    cases hrefused
    exact ⟨rfl, rfl, hlimit⟩

theorem allow_eq (cap : Cap) (n : ℕ) :
    cap.allow (countable n) =
      match cap.refusal n with
      | some o => .error o
      | none => .ok n := by
  rw [refusal]
  split_ifs with hlarge
  · rw [countable_eq_none_iff.2 hlarge]
    rfl
  · rw [countable_eq_some_iff.2 ⟨rfl, Nat.not_le.1 hlarge⟩]
    cases cap with
    | none => rfl
    | some limit =>
        rw [allow, Option.bind_some]
        split_ifs <;> rfl

theorem allow_of_not_fits {e : Expr} (h : ¬ cap.Fits e.dice.prod) :
    ∃ o, cap.allow e.outcomeCount = .error o := by
  obtain ⟨o, ho⟩ := exists_refusal h
  rw [Expr.outcomeCount_eq, allow_eq, ho]
  exact ⟨o, rfl⟩

end Cap

namespace Enumeration

def Ends {β : Type} (x : Enumeration β) (result : Except Overflow β) : Prop :=
  ∀ journal, (x.run.run journal).1 = result

/-- A value that is reached if none of some numbers of outcomes is refused; else the first of those
that are decides. -/
def guarded {β : Type} (cap : Cap) (ns : List ℕ) (b : β) : Except Overflow β :=
  match ns.findSome? cap.refusal with
  | some o => .error o
  | none => .ok b

variable {cap : Cap}

theorem guarded_eq_ok {β : Type} {ns : List ℕ} {b v : β} :
    guarded cap ns b = .ok v ↔ b = v ∧ ∀ n ∈ ns, cap.Fits n := by
  simp only [← Cap.refusal_eq_none_iff, ← List.findSome?_eq_none_iff]
  rw [guarded]
  cases ns.findSome? cap.refusal with
  | none => simp
  | some o => simp

theorem exists_guarded_eq_error {β : Type} {ns : List ℕ} {b : β} :
    (∃ o, guarded cap ns b = .error o) ↔ ∃ n ∈ ns, ¬ cap.Fits n := by
  cases hresult : guarded cap ns b with
  | ok v =>
      obtain ⟨-, hfits⟩ := guarded_eq_ok.1 hresult
      refine ⟨nofun, ?_⟩
      rintro ⟨n, hn, hrefused⟩
      exact absurd (hfits n hn) hrefused
  | error o =>
      refine ⟨fun _ => ?_, fun _ => ⟨o, rfl⟩⟩
      by_contra hnone
      push Not at hnone
      rw [guarded_eq_ok.2 ⟨rfl, hnone⟩] at hresult
      cases hresult

theorem guarded_of_refusal {β : Type} {n : ℕ} {o : Overflow} (h : cap.refusal n = some o)
    (ns : List ℕ) (b : β) : guarded cap (n :: ns) b = .error o := by
  rw [guarded, List.findSome?_cons, h]

theorem guarded_eq_tooMany {β : Type} {ns : List ℕ} {b : β} {n limit : ℕ}
    (h : guarded cap ns b = .error (.tooManyOutcomes n limit)) :
    cap = some limit ∧
      ∃ before after, ns = before ++ n :: after ∧ limit < n ∧ ∀ k ∈ before, k ≤ limit := by
  rw [guarded] at h
  cases hfirst : ns.findSome? cap.refusal with
  | none =>
      rw [hfirst] at h
      cases h
  | some o =>
      rw [hfirst] at h
      obtain rfl := Except.error.inj h
      obtain ⟨before, k, after, rfl, hk, hbefore⟩ := List.findSome?_eq_some_iff.1 hfirst
      obtain ⟨rfl, hcap, hlimit⟩ := Cap.refusal_eq_tooMany hk
      refine ⟨hcap, before, after, rfl, hlimit, fun j hj => ?_⟩
      exact (Cap.refusal_eq_none_iff.1 (hbefore j hj)).2 limit hcap

section Guards

variable {β γ : Type}

theorem ends_pure (cap : Cap) (b : β) : Ends (pure b) (guarded cap [] b) := fun _ => rfl

theorem ends_write (cap : Cap) (r : Record) : Ends (write r) (guarded cap [] ()) := fun _ => rfl

theorem ends_check (cap : Cap) (n : ℕ) : Ends (check cap (countable n)) (guarded cap [n] n) := by
  intro journal
  rw [guarded, List.findSome?_cons]
  refine (Cap.allow_eq cap n).trans ?_
  cases cap.refusal n <;> rfl

theorem Ends.bind {x : Enumeration β} {f : β → Enumeration γ} {ns ms : List ℕ} {b : β} {c : γ}
    (hx : Ends x (guarded cap ns b)) (hf : Ends (f b) (guarded cap ms c)) :
    Ends (x >>= f) (guarded cap (ns ++ ms) c) := by
  intro journal
  rw [ExceptT.run_bind, StateT.run_bind]
  have hresult := hx journal
  cases hrun : x.run.run journal with
  | mk result journal' =>
      rw [hrun] at hresult
      rw [guarded] at hresult
      rw [guarded, List.findSome?_append]
      cases hns : ns.findSome? cap.refusal with
      | some o =>
          rw [hns] at hresult
          obtain rfl : result = .error o := hresult
          rfl
      | none =>
          rw [hns] at hresult
          obtain rfl : result = .ok b := hresult
          exact hf journal'

end Guards

variable {α : Type} [Scalar α]

theorem ends_combine (cap : Cap) (op : Operator) (xs ys : List α) :
    Ends (combine cap op xs ys) (guarded cap [xs.length * ys.length] (pairs op xs ys)) :=
  (ends_check cap _).bind (ends_pure cap _)

theorem exists_ends_addDice (cap : Cap) (sides : Quantity) (n : ℕ) (xs : List α) :
    ∃ zs, zs.length = xs.length * sides.val ^ n ∧
      Ends (addDice cap sides n xs)
        (guarded cap ((List.range n).map fun i => xs.length * sides.val ^ (i + 1)) zs) := by
  induction n generalizing xs with
  | zero => exact ⟨xs, (mul_one _).symm, ends_pure cap xs⟩
  | succ n ih =>
      obtain ⟨zs, hlength, hzs⟩ := ih (pairs .add xs (faces sides))
      have hpairs : (pairs .add xs (faces sides)).length = xs.length * sides.val := by
        rw [length_pairs, length_faces]
      have hfirst := ends_combine cap .add xs (faces sides)
      rw [length_faces] at hfirst
      simp only [hpairs, mul_assoc, ← pow_succ'] at hlength hzs
      refine ⟨zs, hlength, ?_⟩
      rw [List.range_succ_eq_map, List.map_cons, List.map_map, zero_add, pow_one]
      exact hfirst.bind ((ends_write cap _).bind hzs)

theorem exists_ends_roll (cap : Cap) (r : Roll) :
    ∃ zs : List α, zs.length = (Expr.roll r).dice.prod ∧
      Ends (roll cap r) (guarded cap r.products zs) := by
  cases hr : r.isConstant with
  | true =>
      rw [roll, hr, if_pos rfl, Roll.products, hr, if_pos rfl, Expr.dice, Expr.rolls_constant hr]
      exact ⟨[r.least], rfl, ends_pure cap _⟩
  | false =>
      obtain ⟨zs, hlength, hzs⟩ :=
        exists_ends_addDice cap r.sides (r.count.val - 1) (faces r.sides : List α)
      simp only [length_faces, ← pow_succ', Nat.sub_add_cancel r.count.pos] at hlength hzs
      rw [roll, hr, if_neg Bool.false_ne_true, Roll.products, hr, if_neg Bool.false_ne_true,
        Expr.dice_roll hr]
      exact ⟨zs, hlength, hzs⟩

/-- The products are checked one after another, and the first that is refused ends the walk. -/
theorem exists_ends_walk (cap : Cap) (e : Expr) :
    ∃ zs : List α, zs.length = e.dice.prod ∧ Ends (walk cap e) (guarded cap e.products zs) := by
  induction e with
  | roll r => exact exists_ends_roll cap r
  | binary l op r ihl ihr =>
      obtain ⟨xs, hxs, hl⟩ := ihl
      obtain ⟨ys, hys, hr⟩ := ihr
      have hlast := ends_combine cap op xs ys
      rw [hxs, hys] at hlast
      refine ⟨pairs op xs ys, ?_, hl.bind (hr.bind hlast)⟩
      rw [length_pairs, hxs, hys, Expr.dice_binary, List.prod_append]

theorem Ends.outcomes {cap : Cap} {e : Expr} {zs : List α}
    (h : Ends (walk cap e) (guarded cap e.products zs)) :
    Ends (outcomes cap e) (guarded cap (e.dice.prod :: e.products) zs) := by
  rw [Enumeration.outcomes, Expr.outcomeCount_eq]
  exact (ends_check cap _).bind ((ends_write cap _).bind h)

/-- To check what is combined comes to the same as to check all outcomes first, except for a
constant and a single die, which are never refused on the way. A walk is refused if and only if one
of the numbers that it meets is over the limit or cannot be counted; if it meets too many outcomes
it names the first number over the limit. -/
theorem walk_agrees (e : Expr) (cap : Cap) (journal : Journal) :
    let direct : Except Overflow (List α) := ((walk cap e).run.run journal).1
    let checked : Except Overflow (List α) := ((outcomes cap e).run.run journal).1
    (¬ e.Lone → ∀ v, direct = .ok v ↔ checked = .ok v) ∧
    ((∃ o, direct = .error o) ↔
      ∃ n ∈ e.products, 2 ^ 64 ≤ n ∨ ∃ limit, cap = some limit ∧ limit < n) ∧
    (∀ n limit, direct = .error (.tooManyOutcomes n limit) →
      cap = some limit ∧
      (∃ before after, e.products = before ++ n :: after ∧ limit < n ∧ ∀ k ∈ before, k ≤ limit) ∧
      ∀ total, e.outcomeCount = some total → n ≤ total) ∧
    (e.Lone → ∃ v, direct = .ok v) := by
  intro direct checked
  obtain ⟨zs, -, hzs⟩ := exists_ends_walk (α := α) cap e
  have hdirect : direct = guarded cap e.products zs := hzs journal
  have hchecked : checked = guarded cap (e.dice.prod :: e.products) zs := hzs.outcomes journal
  refine ⟨?_, ?_, ?_, ?_⟩
  · intro hlone v
    rw [hdirect, hchecked, guarded_eq_ok, guarded_eq_ok, List.forall_mem_cons]
    have hall (h : ∀ n ∈ e.products, cap.Fits n) : cap.Fits e.dice.prod :=
      h _ (Expr.prod_dice_mem_products hlone)
    tauto
  · simp only [hdirect, exists_guarded_eq_error, Cap.not_fits_iff]
  · intro n limit h
    rw [hdirect] at h
    obtain ⟨hcap, before, after, hproducts, hlimit, hbefore⟩ := guarded_eq_tooMany h
    refine ⟨hcap, ⟨before, after, hproducts, hlimit, hbefore⟩, fun total htotal => ?_⟩
    rw [Expr.outcomeCount_eq, countable_eq_some_iff] at htotal
    rw [← htotal.1]
    exact Expr.le_of_mem_products (by simp [hproducts])
  · intro hlone
    refine ⟨zs, ?_⟩
    rw [hdirect, hlone.products_eq_nil]
    rfl

/-- The number of all outcomes is checked first and is the largest that is checked, so that it
decides alone. -/
theorem ends_table (cap : Cap) (e : Expr) :
    Ends (outcomes cap e) (guarded cap [e.dice.prod] (e.table : List α)) := by
  intro journal
  obtain ⟨zs, -, hzs⟩ := exists_ends_walk (α := α) cap e
  rw [hzs.outcomes journal]
  by_cases hfits : cap.Fits e.dice.prod
  · have hproducts : ∀ n ∈ e.products, cap.Fits n := fun n hn =>
      hfits.mono (Expr.le_of_mem_products hn)
    have hwalk : guarded cap e.products zs = .ok zs := guarded_eq_ok.2 ⟨rfl, hproducts⟩
    obtain rfl : zs = e.table := Gives.of_walk ⟨journal, (hzs journal).trans hwalk⟩
    have hall := List.forall_mem_cons.2 ⟨hfits, hproducts⟩
    rw [guarded_eq_ok.2 ⟨rfl, hall⟩, guarded_eq_ok.2 ⟨rfl, List.forall_mem_singleton.2 hfits⟩]
  · obtain ⟨o, ho⟩ := Cap.exists_refusal hfits
    rw [guarded_of_refusal ho, guarded_of_refusal ho]

theorem outcomes_eq_ok_iff {cap : Cap} {e : Expr} {journal : Journal} {v : List α} :
    ((outcomes cap e).run.run journal).1 = .ok v ↔ cap.Fits e.dice.prod ∧ e.table = v := by
  rw [ends_table cap e journal, guarded_eq_ok, List.forall_mem_singleton, and_comm]

theorem outcomes_of_fits {cap : Cap} {e : Expr} (h : cap.Fits e.dice.prod) (journal : Journal) :
    ((outcomes cap e).run.run journal).1 = .ok (e.table : List α) :=
  outcomes_eq_ok_iff.2 ⟨h, rfl⟩

/-- The number of outcomes decides alone whether they are listed, and none of them is lost. -/
theorem outcomes_ok_iff_count (e : Expr) (cap : Cap) (journal : Journal) :
    let result : Except Overflow (List α) := ((outcomes cap e).run.run journal).1
    ((∃ v, result = .ok v) ↔ ∃ n, e.outcomeCount = some n ∧ ∀ m, cap = some m → n ≤ m) ∧
    (∀ v, result = .ok v → e.outcomeCount = some v.length) ∧
    (e.outcomeCount = none → result = .error .uncountable) ∧
    (∀ n m, e.outcomeCount = some n → cap = some m → m < n →
      result = .error (.tooManyOutcomes n m)) := by
  intro result
  have hok {v : List α} : result = .ok v ↔ cap.Fits e.dice.prod ∧ e.table = v :=
    outcomes_eq_ok_iff
  refine ⟨⟨?_, ?_⟩, ?_, ?_, ?_⟩
  · rintro ⟨v, hv⟩
    obtain ⟨hfits, -⟩ := hok.1 hv
    exact ⟨_, hfits.outcomeCount, hfits.2⟩
  · rintro ⟨n, hcount, hcap⟩
    rw [Expr.outcomeCount_eq, countable_eq_some_iff] at hcount
    obtain ⟨rfl, hlt⟩ := hcount
    exact ⟨_, hok.2 ⟨⟨hlt, hcap⟩, rfl⟩⟩
  · intro v hv
    obtain ⟨hfits, rfl⟩ := hok.1 hv
    rw [Expr.length_table, hfits.outcomeCount]
  · intro hnone
    apply outcomes_eq_error
    rw [hnone]
    rfl
  · intro n m hcount hcap hlt
    apply outcomes_eq_error
    rw [hcount, hcap]
    exact if_pos hlt

/-- As many outcomes are refused alike, or else the tables decide. -/
theorem run_outcomes_congr {e e' : Expr} {cap : Cap} (hdice : e.dice.prod = e'.dice.prod)
    (htable : cap.Fits e.dice.prod → (e.table : List α) = e'.table) (journal : Journal) :
    ((outcomes cap e : Enumeration (List α)).run.run journal).1 =
      ((outcomes cap e').run.run journal).1 := by
  rw [ends_table cap e journal, ends_table cap e' journal, ← hdice]
  by_cases hfits : cap.Fits e.dice.prod
  · rw [htable hfits]
  · obtain ⟨o, ho⟩ := Cap.exists_refusal hfits
    rw [guarded_of_refusal ho, guarded_of_refusal ho]

end Enumeration

end DiceOdds
