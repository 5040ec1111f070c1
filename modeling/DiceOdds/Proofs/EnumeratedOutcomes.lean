import DiceOdds.Enumeration
import DiceOdds.Proofs.MixedRadix
import DiceOdds.Proofs.SampledValue

namespace DiceOdds

open MixedRadix

variable {α : Type} [Scalar α]

namespace Roll

def faceSum : List Nat → α
  | [] => Scalar.neutral
  | f :: fs => fs.foldl (fun x f => x + Scalar.ofNat f) (Scalar.ofNat f)

def totals : List Roll → List Nat → List α
  | [], _ => []
  | r :: rs, fs => faceSum (fs.take r.count.val) :: totals rs (fs.drop r.count.val)

theorem faceSum_append_singleton {fs : List Nat} (h : fs ≠ []) (f : Nat) :
    (faceSum (fs ++ [f]) : α) = faceSum fs + Scalar.ofNat f := by
  cases fs with
  | nil => exact absurd rfl h
  | cons g fs => simp [faceSum, List.foldl_append]

theorem length_dice (r : Roll) : r.dice.length = r.count.val := List.length_replicate

theorem length_totals (rs : List Roll) (fs : List Nat) :
    (totals rs fs : List α).length = rs.length := by
  induction rs generalizing fs with
  | nil => rfl
  | cons r rs ih => simp [totals, ih]

theorem totals_append (rs ss : List Roll) {fs : List Nat}
    (h : fs.length = (rs.flatMap dice).length) (gs : List Nat) :
    (totals (rs ++ ss) (fs ++ gs) : List α) = totals rs fs ++ totals ss gs := by
  induction rs generalizing fs with
  | nil =>
      have hf : fs = [] := by simpa using h
      rw [hf]
      rfl
  | cons r rs ih =>
      rw [List.flatMap_cons, List.length_append, length_dice] at h
      have hr : r.count.val ≤ fs.length := by omega
      rw [List.cons_append, totals, totals, List.take_append_of_le_length hr,
        List.drop_append_of_le_length hr, ih (by rw [List.length_drop]; omega)]
      rfl

end Roll

/-- What an expression comes to at every choice of faces, in the order of the faces. -/
def Expr.table (e : Expr) : List α :=
  tabulate e.dice fun ds => e.value (Roll.totals e.rolls (ds.map Nat.succ))

theorem Expr.length_table (e : Expr) : (e.table : List α).length = e.dice.prod :=
  length_tabulate ..

namespace Enumeration

def Gives {β : Type} (x : Enumeration β) (b : β) : Prop :=
  ∃ journal, (x.run.run journal).1 = .ok b

theorem Gives.of_pure {β : Type} {b b' : β} (h : Gives (pure b) b') : b = b' := by
  obtain ⟨journal, h⟩ := h
  exact Except.ok.inj h

theorem Gives.of_bind {β γ : Type} {x : Enumeration β} {f : β → Enumeration γ} {c : γ}
    (h : Gives (x >>= f) c) : ∃ b, Gives x b ∧ Gives (f b) c := by
  obtain ⟨journal, h⟩ := h
  rw [ExceptT.run_bind, StateT.run_bind] at h
  cases hx : x.run.run journal with
  | mk result journal' =>
      rw [hx] at h
      cases result with
      | error o => cases h
      | ok b => exact ⟨b, ⟨journal, by rw [hx]⟩, ⟨journal', h⟩⟩

theorem faces_eq_tabulate (sides : Quantity) :
    (faces sides : List α) = tabulate [sides.val] fun ds => Roll.faceSum (ds.map Nat.succ) := by
  rw [tabulate_singleton]
  rfl

/-- The operator at every pair of two tables is a table over the bases of both. -/
theorem pairs_tabulate (op : Operator) (as bs : List Nat) (f g h : List Nat → α)
    (hop : ∀ xs ys, xs.length = as.length → ys.length = bs.length →
      op.apply (f xs) (g ys) = h (xs ++ ys)) :
    pairs op (tabulate as f) (tabulate bs g) = tabulate (as ++ bs) h := by
  rw [tabulate_append, pairs, tabulate, tabulate, List.flatMap_map]
  simp only [List.map_map]
  congr 1
  funext i
  apply List.map_congr_left
  intro j _
  exact hop _ _ (length_digits as i) (length_digits bs j)

theorem Gives.of_combine {cap : Cap} {op : Operator} {xs ys zs : List α}
    (h : Gives (combine cap op xs ys) zs) : zs = pairs op xs ys := by
  obtain ⟨n, _, h⟩ := h.of_bind
  exact h.of_pure.symm

theorem Gives.of_addDice {cap : Cap} {sides : Quantity} {n k : Nat} {xs zs : List α}
    (h : Gives (addDice cap sides n xs) zs)
    (hxs : xs = tabulate (List.replicate (k + 1) sides.val) fun ds =>
      Roll.faceSum (ds.map Nat.succ)) :
    zs = tabulate (List.replicate (n + (k + 1)) sides.val) fun ds =>
      Roll.faceSum (ds.map Nat.succ) := by
  induction n generalizing k xs with
  | zero =>
      rw [Nat.zero_add, ← hxs]
      exact h.of_pure.symm
  | succ n ih =>
      obtain ⟨ys, hys, h⟩ := h.of_bind
      obtain ⟨_, _, h⟩ := h.of_bind
      rw [Nat.succ_add_eq_add_succ]
      apply ih h
      rw [hys.of_combine, hxs, faces_eq_tabulate, List.replicate_succ' (n := k + 1)]
      apply pairs_tabulate
      intro ds es hds hes
      obtain ⟨e, rfl⟩ := List.length_eq_one_iff.1 hes
      have hne : ds.map Nat.succ ≠ [] := by
        intro hnil
        simp [List.map_eq_nil_iff.1 hnil] at hds
      rw [List.map_append, List.map_singleton, Roll.faceSum_append_singleton hne]
      rfl

/-- Without a refusal a roll is enumerated to its face sums, in the order of the faces. -/
theorem Gives.of_roll {cap : Cap} {r : Roll} {zs : List α} (h : Gives (roll cap r) zs) :
    zs = tabulate (Expr.roll r).dice fun ds =>
      (Expr.roll r).value (Roll.totals (Expr.roll r).rolls (ds.map Nat.succ)) := by
  cases hr : r.isConstant with
  | true =>
      rw [roll, hr, if_pos rfl] at h
      rw [Expr.dice, Expr.rolls_constant hr, ← h.of_pure]
      simp [tabulate_nil, Expr.value, hr]
  | false =>
      rw [roll, hr, if_neg Bool.false_ne_true] at h
      have hcount : r.count.val - 1 + (0 + 1) = r.count.val := by have := r.count.pos; omega
      have hzs := h.of_addDice (k := 0) (faces_eq_tabulate r.sides)
      rw [hcount] at hzs
      rw [hzs, Expr.dice, Expr.rolls_roll hr, List.flatMap_singleton]
      apply tabulate_congr
      intro ds hds
      have htake : (ds.map Nat.succ).take r.count.val = ds.map Nat.succ := by
        apply List.take_of_length_le
        rw [List.length_map, hds]
        exact Nat.le_of_eq (Roll.length_dice r)
      simp [Expr.value, hr, Roll.totals, htake]

/-- An operator pairs every choice of faces for the left dice with every choice for the right. -/
theorem pairs_table (l : Expr) (op : Operator) (r : Expr) :
    pairs op (l.table : List α) r.table = (Expr.binary l op r).table := by
  rw [Expr.table, Expr.table, Expr.table, Expr.dice_binary]
  apply pairs_tabulate
  intro ds es hds _
  have hfaces : (ds.map Nat.succ).length = (l.rolls.flatMap Roll.dice).length := by
    rw [List.length_map]
    exact hds
  have htotals : (Roll.totals l.rolls (ds.map Nat.succ) : List α).length = l.rolls.length :=
    Roll.length_totals _ _
  rw [Expr.rolls_binary, List.map_append, Roll.totals_append _ _ hfaces,
    Expr.value_binary_append l op r htotals]

theorem Gives.of_walk {cap : Cap} {e : Expr} {zs : List α} (h : Gives (walk cap e) zs) :
    zs = tabulate e.dice fun ds => e.value (Roll.totals e.rolls (ds.map Nat.succ)) := by
  induction e generalizing zs with
  | roll r => exact Gives.of_roll h
  | binary l op r ihl ihr =>
      obtain ⟨xs, hxs, h⟩ := h.of_bind
      obtain ⟨ys, hys, h⟩ := h.of_bind
      rw [h.of_combine, ihl hxs, ihr hys]
      exact pairs_table l op r

theorem Gives.of_outcomes {cap : Cap} {e : Expr} {zs : List α} (h : Gives (outcomes cap e) zs) :
    Gives (walk cap e) zs := by
  obtain ⟨_, _, h⟩ := h.of_bind
  obtain ⟨_, _, h⟩ := h.of_bind
  exact h

/-- The outcomes of an expression are the values that are sampled at each choice of faces, one for
every choice, in the order of the faces: the `k`th choice is `k` in mixed radix, its first die
being the most significant. -/
theorem outcomes_eq_samples (e : Expr) (cap : Cap) (journal : Journal) (v : List α)
    (h : ((outcomes cap e).run.run journal).1 = .ok v) :
    v.length = e.dice.prod ∧
    (∀ (k : Nat) (hk : k < v.length) {σ : Type} (roller : Roller (StateM σ) α) (s s' : σ),
      (e.rolls.mapM roller).run s =
        (Roll.totals e.rolls ((digits e.dice k).map Nat.succ), s') →
      (Sampling.one roller e).run s = (v[k], s')) ∧
    (e.rolls = [] → ∃ x, v = [x] ∧
      ∀ (m : Type → Type) [Monad m] [LawfulMonad m] (roller : Roller m α) (n : Nat),
        Sampling.draws roller e n = pure (List.replicate n x)) := by
  have hv := Gives.of_walk (Gives.of_outcomes ⟨journal, h⟩)
  refine ⟨?_, ?_, ?_⟩
  · rw [hv, length_tabulate]
  · intro k hk σ roller s s' hs
    have hvk : v[k] = e.value (Roll.totals e.rolls ((digits e.dice k).map Nat.succ)) := by
      subst hv
      exact getElem_tabulate _ _ k hk
    rw [Sampling.one_eq_mapM, StateT.run_bind, hs, hvk]
    rfl
  · intro he
    refine ⟨e.value [], ?_, ?_⟩
    · rw [hv, Expr.dice, he]
      rfl
    · intro m _ _ roller n
      exact Sampling.draws_of_rolls_eq_nil he roller n

/-- Two dice with two sides less one with three: the eighth of twelve outcomes has the faces two
and one, and two. -/
theorem outcomes_eq_samples_at_seven :
    let two : Quantity := ⟨2, by decide, by decide⟩
    let three : Quantity := ⟨3, by decide, by decide⟩
    let e : Expr := .binary (.roll ⟨two, two⟩) .sub (.roll ⟨.one, three⟩)
    let deal : Roller (StateM (List Float)) Float := fun _ xs => (xs.headD 0, xs.tail)
    let script : List Float := [Scalar.ofNat 2 + Scalar.ofNat 1, Scalar.ofNat 2]
    ∃ v : List Float, ((outcomes (some 12) e).run.run []).1 = .ok v ∧
      (e.rolls.mapM deal).run script = (script, []) ∧
      v.length = 12 ∧ ∃ hk : 7 < v.length, (Sampling.one deal e).run script = (v[7], []) := by
  intro two three e deal script
  refine ⟨_, rfl, rfl, ?_⟩
  obtain ⟨hlength, hvalue, _⟩ := outcomes_eq_samples e (some 12) [] (_ : List Float) rfl
  have hk := hlength.symm ▸ (by decide : 7 < e.dice.prod)
  have hdigits : digits e.dice 7 = [1, 0, 1] := by decide
  have hdeal : (e.rolls.mapM deal).run script =
      (Roll.totals e.rolls ((digits e.dice 7).map Nat.succ), []) := by
    rw [hdigits]
    rfl
  exact ⟨hlength, hk, hvalue 7 hk deal script [] hdeal⟩

end Enumeration

end DiceOdds
