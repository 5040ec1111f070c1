import DiceOdds.Proofs.Leaves
import DiceOdds.Sampling.Basic

namespace DiceOdds

variable {α : Type} [Scalar α]

def Expr.value : Expr → List α → α
  | .roll r, totals => if r.isConstant then r.least else totals.headD Scalar.neutral
  | .binary l op r, totals =>
    op.apply (l.value (totals.take l.rolls.length)) (r.value (totals.drop l.rolls.length))

theorem Expr.value_binary_append (l : Expr) (op : Operator) (r : Expr) {xs : List α}
    (h : xs.length = l.rolls.length) (ys : List α) :
    (Expr.binary l op r).value (xs ++ ys) = op.apply (l.value xs) (r.value ys) := by
  rw [Expr.value, List.take_left' h, List.drop_left' h]

namespace Sampling

variable {m : Type → Type} [Monad m] [LawfulMonad m]

/-- What follows a run over a list only sees results of that list's length. -/
theorem bind_mapM_congr {β γ δ : Type} (f : β → m γ) (bs : List β) (g g' : List γ → m δ)
    (h : ∀ xs, xs.length = bs.length → g xs = g' xs) : bs.mapM f >>= g = bs.mapM f >>= g' := by
  induction bs generalizing g g' with
  | nil => simpa using h [] rfl
  | cons b bs ih =>
      simp only [List.mapM_cons, bind_assoc, pure_bind]
      congr 1
      funext x
      exact ih _ _ fun xs hxs => h (x :: xs) (by simp [hxs])

/-- A walk of the tree makes its rolls from left to right, and computes afterwards. -/
theorem one_eq_mapM (roller : Roller m α) (e : Expr) :
    one roller e = e.rolls.mapM roller >>= fun totals => pure (e.value totals) := by
  induction e with
  | roll r =>
      cases h : r.isConstant with
      | true => simp [one, Expr.rolls_constant h, Expr.value, h]
      | false => simp [one, Expr.rolls_roll h, Expr.value, h]
  | binary l op r ihl ihr =>
      simp only [one, ihl, ihr, Expr.rolls_binary, List.mapM_append, bind_assoc, pure_bind]
      apply bind_mapM_congr
      intro xs hxs
      simp only [Expr.value_binary_append l op r hxs]

theorem draws_of_rolls_eq_nil {e : Expr} (h : e.rolls = []) (roller : Roller m α) (n : Nat) :
    draws roller e n = pure (List.replicate n (e.value [])) := by
  have hone : one roller e = pure (e.value []) := by
    rw [one_eq_mapM, h, List.mapM_nil, pure_bind]
  rw [draws]
  induction n with
  | zero => rfl
  | succ n ih =>
      rw [List.replicate_succ, List.mapM_cons, hone, pure_bind, ih, pure_bind, List.replicate_succ]

theorem run_samples (roller : Roller m α) (e : Expr) (n : Nat) (journal : Journal) :
    (samples roller e n).run journal =
      (fun xs => (xs, journal ++ [startRecord e n])) <$> draws roller e n := by
  simp [samples, Journaled.write]

end Sampling

end DiceOdds
