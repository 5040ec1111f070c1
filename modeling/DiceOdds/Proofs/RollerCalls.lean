import DiceOdds.Proofs.Results
import DiceOdds.Proofs.SampledValue

namespace DiceOdds.Sampling

section Blocks

variable {β : Type}

def block (k i : Nat) (xs : List β) : List β := (xs.drop (i * k)).take k

theorem block_zero {k : Nat} {xs : List β} (h : xs.length = k) (ys : List β) :
    block k 0 (xs ++ ys) = xs := by
  rw [block, Nat.zero_mul, List.drop_zero, List.take_left' h]

theorem block_succ {k : Nat} {xs : List β} (h : xs.length = k) (i : Nat) (ys : List β) :
    block k (i + 1) (xs ++ ys) = block k i ys := by
  rw [block, block, Nat.succ_mul, Nat.add_comm, ← List.drop_drop, List.drop_left' h]

end Blocks

variable {m : Type → Type} [Monad m] {α : Type} [Scalar α]

def requests (e : Expr) (n : Nat) : List Roll := (List.replicate n e.rolls).flatten

def values (e : Expr) (n : Nat) (totals : List α) : List α :=
  (List.range n).map fun i => e.value (block e.rolls.length i totals)

theorem length_requests (e : Expr) (n : Nat) : (requests e n).length = n * e.rolls.length := by
  simp [requests]

theorem requests_succ (e : Expr) (n : Nat) : requests e (n + 1) = e.rolls ++ requests e n := by
  simp [requests, List.replicate_succ]

theorem values_succ (e : Expr) (n : Nat) {xs : List α} (h : xs.length = e.rolls.length)
    (ys : List α) : values e (n + 1) (xs ++ ys) = e.value xs :: values e n ys := by
  simp only [values, List.range_succ_eq_map, List.map_cons, List.map_map, block_zero h]
  congr 2
  funext i
  exact congrArg e.value (block_succ h i ys)

def recorded (roller : Roller m α) : Roller (StateT (List Roll) m) α := fun r => do
  modify (· ++ [r])
  StateT.lift (roller r)

variable [LawfulMonad m]

/-- All rolls of all samples are made from first to last; the samples are computed from them. -/
theorem draws_eq_mapM (roller : Roller m α) (e : Expr) (n : Nat) :
    draws roller e n = (requests e n).mapM roller >>= fun totals => pure (values e n totals) := by
  induction n with
  | zero => simp [draws, requests, values]
  | succ n ih =>
      rw [draws] at ih ⊢
      simp only [List.replicate_succ, List.mapM_cons, ih, one_eq_mapM, requests_succ,
        List.mapM_append, bind_assoc, pure_bind]
      apply bind_mapM_congr
      intro xs hxs
      simp only [values_succ e n hxs]

theorem draws_add (roller : Roller m α) (e : Expr) (a b : Nat) :
    draws roller e (a + b) =
      draws roller e a >>= fun xs => draws roller e b >>= fun ys => pure (xs ++ ys) := by
  rw [draws, ← List.replicate_append_replicate, List.mapM_append]
  rfl

omit [Scalar α] in
theorem run_mapM_recorded (roller : Roller m α) (rs calls : List Roll) :
    (rs.mapM (recorded roller)).run calls = (fun xs => (xs, calls ++ rs)) <$> rs.mapM roller := by
  induction rs generalizing calls with
  | nil => simp
  | cons r rs ih => simp [recorded, ih]

theorem run_draws_recorded (roller : Roller m α) (e : Expr) (n : Nat) (calls : List Roll) :
    (draws (recorded roller) e n).run calls =
      (fun xs => (xs, calls ++ requests e n)) <$> draws roller e n := by
  simp [draws_eq_mapM, run_mapM_recorded]

/-- Sampling asks the roller for the rolls of the expression from left to right, over again for
every sample, and for nothing else; each sample is the value of the expression at its own block of
results. So samples may be drawn in two parts, one after the other. -/
theorem samples_eq_blocks (roller : Roller m α) (e : Expr) (n : Nat) (journal : Journal) :
    (samples roller e n).run journal =
      ((requests e n).mapM roller >>= fun totals =>
        pure (values e n totals, journal ++ [startRecord e n])) ∧
    (requests e n).length = n * e.rolls.length ∧
    Ensures ((samples roller e n).run journal) (fun r => r.1.length = n) ∧
    (∀ calls, ((samples (recorded roller) e n).run journal).run calls =
      (fun r => (r, calls ++ requests e n)) <$> (samples roller e n).run journal) ∧
    ∀ a b, (samples roller e (a + b)).run' journal =
      (samples roller e a >>= fun xs => samples roller e b >>= fun ys =>
        pure (xs ++ ys)).run' journal := by
  refine ⟨?_, length_requests e n, ?_, ?_, ?_⟩
  · simp [run_samples, draws_eq_mapM]
  · rw [run_samples]
    exact (ensures_length_draws roller e n).map fun xs hxs => hxs
  · intro calls
    simp [run_samples, run_draws_recorded]
  · intro a b
    simp [StateT.run'_eq, run_samples, draws_add]

/-- A die with twenty sides and a constant, sampled twice: two rolls, and none for the constant. -/
theorem samples_eq_blocks_twice :
    let twenty : Quantity := ⟨20, by decide, by decide⟩
    let four : Quantity := ⟨4, by decide, by decide⟩
    let e : Expr := .binary (.roll ⟨.one, twenty⟩) .add (.roll (.constant four))
    let deal : Roller (StateM (List Float)) Float := fun _ xs => (xs.headD 0, xs.tail)
    LawfulMonad (StateM (List Float)) ∧ requests e 2 = [⟨.one, twenty⟩, ⟨.one, twenty⟩] ∧
      ((samples deal e 2).run []).run [10, 11] =
        (([10 + Scalar.ofNat 4, 11 + Scalar.ofNat 4], [startRecord e 2]), []) := by
  intro twenty four e deal
  have hrequests : requests e 2 = [⟨.one, twenty⟩, ⟨.one, twenty⟩] := by decide
  refine ⟨inferInstance, hrequests, ?_⟩
  obtain ⟨hrun, -⟩ := samples_eq_blocks deal e 2 []
  rw [hrun, hrequests]
  rfl

end DiceOdds.Sampling
