import DiceOdds.Sampling.Basic
import Mathlib.Data.List.Forall2

namespace DiceOdds

def Ensures {m : Type → Type} [Functor m] {α : Type} (x : m α) (p : α → Prop) : Prop :=
  ∃ y : m { a // p a }, Subtype.val <$> y = x

namespace Ensures

variable {m : Type → Type} [Monad m] [LawfulMonad m] {α β : Type} {x : m α} {p : α → Prop}

theorem of_pure {a : α} (h : p a) : Ensures (pure a : m α) p := ⟨pure ⟨a, h⟩, map_pure _ _⟩

theorem trivially (x : m α) : Ensures x fun _ => True := by
  refine ⟨(fun a => ⟨a, trivial⟩) <$> x, ?_⟩
  rw [← comp_map]
  exact id_map x

theorem bind {f : α → m β} {q : β → Prop} (hx : Ensures x p)
    (hf : ∀ a, p a → Ensures (f a) q) : Ensures (x >>= f) q := by
  obtain ⟨y, rfl⟩ := hx
  let g (a : { a // p a }) : m { b // q b } := (hf a.1 a.2).choose
  have hg (a : { a // p a }) : Subtype.val <$> g a = f a.1 := (hf a.1 a.2).choose_spec
  refine ⟨y >>= g, ?_⟩
  rw [map_bind, bind_map_left]
  exact congrArg (y >>= ·) (funext hg)

theorem mono {q : α → Prop} (hx : Ensures x p) (hpq : ∀ a, p a → q a) : Ensures x q := by
  rw [← bind_pure x]
  exact hx.bind fun a ha => .of_pure (hpq a ha)

theorem map {f : α → β} {q : β → Prop} (hx : Ensures x p) (hf : ∀ a, p a → q (f a)) :
    Ensures (f <$> x) q := by
  rw [map_eq_pure_bind]
  exact hx.bind fun a ha => .of_pure (hf a ha)

theorem mapM {f : β → m α} {q : β → α → Prop} (h : ∀ b, Ensures (f b) (q b)) (bs : List β) :
    Ensures (bs.mapM f) (List.Forall₂ q bs) := by
  induction bs with
  | nil => exact .of_pure .nil
  | cons b bs ih =>
      rw [List.mapM_cons]
      exact (h b).bind fun a ha => ih.bind fun as has => .of_pure (.cons ha has)

/-- Of a computation that may end without a result it is only a result's. -/
theorem run_option {x : OptionT m α} (h : Ensures x p) : Ensures x.run fun r => ∀ a ∈ r, p a := by
  obtain ⟨y, rfl⟩ := h
  rw [OptionT.run_map]
  refine (Ensures.trivially y.run).map fun r _ a ha => ?_
  obtain ⟨b, -, rfl⟩ := Option.map_eq_some_iff.1 ha
  exact b.2

/-- Of a state machine it is the result from every state. -/
theorem run {σ : Type} {x : StateM σ α} (h : Ensures x p) (s : σ) : p (x.run s).1 := by
  obtain ⟨y, rfl⟩ := h
  exact (y.run s).1.2

end Ensures

namespace Sampling

variable {m : Type → Type} [Monad m] [LawfulMonad m] {α : Type} [Scalar α]

theorem ensures_draws {roller : Roller m α} {e : Expr} {p : α → Prop} (h : Ensures (one roller e) p)
    (n : Nat) : Ensures (draws roller e n) fun xs => xs.length = n ∧ ∀ x ∈ xs, p x := by
  induction n with
  | zero => exact .of_pure ⟨rfl, nofun⟩
  | succ n ih =>
      rw [draws, List.replicate_succ, List.mapM_cons]
      refine h.bind fun x hx => ih.bind fun xs ⟨hlength, hxs⟩ => .of_pure ⟨?_, ?_⟩
      · rw [List.length_cons, hlength]
      · exact List.forall_mem_cons.2 ⟨hx, hxs⟩

theorem ensures_length_draws (roller : Roller m α) (e : Expr) (n : Nat) :
    Ensures (draws roller e n) fun xs => xs.length = n :=
  (ensures_draws (Ensures.trivially _) n).mono fun _ => And.left

end Sampling

end DiceOdds
