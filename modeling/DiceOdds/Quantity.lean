namespace DiceOdds

structure Quantity where
  val : Nat
  pos : 0 < val
  lt : val < 0x100000000
  deriving DecidableEq

namespace Quantity

inductive Refusal
  | zero
  | tooLarge
  deriving DecidableEq

def one : Quantity := ⟨1, by decide, by decide⟩

def ofNat (n : Nat) : Except Refusal Quantity :=
  if h : n = 0 then .error .zero
  else if h' : n < 0x100000000 then .ok ⟨n, Nat.pos_of_ne_zero h, h'⟩
  else .error .tooLarge

def ofDigits (digits : List Char) : Except Refusal Quantity :=
  ofNat (Nat.ofDigitChars 10 digits 0)

theorem ofNat_val (q : Quantity) : ofNat q.val = .ok q := by
  unfold ofNat
  rw [dif_neg (Nat.ne_of_gt q.pos), dif_pos q.lt]

theorem ofNat_eq_ok_iff {n : Nat} {q : Quantity} : ofNat n = .ok q ↔ n = q.val := by
  constructor
  · intro h
    unfold ofNat at h
    split at h
    · cases h
    · split at h
      · cases h
        rfl
      · cases h
  · rintro rfl
    exact ofNat_val q

end Quantity

end DiceOdds
