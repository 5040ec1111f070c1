namespace DiceOdds.Decimal

def roundHalfUp (num den : Nat) : Nat := (2 * num + den) / (2 * den)

def roundHalfEven (num den : Nat) : Nat :=
  let whole := num / den
  let rest := 2 * (num % den)
  if rest < den ∨ (rest = den ∧ whole % 2 = 0) then whole else whole + 1

end DiceOdds.Decimal

namespace DiceOdds.Binary64

/-- What 64 bits stand for; a finite number is `significand * 2 ^ exponent`, with its sign kept
apart so that there are two zeros. -/
inductive Reading
  | nan
  | infinite (negative : Bool)
  | finite (negative : Bool) (significand : Nat) (exponent : Int)
  deriving DecidableEq

def read (x : Float) : Reading :=
  let bits := x.toBits.toNat
  let negative := decide (0x8000000000000000 ≤ bits)
  let field : Nat := bits / 0x10000000000000 % 0x800
  let fraction := bits % 0x10000000000000
  if field = 2047 then
    if fraction = 0 then .infinite negative else .nan
  else if field = 0 then .finite negative fraction (-1074)
  else .finite negative (0x10000000000000 + fraction) ((field : Int) - 1075)

def scaledUp (significand : Nat) (exponent : Int) : Nat := significand * Nat.pow 2 exponent.toNat

def scaledDown (exponent : Int) : Nat := Nat.pow 2 (-exponent).toNat

theorem scaledDown_pos (exponent : Int) : 0 < scaledDown exponent := Nat.pow_pos (by decide)

def leastInteger : Int := -0x8000000000000000

def greatestInteger : Int := 0x7fffffffffffffff

def signed (negative : Bool) (n : Nat) : Int := if negative then -n else n

def confine (n : Int) : Int := max leastInteger (min greatestInteger n)

/-- The nearest integer, a half going away from zero, confined to 64 signed bits. -/
def toInteger (x : Float) : Int :=
  match read x with
  | .nan => 0
  | .infinite negative => if negative then leastInteger else greatestInteger
  | .finite negative m q =>
    confine (signed negative (Decimal.roundHalfUp (scaledUp m q) (scaledDown q)))

end DiceOdds.Binary64
