import DiceOdds.Binary64
import DiceOdds.Text.Basic

namespace DiceOdds.Decimal

def withPlaces (digits places : Nat) : List Char :=
  Nat.toDigits 10 (digits / Nat.pow 10 places) ++
    if places = 0 then []
    else '.' :: Text.padLeft '0' places (Nat.toDigits 10 (digits % Nat.pow 10 places))

def positional (digits : Nat) (exponent : Int) : List Char :=
  withPlaces (digits * Nat.pow 10 exponent.toNat) (-exponent).toNat

def withSign (negative : Bool) (s : List Char) : List Char := if negative then '-' :: s else s

/-- The exact value rounded to a number of places, ties to even. A negative zero keeps its sign,
and so does a negative number that rounds to zero. -/
def fixed (places : Nat) (x : Float) : String :=
  match Binary64.read x with
  | .nan => "NaN"
  | .infinite negative => String.ofList (withSign negative ['i', 'n', 'f'])
  | .finite negative m q =>
    let digits := roundHalfEven (Binary64.scaledUp m q * Nat.pow 10 places) (Binary64.scaledDown q)
    String.ofList (withSign negative (withPlaces digits places))

/-- The numbers that round to `value / unit`: those between `lo / unit` and `hi / unit`, with both
ends if `closed`. -/
structure Vicinity where
  lo : Nat
  value : Nat
  hi : Nat
  unit : Nat
  closed : Bool

namespace Vicinity

/-- The ends are half way to the two neighbours, and the lower neighbour of a power of two is
nearer by half. A tie goes to the even significand. -/
def ofBinary (m : Nat) (q : Int) : Vicinity :=
  let below := if m = 0x10000000000000 ∧ -1074 < q then 1 else 2
  { lo := Binary64.scaledUp (4 * m - below) (q - 2)
    value := Binary64.scaledUp (4 * m) (q - 2)
    hi := Binary64.scaledUp (4 * m + 2) (q - 2)
    unit := Binary64.scaledDown (q - 2)
    closed := m % 2 == 0 }

def divideByTenTo (v : Vicinity) (exponent : Int) : Vicinity :=
  let grow := Nat.pow 10 (-exponent).toNat
  { lo := v.lo * grow
    value := v.value * grow
    hi := v.hi * grow
    unit := v.unit * Nat.pow 10 exponent.toNat
    closed := v.closed }

def contains (v : Vicinity) (n : Nat) : Bool :=
  if v.closed then v.lo ≤ n * v.unit && n * v.unit ≤ v.hi
  else v.lo < n * v.unit && n * v.unit < v.hi

def nearestInside (v : Vicinity) : Option Nat :=
  let below := v.value / v.unit
  match v.contains below, v.contains (below + 1) with
  | true, true => if 2 * (v.value % v.unit) < v.unit then some below else some (below + 1)
  | true, false => some below
  | false, true => some (below + 1)
  | false, false => none

def magnitude (v : Vicinity) : Int :=
  if v.unit ≤ v.value then (Nat.toDigits 10 (v.value / v.unit)).length
  else 1 - (Nat.toDigits 10 ((v.unit - 1) / v.value)).length

end Vicinity

def exact (m : Nat) (q : Int) : Nat × Int :=
  if q < 0 then (m * Nat.pow 5 (-q).toNat, q) else (m * Nat.pow 2 q.toNat, 0)

/-- The fewest digits, with an exponent of ten, that are nearer to `m * 2 ^ q` than to any other
number of that format, and of those the nearest. -/
def shortest (m : Nat) (q : Int) : Nat × Int :=
  let v := Vicinity.ofBinary m q
  let search := (List.range 18).findSome? fun (n : Nat) =>
    let exponent := v.magnitude - n
    (v.divideByTenTo exponent).nearestInside.map fun digits => (digits, exponent)
  search.getD (exact m q)

/-- The shortest digits that are read back as the same number, never with an exponent; whole
numbers have no point. -/
def text (x : Float) : String :=
  match Binary64.read x with
  | .nan => "NaN"
  | .infinite negative => String.ofList (withSign negative ['i', 'n', 'f'])
  | .finite negative m q =>
    let digits := if m = 0 then (0, 0) else shortest m q
    String.ofList (withSign negative (positional digits.1 digits.2))

end DiceOdds.Decimal
