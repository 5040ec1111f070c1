import DiceOdds.Expr.Basic
import DiceOdds.Journal

namespace DiceOdds

abbrev Roller (m : Type → Type) (α : Type) := Roll → m α

namespace Sampling

variable {m : Type → Type} [Monad m] {α : Type} [Scalar α]

@[specialize] def one (roller : Roller m α) : Expr → m α
  | .roll r => if r.isConstant then pure r.least else roller r
  | .binary l op r => do
    let x ← one roller l
    let y ← one roller r
    return op.apply x y

@[specialize] def draws (roller : Roller m α) (e : Expr) (n : Nat) : m (List α) :=
  (List.replicate n e).mapM (one roller)

def startRecord (e : Expr) (n : Nat) : Record :=
  .debug .sampling ("sampling " ++ e.text ++ " " ++ toString n ++ " times")

def samples (roller : Roller m α) (e : Expr) (n : Nat) : Journaled m (List α) := do
  Journaled.write (startRecord e n)
  StateT.lift (draws roller e n)

/-- The greatest low half of a product that is accepted. Below it every face has as many words, so
an accepted word shows each face equally often. -/
def zone (sides : Quantity) : Nat := 0xffffffff - (0x100000000 - sides.val) % sides.val

/-- A face from a source of 32-bit words. A word that is not accepted is passed over for the next;
after `attempts` of them there is none. -/
@[specialize] def face (next : m UInt32) (sides : Quantity) : Nat → OptionT m Nat
  | 0 => failure
  | attempts + 1 => do
    let word ← next
    let product := word.toNat * sides.val
    if product % 0x100000000 ≤ zone sides then return 1 + product / 0x100000000
    else face next sides attempts

@[specialize] def uniform (next : m UInt32) (attempts : Nat) :
    Roller (OptionT m) α := fun r => do
  let shown ← (List.replicate r.count.val r.sides).mapM fun sides => face next sides attempts
  return Scalar.sum (shown.map Scalar.ofNat)

end Sampling

end DiceOdds
