import DiceOdds.Sampling.Basic

namespace DiceOdds.Sampling

inductive Script
  /-- Each die takes the next number, counted off around its faces. -/
  | faces (numbers : Array Nat)
  /-- Each roll takes the next total, whatever it asks for. -/
  | totals (entries : Array Float)
  /-- Uniform dice from these words, and from a generator when they run out. -/
  | words (listed : Array UInt32)

structure Tape where
  used : Nat
  calls : Array Roll
  seed : UInt64

namespace Script

abbrev Play := StateM Tape

def start (seed : UInt64) : Tape := ⟨0, #[], seed⟩

def cycle {α : Type} (entries : Array α) (default : α) : Play α := do
  let tape ← get
  set { tape with used := tape.used + 1 }
  return entries.getD (tape.used % entries.size) default

def generate (seed : UInt64) : UInt64 := seed * 6364136223846793005 + 1442695040888963407

def nextWord (listed : Array UInt32) : Play UInt32 := do
  let tape ← get
  match listed[tape.used]? with
  | some word =>
    set { tape with used := tape.used + 1 }
    return word
  | none =>
    let seed := generate tape.seed
    set { tape with used := tape.used + 1, seed := seed }
    return (seed >>> 32).toUInt32

def nextFace (numbers : Array Nat) (sides : Quantity) : Play Nat := do
  return (← cycle numbers 0) % sides.val + 1

def sumOfFaces (numbers : Array Nat) (r : Roll) : Play Float := do
  let shown ← (List.replicate r.count.val r.sides).mapM (nextFace numbers)
  return Scalar.sum (shown.map Scalar.ofNat)

def roller (script : Script) (attempts : Nat) : Roller (OptionT Play) Float := fun r => do
  modify fun tape => { tape with calls := tape.calls.push r }
  match script with
  | faces numbers => OptionT.lift (sumOfFaces numbers r)
  | totals entries => OptionT.lift (cycle entries 0.0)
  | words listed => uniform (nextWord listed) attempts r

end Script

end DiceOdds.Sampling
