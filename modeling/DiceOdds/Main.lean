import DiceOdds.Sampling.Basic
import DiceOdds.Session.Run

namespace DiceOdds.Session

def randomWord : IO UInt32 := do
  let bytes ← IO.getRandomBytes 4
  return bytes.foldl (fun word byte => word * 256 + byte.toUInt32) 0

/-- Half of all words or more are accepted, so that a die without a face does not happen. -/
def systemRoller : Roller IO Float := fun r => do
  match ← (Sampling.uniform randomWord 1024 r).run with
  | some sum => return sum
  | none => throw (IO.userError "no face for a die")

def lookUp : IO (Variable → Option String) := do
  let mode ← IO.getEnv Variable.mode.name
  let simulations ← IO.getEnv Variable.simulations.name
  let maxOutcomes ← IO.getEnv Variable.maxOutcomes.name
  return fun
    | .mode => mode
    | .simulations => simulations
    | .maxOutcomes => maxOutcomes

partial def interact (input output errors : IO.FS.Stream) (s : Settings) : IO Unit := do
  output.putStr prompt
  output.flush
  let line ← try input.getLine catch _ => pure ""
  if line.isEmpty then return
  let (s', reply) ← respond systemRoller s line
  output.putStr reply.out
  errors.putStr reply.err
  interact input output errors s'

end DiceOdds.Session

def main : IO UInt32 := do
  let errors ← IO.getStderr
  match DiceOdds.Settings.ofVariables (← DiceOdds.Session.lookUp) with
  | .error e =>
    errors.putStr (DiceOdds.Session.refusal e)
    return 1
  | .ok s =>
    DiceOdds.Session.interact (← IO.getStdin) (← IO.getStdout) errors s
    return 0
