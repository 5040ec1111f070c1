import DiceOdds.Grammar.Parse
import DiceOdds.Sampling.Basic
import DiceOdds.Settings

namespace DiceOdds

inductive Failure
  | fault (f : Grammar.Fault)
  | overflow (o : Overflow)

def Failure.message : Failure → String
  | fault f => f.message
  | overflow o => o.message

namespace Distribution

abbrev Computation (m : Type → Type) := ExceptT Failure (Journaled m)

variable {m : Type → Type} [Monad m]

def write (r : Record) : Computation m Unit := ExceptT.lift (Journaled.write r)

def ofEnumeration {α : Type} (x : Enumeration α) : Computation m α :=
  ExceptT.mk ((fun r => r.mapError Failure.overflow) <$> Journaled.embed x.run)

def parsedRecord (text : String) (e : Expr) : Record :=
  .debug .parsing ("parsed " ++ Text.quote text ++ " as " ++ e.text)

def parse (text : String) : Computation m Expr :=
  match Grammar.parse text with
  | .error f => throw (.fault f)
  | .ok e => do
    write (parsedRecord text e)
    return e

def evaluationRecord (s : Settings) (e : Expr) : Record :=
  .debug .distribution ("evaluating " ++ e.text ++ " in " ++ s.mode.text ++ " mode")

def outcomes (roller : Roller m Float) (s : Settings) (e : Expr) : Computation m (List Float) := do
  write (evaluationRecord s e)
  match s.mode with
  | .exact => ofEnumeration (Enumeration.outcomes s.cap e)
  | .monteCarlo => ExceptT.lift (Sampling.samples roller e s.simulations)

def summarize (s : Settings) (xs : List Float) : Computation m Summary := do
  let summary := Summary.ofOutcomes s.mode.weighting xs
  ExceptT.lift summary.tell
  return summary

def ofText (roller : Roller m Float) (s : Settings) (text : String) :
    Computation m Summary := do
  let e ← parse text
  let xs ← outcomes roller s e
  summarize s xs

end Distribution

end DiceOdds
