namespace DiceOdds

inductive Level
  | debug
  | trace
  deriving DecidableEq

inductive Activity
  | distribution
  | parsing
  | enumeration
  | sampling
  | summary
  deriving DecidableEq

structure Record where
  level : Level
  activity : Activity
  message : String
  deriving DecidableEq

namespace Record

def debug (activity : Activity) (message : String) : Record := ⟨.debug, activity, message⟩

def trace (activity : Activity) (message : String) : Record := ⟨.trace, activity, message⟩

end Record

abbrev Journal := List Record

abbrev Journaled (m : Type → Type) := StateT Journal m

namespace Journaled

variable {m : Type → Type} [Monad m]

def write (r : Record) : Journaled m Unit := modify (· ++ [r])

def embed {α : Type} (x : Journaled Id α) : Journaled m α := fun journal => pure (x journal).run

end Journaled

end DiceOdds
