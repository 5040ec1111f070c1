import DiceOdds.Enumeration
import DiceOdds.Summary
import DiceOdds.Text.Basic
import DiceOdds.Text.Quoted

namespace DiceOdds

inductive Mode
  | exact
  | monteCarlo
  deriving DecidableEq

namespace Mode

def text : Mode → String
  | exact => "exact"
  | monteCarlo => "monte-carlo"

def weighting : Mode → Weighting
  | exact => .equal
  | monteCarlo => .sampled

def ofText? (s : String) : Option Mode :=
  match Text.lower (Text.trim s) with
  | "exact" => some exact
  | "monte-carlo" | "montecarlo" | "mc" => some monteCarlo
  | _ => none

end Mode

inductive Variable
  | mode
  | simulations
  | maxOutcomes
  deriving DecidableEq

def Variable.name : Variable → String
  | mode => "DICE_MODE"
  | simulations => "DICE_SIMULATIONS"
  | maxOutcomes => "DICE_MAX_OUTCOMES"

inductive SettingsError
  | unknownMode (text : String)
  | simulationCount (count : Nat)
  | invalidNumber (source : Variable) (text : String)
  | zeroCap
  deriving DecidableEq

namespace SettingsError

def message : SettingsError → String
  | unknownMode text =>
    "unknown evaluation mode " ++ Text.quote text ++ "; expected 'exact' or 'monte-carlo'"
  | simulationCount count =>
    "simulation count must be between 100 and 1000000, got " ++ toString count
  | invalidNumber source text =>
    source.name ++ ": cannot parse " ++ Text.quote text ++ " as a number"
  | zeroCap => "the exact outcome limit must be positive"

def diagnosis : SettingsError → String
  | unknownMode text => "UnknownMode(" ++ Text.quote text ++ ")"
  | simulationCount count => "SimulationCount(" ++ toString count ++ ")"
  | invalidNumber source text =>
    "InvalidNumber \x7b var: " ++ Text.quote source.name ++ ", value: " ++ Text.quote text ++
      " \x7d"
  | zeroCap => "ZeroMaxOutcomes"

end SettingsError

structure Settings where
  mode : Mode
  simulations : Nat
  cap : Cap
  deriving DecidableEq

namespace Settings

def minSimulations : Nat := 100

def maxSimulations : Nat := 1000000

def initial : Settings := ⟨.exact, 10000, some 1000000⟩

def withMode (s : Settings) (mode : Mode) : Settings := { s with mode := mode }

def withSimulations (s : Settings) (count : Nat) : Except SettingsError Settings :=
  if minSimulations ≤ count ∧ count ≤ maxSimulations then .ok { s with simulations := count }
  else .error (.simulationCount count)

def withCap (s : Settings) (cap : Cap) : Except SettingsError Settings :=
  if cap = some 0 then .error .zeroCap else .ok { s with cap := cap }

def parseMode (text : String) : Except SettingsError Mode :=
  match Mode.ofText? text with
  | some mode => .ok mode
  | none => .error (.unknownMode text)

def liftsCap (text : String) : Bool := Text.lower (Text.trim text) == "none"

def parseNumber (source : Variable) (text : String) : Except SettingsError Nat :=
  (Text.Numeral.parseGrouped (Text.trim text)).mapError fun _ => .invalidNumber source text

def parseCap (text : String) : Except SettingsError Cap :=
  if liftsCap text then .ok none else (parseNumber .maxOutcomes text).map some

def override (text : Option String) (change : Settings → String → Except SettingsError Settings)
    (s : Settings) : Except SettingsError Settings :=
  match text with
  | none => .ok s
  | some text => change s text

def ofVariables (value : Variable → Option String) : Except SettingsError Settings := do
  let s ← override (value .mode) (fun s text => (parseMode text).map s.withMode) initial
  let s ← override (value .simulations)
    (fun s text => (parseNumber .simulations text).bind s.withSimulations) s
  override (value .maxOutcomes) (fun s text => (parseCap text).bind s.withCap) s

end Settings

end DiceOdds
