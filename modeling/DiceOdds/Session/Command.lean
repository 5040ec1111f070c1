import DiceOdds.Settings

namespace DiceOdds.Session

inductive Command
  | mode (argument : String)
  | simulations (argument : String)
  | cap (argument : String)
  | showSettings
  | help
  | unknown (name : String)
  deriving DecidableEq

namespace Command

def ofChars (s : List Char) : Command :=
  let argument := Text.trim (String.ofList ((s.dropWhile (· != ' ')).drop 1))
  match String.ofList (s.takeWhile (· != ' ')) with
  | "mode" => mode argument
  | "sims" => simulations argument
  | "cap" => cap argument
  | "show" => showSettings
  | "help" => help
  | name => unknown name

inductive Error
  | settings (e : SettingsError)
  | numeral (f : Text.Numeral.Fault)
  | unknown (name : String)
  deriving DecidableEq

def Error.message : Error → String
  | settings e => e.message
  | numeral f => f.message
  | unknown name => "unknown command ':" ++ name ++ "'; try ':help'"

def number (argument : String) : Except Error Nat :=
  (Text.Numeral.parseGrouped argument).mapError .numeral

def capOf (argument : String) : Except Error Cap :=
  if Settings.liftsCap argument then .ok none else (number argument).map some

def capText (cap : Cap) : String := (cap.map toString).getD "none"

def settingsText (s : Settings) : String :=
  "mode: " ++ s.mode.text ++ ", simulations: " ++ toString s.simulations ++ ", exact cap: " ++
    capText s.cap

def helpText : List String :=
  ["Enter a dice expression such as \x602d6 + 1d4\x60 or \x60(2d6 + 1d4) * 2\x60.",
    "Commands:",
    "  :mode exact|mc    choose exact enumeration or Monte Carlo sampling",
    "  :sims N           number of Monte Carlo samples (100 to 1000000)",
    "  :cap N|none       largest outcome count exact mode will enumerate",
    "  :show             print the current settings",
    "  :help             print this message"]

def perform (s : Settings) : Command → Except Error (Settings × List String)
  | mode argument =>
    ((Settings.parseMode argument).mapError .settings).map fun mode => (s.withMode mode, [])
  | simulations argument =>
    (number argument).bind fun n =>
      ((s.withSimulations n).mapError .settings).map fun s' => (s', [])
  | cap argument =>
    (capOf argument).bind fun cap =>
      ((s.withCap cap).mapError .settings).map fun s' => (s', [])
  | showSettings => .ok (s, [settingsText s])
  | help => .ok (s, helpText)
  | unknown name => .error (.unknown name)

end Command

end DiceOdds.Session
