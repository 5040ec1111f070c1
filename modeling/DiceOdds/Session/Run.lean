import DiceOdds.Distribution
import DiceOdds.Session.Chart
import DiceOdds.Session.Command
import DiceOdds.Text.Basic

namespace DiceOdds.Session

structure Reply where
  out : String
  err : String
  deriving DecidableEq

namespace Reply

def ofLines (lines : List String) : Reply := ⟨String.join (lines.map (· ++ "\n")), ""⟩

def ofError (message : String) : Reply := ⟨"", "Error: " ++ message ++ "\n"⟩

end Reply

def prompt : String := "> "

variable {m : Type → Type} [Monad m]

def compute (roller : Roller m Float) (s : Settings) (text : String) :
    Distribution.Computation m (List String) := do
  let e ← Distribution.parse text
  let xs ← Distribution.outcomes roller s e
  let summary ← Distribution.summarize s xs
  return report e summary

def evaluate (roller : Roller m Float) (s : Settings) (text : String) : m Reply := do
  match ← (compute roller s text).run.run' [] with
  | .ok lines => return .ofLines lines
  | .error f => return .ofError f.message

def obey (s : Settings) (c : Command) : Settings × Reply :=
  match c.perform s with
  | .ok (s', lines) => (s', .ofLines lines)
  | .error e => (s, .ofError e.message)

def respond (roller : Roller m Float) (s : Settings) (line : String) : m (Settings × Reply) :=
  match Text.trimChars line.toList with
  | [] => return (s, ⟨"", ""⟩)
  | ':' :: command => return obey s (Command.ofChars command)
  | text => do return (s, ← evaluate roller s (String.ofList text))

structure Transcript where
  out : String
  err : String
  code : Nat
  deriving DecidableEq

def proceed (roller : Roller m Float) : Settings → Transcript → List String → m Transcript
  | _, t, [] => return t
  | s, t, line :: rest => do
    let (s', reply) ← respond roller s line
    proceed roller s' { t with out := t.out ++ reply.out ++ prompt, err := t.err ++ reply.err } rest

def refusal (e : SettingsError) : String := "Error: " ++ e.diagnosis ++ "\n"

def run (roller : Roller m Float) (value : Variable → Option String) (input : String) :
    m Transcript :=
  match Settings.ofVariables value with
  | .error e => return ⟨"", refusal e, 1⟩
  | .ok s => proceed roller s ⟨prompt, "", 0⟩ (Text.lines input)

end DiceOdds.Session
