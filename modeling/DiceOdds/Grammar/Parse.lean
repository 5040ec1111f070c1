import DiceOdds.Expr.Basic
import DiceOdds.Grammar.Fault
import DiceOdds.Text.Basic

namespace DiceOdds.Grammar

abbrev Pending := Option (Expr × Operator)

def Pending.join : Pending → Expr → Expr
  | none, e => e
  | some (left, op), e => .binary left op e

inductive Awaiting
  | operand (left : Pending)
  | operator (chain : Expr)
  deriving DecidableEq

/-- A reading under way. For each open group `groups` holds what stands before it in the chain
around it. -/
structure State where
  groups : List Pending
  terms : Nat
  awaiting : Awaiting
  deriving DecidableEq

namespace State

def start : State := ⟨[], 0, .operand none⟩

def expected (s : State) : List Kind :=
  match s.awaiting with
  | .operand _ => Kind.operandStarts
  | .operator _ => Kind.operators ++ if s.groups = [] then [] else [.rightParen]

def unexpected (s : State) : Lexeme → Cause
  | .unknown _ => .unknownCharacter
  | .missingCount _ => .missingCount
  | t => .unexpectedToken t.kind s.expected

def term (s : State) (left : Pending) (r : Except Quantity.Refusal Roll) : Except Cause State :=
  if maxTerms ≤ s.terms then .error .tooManyTerms
  else match r with
    | .error .zero => .error .zero
    | .error .tooLarge => .error .tooLarge
    | .ok r => .ok { s with terms := s.terms + 1, awaiting := .operator (left.join (.roll r)) }

def rollOfDigits (count sides : List Char) : Except Quantity.Refusal Roll :=
  (Quantity.ofDigits count).bind fun c => (Quantity.ofDigits sides).map fun s => ⟨c, s⟩

def readOperand (s : State) (left : Pending) : Lexeme → Except Cause State
  | .integer digits => s.term left ((Quantity.ofDigits digits).map Roll.constant)
  | .dice count sides => s.term left (rollOfDigits count sides)
  | .leftParen =>
    if maxDepth ≤ s.groups.length then .error .tooDeep
    else .ok { s with groups := left :: s.groups, awaiting := .operand none }
  | .rightParen =>
    if left = none ∧ s.groups ≠ [] then .error .emptyGroup
    else .error (s.unexpected .rightParen)
  | t => .error (s.unexpected t)

def readOperator (s : State) (chain : Expr) : Lexeme → Except Cause State
  | .operator op => .ok { s with awaiting := .operand (some (chain, op)) }
  | .rightParen =>
    match s.groups with
    | [] => .error (s.unexpected .rightParen)
    | left :: groups => .ok { s with groups := groups, awaiting := .operator (left.join chain) }
  | t => .error (s.unexpected t)

/-- Operators chain from the left without precedence; a group is the tree within it. -/
def step (s : State) (t : Lexeme) : Except Cause State :=
  match s.awaiting with
  | .operand left => s.readOperand left t
  | .operator chain => s.readOperator chain t

def finish (s : State) : Except Cause Expr :=
  match s.awaiting, s.groups with
  | .operator e, [] => .ok e
  | _, _ => .error (.unexpectedEnd s.expected)

end State

/-- A cause with the number of characters read before the offending lexeme, and that lexeme, which
is empty at the end. -/
structure Refusal where
  cause : Cause
  offset : Nat
  slice : List Char
  deriving DecidableEq

def run (s : State) (offset : Nat) : List Lexeme → Except Refusal Expr
  | [] => s.finish.mapError fun cause => ⟨cause, offset, []⟩
  | t :: ts =>
    match s.step t with
    | .ok s' => run s' (offset + t.chars.length) ts
    | .error cause => .error ⟨cause, offset, t.chars⟩

def read (ts : List Lexeme) : Except Refusal Expr :=
  if ts = [] then .error ⟨.empty, 0, []⟩ else run .start 0 ts

structure Mark where
  char : Char
  start : Nat

def Mark.stop (m : Mark) : Nat := m.start + m.char.utf8Size

def marks (start : Nat) : List Char → List Mark
  | [] => []
  | c :: cs => ⟨c, start⟩ :: marks (start + c.utf8Size) cs

def visible (text : List Char) : List Char := text.filter fun c => !Text.isBlank c

/-- Where `length` visible characters lie in a text that has `offset` of them before; none are at
its end. -/
def locate (text : List Char) (offset length : Nat) : Span :=
  match (((marks 0 text).filter fun m => !Text.isBlank m.char).drop offset).take length with
  | [] => ⟨byteLength text, byteLength text⟩
  | m :: ms => ⟨m.start, (ms.getLastD m).stop⟩

def Refusal.inText (r : Refusal) (text : List Char) : Fault :=
  ⟨r.cause, locate text r.offset r.slice.length, String.ofList r.slice⟩

def parse (text : String) : Except Fault Expr :=
  (read (lexemes (visible text.toList))).mapError fun r => r.inText text.toList

end DiceOdds.Grammar
