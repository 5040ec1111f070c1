import DiceOdds.Proofs.Descent

namespace DiceOdds.Grammar

namespace Automaton

inductive Wanted
  | operand
  | operator

def expected : Wanted → Nat → List Kind
  | .operand, _ => [.integer, .dice, .leftParen]
  | .operator, opened => [.operator .add, .operator .sub, .operator .mul, .operator .div] ++
      if 0 < opened then [.rightParen] else []

def unexpected (expected : List Kind) : List Lexeme → Cause
  | [] => .unexpectedEnd expected
  | .unknown _ :: _ => .unknownCharacter
  | .missingCount _ :: _ => .missingCount
  | t :: _ => .unexpectedToken t.kind expected

def misfit (digits : List Char) : Option Cause :=
  let value := Nat.ofDigitChars 10 digits 0
  if value = 0 then some .zero else if 0x100000000 ≤ value then some .tooLarge else none

/-- Reads lexemes one after another and keeps nothing but what may come next, how many groups are
open and how many terms are read. Ends with why the lexemes are no expression, and with those from
the offending one on. -/
def scan : Wanted → Nat → Nat → List Lexeme → Option (Cause × List Lexeme)
  | .operand, opened, terms, .leftParen :: ts =>
    if opened = maxDepth then some (.tooDeep, .leftParen :: ts)
    else if ts.head? = some .rightParen then some (.emptyGroup, ts)
    else scan .operand (opened + 1) terms ts
  | .operand, opened, terms, .integer digits :: ts =>
    if terms = maxTerms then some (.tooManyTerms, .integer digits :: ts)
    else match misfit digits with
      | some cause => some (cause, .integer digits :: ts)
      | none => scan .operator opened (terms + 1) ts
  | .operand, opened, terms, .dice count sides :: ts =>
    if terms = maxTerms then some (.tooManyTerms, .dice count sides :: ts)
    else match [count, sides].findSome? misfit with
      | some cause => some (cause, .dice count sides :: ts)
      | none => scan .operator opened (terms + 1) ts
  | .operator, opened, terms, .operator _ :: ts => scan .operand opened terms ts
  | .operator, opened + 1, terms, .rightParen :: ts => scan .operator opened terms ts
  | .operator, 0, _, [] => none
  | wanted, opened, _, ts => some (unexpected (expected wanted opened) ts, ts)

section Steps

variable {groups : List Pending} {terms offset : Nat} {ts : List Lexeme}

end Steps

def wanted : Awaiting → Wanted
  | .operand _ => .operand
  | .operator _ => .operator

end Automaton

end DiceOdds.Grammar
