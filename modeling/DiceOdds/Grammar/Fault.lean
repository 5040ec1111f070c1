import DiceOdds.Grammar.Lexeme
import DiceOdds.Text.Quoted

namespace DiceOdds.Grammar

def maxDepth : Nat := 128

def maxTerms : Nat := 1000

inductive Cause
  | empty
  | unexpectedToken (found : Kind) (expected : List Kind)
  | unexpectedEnd (expected : List Kind)
  | unknownCharacter
  | missingCount
  | zero
  | tooLarge
  | emptyGroup
  | tooDeep
  | tooManyTerms
  deriving DecidableEq

def alternatives : List Kind → String
  | [] => ""
  | [a] => a.text
  | [a, b] => a.text ++ " or " ++ b.text
  | ks => String.join (ks.dropLast.map fun k => k.text ++ ", ") ++ "or " ++
      (ks.getLast?.map Kind.text).getD ""

def Cause.message : Cause → String
  | empty => "expression is empty"
  | unexpectedToken found expected =>
    "unexpected token: found " ++ found.text ++ ", expected " ++ alternatives expected
  | unexpectedEnd expected => "unexpected end of input, expected " ++ alternatives expected
  | unknownCharacter => "unrecognized character"
  | missingCount => "dice must be written as <count>d<sides>"
  | zero => "dice counts, sides and constants must be positive"
  | tooLarge => "number is too large"
  | emptyGroup => "parentheses cannot be empty"
  | tooDeep => "parentheses nested more than " ++ toString maxDepth ++ " deep"
  | tooManyTerms => "more than " ++ toString maxTerms ++ " dice and constants"

/-- Why a text is no expression, and where: the span lies in the text as it was given, the slice is
the offending lexeme without blanks. -/
structure Fault where
  cause : Cause
  span : Span
  slice : String
  deriving DecidableEq

def Fault.message (f : Fault) : String :=
  "Invalid dice expression at position " ++ toString f.span.start ++ " (" ++ Text.quote f.slice ++
    "): " ++ f.cause.message

end DiceOdds.Grammar
