import DiceOdds.Scalar

namespace DiceOdds

inductive Operator
  | add
  | sub
  | mul
  | div
  deriving DecidableEq

namespace Operator

def all : List Operator := [.add, .sub, .mul, .div]

def symbol : Operator → Char
  | add => '+'
  | sub => '-'
  | mul => '*'
  | div => '/'

def ofSymbol? (c : Char) : Option Operator := all.find? fun op => op.symbol == c

def isMultiplicative : Operator → Bool
  | mul | div => true
  | add | sub => false

def apply {α : Type} [Scalar α] : Operator → α → α → α
  | add, x, y => x + y
  | sub, x, y => x - y
  | mul, x, y => x * y
  | div, x, y => x / y

theorem ofSymbol?_symbol (op : Operator) : ofSymbol? op.symbol = some op := by
  cases op <;> decide

theorem symbol_of_ofSymbol? {c : Char} {op : Operator} (h : ofSymbol? c = some op) :
    op.symbol = c := by
  simpa using List.find?_some h

end Operator

end DiceOdds
