namespace DiceOdds.Text

def inRanges : List (Nat × Nat) → Nat → Bool
  | [], _ => false
  | (lo, hi) :: rest, n => decide (lo ≤ n) && (decide (n ≤ hi) || inRanges rest n)

/-- The code points with the property White_Space. -/
def blankRanges : List (Nat × Nat) :=
  [(0x9, 0xd), (0x20, 0x20), (0x85, 0x85), (0xa0, 0xa0), (0x1680, 0x1680), (0x2000, 0x200a),
    (0x2028, 0x2029), (0x202f, 0x202f), (0x205f, 0x205f), (0x3000, 0x3000)]

def isBlank (c : Char) : Bool := inRanges blankRanges c.toNat

def trimChars (s : List Char) : List Char :=
  ((s.dropWhile isBlank).reverse.dropWhile isBlank).reverse

def trim (s : String) : String := String.ofList (trimChars s.toList)

/-- Only the letters of ASCII have a case here. -/
def lower (s : String) : String := String.ofList (s.toList.map Char.toLower)

def splitLines : List Char → List (List Char)
  | [] => []
  | c :: cs =>
    if c = '\n' then [] :: splitLines cs
    else match splitLines cs with
      | [] => [[c]]
      | line :: rest => (c :: line) :: rest

def lines (s : String) : List String := (splitLines s.toList).map String.ofList

def padLeft (c : Char) (width : Nat) (s : List Char) : List Char :=
  List.replicate (width - s.length) c ++ s

def padRight (c : Char) (width : Nat) (s : List Char) : List Char :=
  s ++ List.replicate (width - s.length) c

namespace Numeral

inductive Fault
  | empty
  | invalidDigit
  | tooLarge
  deriving DecidableEq

def Fault.message : Fault → String
  | empty => "cannot parse integer from empty string"
  | invalidDigit => "invalid digit found in string"
  | tooLarge => "number too large to fit in target type"

/-- Continues a number of 64 bits; the first character that cannot go on it decides the fault. -/
def extend : Nat → List Char → Except Fault Nat
  | n, [] => .ok n
  | n, c :: cs =>
    if c.isDigit then
      let n' := Nat.ofDigitChars 10 [c] n
      if n' < 0x10000000000000000 then extend n' cs else .error .tooLarge
    else .error .invalidDigit

def parse : List Char → Except Fault Nat
  | [] => .error .empty
  | ['+'] => .error .invalidDigit
  | '+' :: digits => extend 0 digits
  | digits => extend 0 digits

def parseGrouped (s : String) : Except Fault Nat := parse (s.toList.filter (· != '_'))

end Numeral

end DiceOdds.Text
