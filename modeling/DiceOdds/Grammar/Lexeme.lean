import DiceOdds.Operator

namespace DiceOdds.Grammar

inductive Kind
  | integer
  | dice
  | leftParen
  | rightParen
  | operator (op : Operator)
  | missingCount
  | unknown
  deriving DecidableEq

def Kind.text : Kind → String
  | integer => "<integer>"
  | dice => "<dice>"
  | leftParen => "'('"
  | rightParen => "')'"
  | operator op => String.ofList ['\x27', op.symbol, '\x27']
  | missingCount | unknown => "<error>"

def Kind.operandStarts : List Kind := [.integer, .dice, .leftParen]

def Kind.operators : List Kind := Operator.all.map operator

inductive Lexeme
  | integer (digits : List Char)
  | dice (count sides : List Char)
  | leftParen
  | rightParen
  | operator (op : Operator)
  | missingCount (sides : List Char)
  | unknown (c : Char)
  deriving DecidableEq

namespace Lexeme

def kind : Lexeme → Kind
  | integer _ => .integer
  | dice _ _ => .dice
  | leftParen => .leftParen
  | rightParen => .rightParen
  | operator op => .operator op
  | missingCount _ => .missingCount
  | unknown _ => .unknown

def chars : Lexeme → List Char
  | integer digits => digits
  | dice count sides => count ++ 'd' :: sides
  | leftParen => ['(']
  | rightParen => [')']
  | operator op => [op.symbol]
  | missingCount sides => 'd' :: sides
  | unknown c => [c]

/-- Of digits and what follows them: a dice literal needs a digit behind its `d`, and without one
the `d` is left where it is. -/
def scanNumber (digits : List Char) : List Char → Lexeme × List Char
  | 'd' :: c :: cs =>
    if c.isDigit then
      (dice digits ((c :: cs).takeWhile Char.isDigit), (c :: cs).dropWhile Char.isDigit)
    else (integer digits, 'd' :: c :: cs)
  | rest => (integer digits, rest)

def scan (c : Char) (cs : List Char) : Lexeme × List Char :=
  if c.isDigit then scanNumber ((c :: cs).takeWhile Char.isDigit) ((c :: cs).dropWhile Char.isDigit)
  else if c = 'd' then (missingCount (cs.takeWhile Char.isDigit), cs.dropWhile Char.isDigit)
  else if c = '(' then (leftParen, cs)
  else if c = ')' then (rightParen, cs)
  else match Operator.ofSymbol? c with
    | some op => (operator op, cs)
    | none => (unknown c, cs)

theorem scanNumber_chars (digits rest : List Char) :
    (scanNumber digits rest).1.chars ++ (scanNumber digits rest).2 = digits ++ rest := by
  unfold scanNumber
  split
  · split
    · simp [chars, List.takeWhile_append_dropWhile]
    · simp [chars]
  · simp [chars]

theorem scan_chars (c : Char) (cs : List Char) :
    (scan c cs).1.chars ++ (scan c cs).2 = c :: cs := by
  unfold scan
  split
  · rw [scanNumber_chars, List.takeWhile_append_dropWhile]
  · split
    · next h => simp [chars, h, List.takeWhile_append_dropWhile]
    · split
      · next h => simp [chars, h]
      · split
        · next h => simp [chars, h]
        · split
          · next h => simp [chars, Operator.symbol_of_ofSymbol? h]
          · simp [chars]

theorem scan_ne_nil (c : Char) (cs : List Char) : (scan c cs).1.chars ≠ [] := by
  unfold scan
  split
  · next h =>
    unfold scanNumber
    split
    · split <;> simp [chars, h]
    · simp [chars, h]
  · split
    · simp [chars]
    · split
      · simp [chars]
      · split
        · simp [chars]
        · split <;> simp [chars]

theorem length_scan (c : Char) (cs : List Char) : (scan c cs).2.length < (c :: cs).length := by
  have h := congrArg List.length (scan_chars c cs)
  have h' := List.length_pos_iff.2 (scan_ne_nil c cs)
  rw [List.length_append] at h
  omega

end Lexeme

def lexemes : List Char → List Lexeme
  | [] => []
  | c :: cs => (Lexeme.scan c cs).1 :: lexemes (Lexeme.scan c cs).2
termination_by cs => cs.length
decreasing_by exact Lexeme.length_scan c cs

/-- The lexemes of a text tile it. -/
theorem flatMap_chars_lexemes (cs : List Char) : (lexemes cs).flatMap Lexeme.chars = cs := by
  fun_induction lexemes cs with
  | case1 => rfl
  | case2 c cs ih => rw [List.flatMap_cons, ih, Lexeme.scan_chars]

def byteLength : List Char → Nat
  | [] => 0
  | c :: cs => c.utf8Size + byteLength cs

structure Span where
  start : Nat
  stop : Nat
  deriving DecidableEq

def spans (start : Nat) : List Lexeme → List Span
  | [] => []
  | t :: ts => ⟨start, start + byteLength t.chars⟩ :: spans (start + byteLength t.chars) ts

end DiceOdds.Grammar
