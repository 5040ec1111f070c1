import DiceOdds.Grammar.Parse
import DiceOdds.Proofs.Lexing

namespace DiceOdds.Grammar

def Numeral (digits : List Char) (q : Quantity) : Prop :=
  Digits digits ∧ Nat.ofDigitChars 10 digits 0 = q.val

inductive Phrase
  | atom
  | chain

/-- The grammar of expressions: which texts an atom or a chain can be, with the tree that is read
off a derivation, how deep its groups nest and how many numbers and dice it has. A chain is an atom
that operators and further atoms follow, and associates to the left whatever the operators are. A
group is the tree within it. -/
inductive Derives : Phrase → List Char → Expr → Nat → Nat → Prop
  | constant {digits : List Char} {q : Quantity} (h : Numeral digits q) :
      Derives .atom digits (.roll (.constant q)) 0 1
  | dice {count sides : List Char} {c s : Quantity} (hc : Numeral count c)
      (hs : Numeral sides s) : Derives .atom (count ++ 'd' :: sides) (.roll ⟨c, s⟩) 0 1
  | group {t : List Char} {e : Expr} {d n : Nat} (h : Derives .chain t e d n) :
      Derives .atom ('(' :: t ++ [')']) e (d + 1) n
  | single {t : List Char} {e : Expr} {d n : Nat} (h : Derives .atom t e d n) :
      Derives .chain t e d n
  | link {t u : List Char} {l r : Expr} {d d' n n' : Nat} (hl : Derives .chain t l d n)
      (op : Operator) (hr : Derives .atom u r d' n') :
      Derives .chain (t ++ op.symbol :: u) (.binary l op r) (max d d') (n + n')

theorem Numeral.ofDigits {digits : List Char} {q : Quantity} (h : Numeral digits q) :
    Quantity.ofDigits digits = .ok q :=
  Quantity.ofNat_eq_ok_iff.2 h.2

theorem numeral_of_ofDigits {digits : List Char} {q : Quantity} (hd : Digits digits)
    (h : Quantity.ofDigits digits = .ok q) : Numeral digits q :=
  ⟨hd, Quantity.ofNat_eq_ok_iff.1 h⟩

theorem lexemes_group (t : List Char) :
    lexemes ('(' :: t ++ [')']) = .leftParen :: (lexemes t ++ [.rightParen]) := by
  rw [List.cons_append, lexemes_leftParen, lexemes_append (Apart.cons rfl (by decide) []),
    lexemes_rightParen, lexemes_nil]

theorem lexemes_link (t u : List Char) (op : Operator) :
    lexemes (t ++ op.symbol :: u) = lexemes t ++ .operator op :: lexemes u := by
  rw [lexemes_append (Apart.symbol op u), lexemes_symbol]

end DiceOdds.Grammar
