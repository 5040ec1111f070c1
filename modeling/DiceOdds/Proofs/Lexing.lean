import DiceOdds.Grammar.Lexeme

namespace DiceOdds.Grammar

/-- A text that no number before it goes on into. -/
def Apart (cs : List Char) : Prop := ∀ c, cs.head? = some c → c.isDigit = false ∧ c ≠ 'd'

theorem Apart.cons {c : Char} (hd : c.isDigit = false) (hc : c ≠ 'd') (cs : List Char) :
    Apart (c :: cs) := by
  intro c' h
  cases h
  exact ⟨hd, hc⟩

theorem Apart.symbol (op : Operator) (cs : List Char) : Apart (op.symbol :: cs) := by
  cases op <;> exact Apart.cons rfl (by decide) cs

theorem Apart.takeWhile_eq_nil {ds : List Char} (h : Apart ds) :
    ds.takeWhile Char.isDigit = [] := by
  cases ds with
  | nil => rfl
  | cons d ds => rw [List.takeWhile_cons_of_neg (by simp [(h d rfl).1])]

theorem Apart.dropWhile_eq_self {ds : List Char} (h : Apart ds) :
    ds.dropWhile Char.isDigit = ds := by
  cases ds with
  | nil => rfl
  | cons d ds => rw [List.dropWhile_cons_of_neg (by simp [(h d rfl).1])]

theorem Apart.takeWhile_append {ds : List Char} (h : Apart ds) (cs : List Char) :
    (cs ++ ds).takeWhile Char.isDigit = cs.takeWhile Char.isDigit := by
  induction cs with
  | nil => exact h.takeWhile_eq_nil
  | cons c cs ih =>
      rw [List.cons_append, List.takeWhile_cons, List.takeWhile_cons, ih]

theorem Apart.dropWhile_append {ds : List Char} (h : Apart ds) (cs : List Char) :
    (cs ++ ds).dropWhile Char.isDigit = cs.dropWhile Char.isDigit ++ ds := by
  induction cs with
  | nil => exact h.dropWhile_eq_self
  | cons c cs ih =>
      rw [List.cons_append, List.dropWhile_cons, List.dropWhile_cons, ih]
      split <;> rfl

namespace Lexeme

theorem scanNumber_integer {digits cs : List Char}
    (h : ∀ c cs', cs = 'd' :: c :: cs' → c.isDigit = false) :
    scanNumber digits cs = (integer digits, cs) := by
  unfold scanNumber
  split
  · next c cs' => rw [if_neg (by simp [h c cs' rfl])]
  · rfl

theorem scanNumber_dice {digits cs : List Char} {c : Char} (h : c.isDigit = true) :
    scanNumber digits ('d' :: c :: cs) =
      (dice digits ((c :: cs).takeWhile Char.isDigit), (c :: cs).dropWhile Char.isDigit) := by
  rw [scanNumber, if_pos h]

/-- Either a dice literal goes on behind its digits, or these are a number. -/
theorem exists_sides_or (cs : List Char) :
    (∃ c cs', cs = 'd' :: c :: cs' ∧ c.isDigit = true) ∨
      ∀ c cs', cs = 'd' :: c :: cs' → c.isDigit = false := by
  by_cases h : ∃ c cs', cs = 'd' :: c :: cs' ∧ c.isDigit = true
  · exact .inl h
  · right
    intro c cs' hcs
    rw [← Bool.not_eq_true]
    exact fun hc => h ⟨c, cs', hcs, hc⟩

theorem scanNumber_append {ds : List Char} (h : Apart ds) (digits cs : List Char) :
    scanNumber digits (cs ++ ds) =
      ((scanNumber digits cs).1, (scanNumber digits cs).2 ++ ds) := by
  obtain ⟨c, cs', rfl, hc⟩ | hcs := exists_sides_or cs
  · rw [scanNumber_dice hc, List.cons_append, List.cons_append, scanNumber_dice hc,
      ← List.cons_append, h.takeWhile_append, h.dropWhile_append]
  · rw [scanNumber_integer hcs]
    apply scanNumber_integer
    intro c cs' hd
    -- Either the character behind the `d` was there before, or it begins `ds`.
    match cs with
    | [] =>
        exact absurd rfl (h 'd' (by simp_all)).2
    | [b] =>
        obtain ⟨rfl, rfl⟩ : b = 'd' ∧ ds = c :: cs' := by simpa using hd
        exact (h c rfl).1
    | b :: b' :: bs =>
        obtain ⟨rfl, rfl, -⟩ : b = 'd' ∧ b' = c ∧ bs ++ ds = cs' := by simpa using hd
        exact hcs _ _ rfl

theorem scan_append {ds : List Char} (h : Apart ds) (c : Char) (cs : List Char) :
    scan c (cs ++ ds) = ((scan c cs).1, (scan c cs).2 ++ ds) := by
  unfold scan
  split
  · rw [← List.cons_append, h.takeWhile_append, h.dropWhile_append, scanNumber_append h]
  · split
    · rw [h.takeWhile_append, h.dropWhile_append]
    · split
      · rfl
      · split
        · rfl
        · split <;> rfl

end Lexeme

theorem lexemes_nil : lexemes [] = [] := by
  rw [lexemes]

theorem lexemes_cons (c : Char) (cs : List Char) :
    lexemes (c :: cs) = (Lexeme.scan c cs).1 :: lexemes (Lexeme.scan c cs).2 := by
  rw [lexemes]

/-- No lexeme reaches over a place that no number goes on over. -/
theorem lexemes_append {ds : List Char} (h : Apart ds) (cs : List Char) :
    lexemes (cs ++ ds) = lexemes cs ++ lexemes ds := by
  fun_induction lexemes cs with
  | case1 => rfl
  | case2 c cs ih =>
      rw [List.cons_append, lexemes_cons, Lexeme.scan_append h, ih, List.cons_append]

theorem lexemes_leftParen (cs : List Char) : lexemes ('(' :: cs) = .leftParen :: lexemes cs := by
  rw [lexemes_cons]
  rfl

theorem lexemes_rightParen (cs : List Char) :
    lexemes (')' :: cs) = .rightParen :: lexemes cs := by
  rw [lexemes_cons]
  rfl

theorem lexemes_symbol (op : Operator) (cs : List Char) :
    lexemes (op.symbol :: cs) = .operator op :: lexemes cs := by
  rw [lexemes_cons]
  cases op <;> rfl

def Digits (cs : List Char) : Prop := cs ≠ [] ∧ ∀ c ∈ cs, c.isDigit = true

theorem Digits.exists_cons {cs : List Char} (h : Digits cs) :
    ∃ c cs', cs = c :: cs' ∧ c.isDigit = true := by
  obtain ⟨c, cs', rfl⟩ := List.exists_cons_of_ne_nil h.1
  exact ⟨c, cs', rfl, h.2 c List.mem_cons_self⟩

theorem Digits.takeWhile_append {cs : List Char} (h : Digits cs) (ds : List Char) :
    (cs ++ ds).takeWhile Char.isDigit = cs ++ ds.takeWhile Char.isDigit :=
  List.takeWhile_append_of_pos h.2

theorem Digits.dropWhile_append {cs : List Char} (h : Digits cs) (ds : List Char) :
    (cs ++ ds).dropWhile Char.isDigit = ds.dropWhile Char.isDigit :=
  List.dropWhile_append_of_pos h.2

theorem isDigit_of_mem_takeWhile {cs : List Char} :
    ∀ c ∈ cs.takeWhile Char.isDigit, c.isDigit = true :=
  List.all_eq_true.1 List.all_takeWhile

theorem Digits.takeWhile {c : Char} (h : c.isDigit = true) (cs : List Char) :
    Digits ((c :: cs).takeWhile Char.isDigit) := by
  constructor
  · simp [h]
  · exact isDigit_of_mem_takeWhile

theorem Digits.append {cs ds : List Char} (h : Digits cs) (hds : ∀ c ∈ ds, c.isDigit = true) :
    Digits (cs ++ ds) :=
  ⟨List.append_ne_nil_of_left_ne_nil h.1 ds, List.forall_mem_append.2 ⟨h.2, hds⟩⟩

namespace Lexeme

variable {digits count sides rest cs : List Char} {c : Char}

theorem scan_digits (h : Digits digits) (hcs : c :: cs = digits ++ rest) :
    scan c cs =
      scanNumber (digits ++ rest.takeWhile Char.isDigit) (rest.dropWhile Char.isDigit) := by
  obtain ⟨b, bs, rfl, hb⟩ := h.exists_cons
  obtain ⟨rfl, -⟩ := List.cons.inj hcs
  rw [scan, if_pos hb, hcs, h.takeWhile_append, h.dropWhile_append]

theorem scan_dice (hc : Digits count) (hs : Digits sides)
    (hcs : c :: cs = count ++ 'd' :: (sides ++ rest)) :
    scan c cs =
      (dice count (sides ++ rest.takeWhile Char.isDigit), rest.dropWhile Char.isDigit) := by
  obtain ⟨s, ss, rfl, hs'⟩ := hs.exists_cons
  rw [scan_digits hc hcs, List.takeWhile_cons_of_neg (by decide),
    List.dropWhile_cons_of_neg (by decide), List.append_nil, List.cons_append,
    scanNumber_dice hs', ← List.cons_append, hs.takeWhile_append, hs.dropWhile_append]

theorem scan_missingCount (h : ∀ c ∈ sides, c.isDigit = true) (rest : List Char) :
    scan 'd' (sides ++ rest) =
      (missingCount (sides ++ rest.takeWhile Char.isDigit), rest.dropWhile Char.isDigit) := by
  rw [scan, if_neg (by decide), if_pos rfl, List.takeWhile_append_of_pos h,
    List.dropWhile_append_of_pos h]

end Lexeme

theorem lexemes_digits {cs : List Char} (h : Digits cs) : lexemes cs = [.integer cs] := by
  obtain ⟨c, cs, rfl, -⟩ := h.exists_cons
  rw [lexemes_cons, Lexeme.scan_digits h (List.append_nil _).symm, List.takeWhile_nil,
    List.dropWhile_nil, List.append_nil, Lexeme.scanNumber_integer (by simp), lexemes_nil]

theorem lexemes_dice {count sides : List Char} (hc : Digits count) (hs : Digits sides) :
    lexemes (count ++ 'd' :: sides) = [.dice count sides] := by
  obtain ⟨c, cs, hcs⟩ := List.exists_cons_of_ne_nil
    (List.append_ne_nil_of_left_ne_nil hc.1 ('d' :: sides))
  have hcs' : c :: cs = count ++ 'd' :: (sides ++ []) := by rw [List.append_nil, hcs]
  rw [hcs, lexemes_cons, Lexeme.scan_dice hc hs hcs', List.takeWhile_nil, List.dropWhile_nil,
    List.append_nil, lexemes_nil]

theorem lexemes_missingCount {sides : List Char} (h : ∀ c ∈ sides, c.isDigit = true) :
    lexemes ('d' :: sides) = [.missingCount sides] := by
  have hscan := Lexeme.scan_missingCount h []
  rw [List.takeWhile_nil, List.dropWhile_nil, List.append_nil] at hscan
  rw [lexemes_cons, hscan, lexemes_nil]

namespace Lexeme

/-- The patterns of the lexemes: which texts are written for which of them. -/
inductive Matches : Lexeme → List Char → Prop
  | integer {digits : List Char} (h : Digits digits) : Matches (.integer digits) digits
  | dice {count sides : List Char} (hc : Digits count) (hs : Digits sides) :
      Matches (.dice count sides) (count ++ 'd' :: sides)
  | leftParen : Matches .leftParen ['(']
  | rightParen : Matches .rightParen [')']
  | operator (op : Operator) : Matches (.operator op) [op.symbol]
  | missingCount {sides : List Char} (h : ∀ c ∈ sides, c.isDigit = true) :
      Matches (.missingCount sides) ('d' :: sides)

theorem exists_matches_scanNumber {digits : List Char} (h : Digits digits) (rest : List Char) :
    ∃ more, (scanNumber digits rest).1.Matches (digits ++ more) := by
  obtain ⟨c, cs, rfl, hc⟩ | hrest := exists_sides_or rest
  · rw [scanNumber_dice hc]
    exact ⟨_, .dice h (Digits.takeWhile hc cs)⟩
  · rw [scanNumber_integer hrest]
    refine ⟨[], ?_⟩
    rw [List.append_nil]
    exact .integer h

theorem matches_or_eq_unknown (c : Char) (cs : List Char) :
    (∃ piece, (scan c cs).1.Matches piece) ∨ scan c cs = (unknown c, cs) := by
  unfold scan
  split
  · next hc =>
    obtain ⟨more, hmore⟩ := exists_matches_scanNumber (Digits.takeWhile hc cs)
      ((c :: cs).dropWhile Char.isDigit)
    exact .inl ⟨_, hmore⟩
  · split
    · exact .inl ⟨_, .missingCount isDigit_of_mem_takeWhile⟩
    · split
      · exact .inl ⟨_, .leftParen⟩
      · split
        · exact .inl ⟨_, .rightParen⟩
        · split
          · exact .inl ⟨_, .operator _⟩
          · exact .inr rfl

def Formed : Lexeme → Prop
  | integer digits => Digits digits
  | dice count sides => Digits count ∧ Digits sides
  | _ => True

theorem Matches.formed {t : Lexeme} {piece : List Char} (h : t.Matches piece) : t.Formed := by
  cases h with
  | integer h => exact h
  | dice hc hs => exact ⟨hc, hs⟩
  | leftParen | rightParen | operator | missingCount => trivial

theorem Formed.chars_ne_nil {t : Lexeme} (h : t.Formed) : t.chars ≠ [] := by
  cases t with
  | integer digits => exact h.1
  | dice count sides => exact List.append_ne_nil_of_right_ne_nil count (List.cons_ne_nil _ _)
  | leftParen | rightParen | operator | missingCount | unknown => exact List.cons_ne_nil _ _

theorem formed_scan (c : Char) (cs : List Char) : (scan c cs).1.Formed := by
  obtain ⟨piece, hpiece⟩ | hunknown := matches_or_eq_unknown c cs
  · exact hpiece.formed
  · rw [hunknown]
    trivial

end Lexeme

theorem formed_of_mem_lexemes {cs : List Char} {t : Lexeme} (h : t ∈ lexemes cs) : t.Formed := by
  fun_induction lexemes cs with
  | case1 => cases h
  | case2 c cs ih =>
      rcases List.mem_cons.1 h with rfl | h
      · exact Lexeme.formed_scan c cs
      · exact ih h

end DiceOdds.Grammar
