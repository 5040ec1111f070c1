import DiceOdds.Expr.Basic
import DiceOdds.Grammar.Parse
import DiceOdds.Proofs.Derivation
import DiceOdds.Proofs.Leaves

namespace DiceOdds

def Expr.nest : Expr → Nat
  | roll _ => 0
  | binary l op r =>
    max (l.nest + (op.isMultiplicative && l.isAdditive).toNat) (r.nest + r.isBinary.toNat)

end DiceOdds

namespace DiceOdds.Grammar

theorem digits_toString (n : Nat) : Digits (toString n).toList := by
  rw [Nat.toString_eq_repr, Nat.toList_repr]
  refine ⟨Nat.toDigits_ne_nil, ?_⟩
  intro c hc
  exact Nat.isDigit_of_mem_toDigits (by decide) (by decide) hc

theorem ofDigitChars_toString (n : Nat) : Nat.ofDigitChars 10 (toString n).toList 0 = n := by
  rw [Nat.toString_eq_repr, Nat.toList_repr, Nat.ofDigitChars_ten_toDigits]

theorem numeral_toString (q : Quantity) : Numeral (toString q.val).toList q :=
  ⟨digits_toString q.val, ofDigitChars_toString q.val⟩

theorem eq_constant_of_isConstant {r : Roll} (h : r.isConstant = true) : r = .constant r.count := by
  obtain ⟨count, sides, hpos, hlt⟩ := r
  obtain rfl : sides = 1 := by simpa [Roll.isConstant] using h
  rfl

/-- A constant is written as a number, and anything else as dice. -/
theorem text_roll (r : Roll) :
    (Numeral r.text.toList r.count ∧ r = .constant r.count) ∨
    ∃ count sides, r.text.toList = count ++ 'd' :: sides ∧ Numeral count r.count ∧
      Numeral sides r.sides := by
  rw [Roll.text]
  split
  · next h => exact .inl ⟨numeral_toString r.count, eq_constant_of_isConstant h⟩
  · rw [String.toList_append, String.toList_append, List.append_assoc]
    exact .inr ⟨_, _, rfl, numeral_toString r.count, numeral_toString r.sides⟩

theorem derives_roll (r : Roll) : Derives .atom r.text.toList (.roll r) 0 1 := by
  obtain ⟨hnumeral, hr⟩ | ⟨count, sides, htext, hcount, hsides⟩ := text_roll r
  · have hderives := Derives.constant hnumeral
    rwa [← hr] at hderives
  · rw [htext]
    exact .dice hcount hsides

theorem toList_bracketed (b : Bool) (s : String) :
    (Expr.bracketed b s).toList = if b then '(' :: s.toList ++ [')'] else s.toList := by
  cases b with
  | false => rfl
  | true => simp [Expr.bracketed]

theorem toList_text_binary (l : Expr) (op : Operator) (r : Expr) :
    (Expr.binary l op r).text.toList =
      (Expr.bracketed (op.isMultiplicative && l.isAdditive) l.text).toList ++
        op.symbol :: (Expr.bracketed r.isBinary r.text).toList := by
  simp [Expr.text, Expr.render, Style.compact]

theorem Derives.bracketed {s : String} {e : Expr} {d n : Nat}
    (h : Derives .chain s.toList e d n) (b : Bool) :
    Derives .chain (Expr.bracketed b s).toList e (d + b.toNat) n := by
  rw [toList_bracketed]
  cases b with
  | false => exact h
  | true => exact .single (.group h)

/-- Every tree is written as a text that the grammar derives with this tree. -/
theorem derives_text (e : Expr) :
    Derives .chain e.text.toList e e.nest e.leaves.length := by
  induction e with
  | roll r => exact .single (derives_roll r)
  | binary l op r ihl ihr =>
      have hright : Derives .atom (Expr.bracketed r.isBinary r.text).toList r
          (r.nest + r.isBinary.toNat) r.leaves.length := by
        rw [toList_bracketed]
        cases r with
        | roll r => exact derives_roll r
        | binary => exact .group ihr
      rw [toList_text_binary, Expr.nest, Expr.leaves, List.length_append]
      exact .link (ihl.bracketed _) op hright

def Graphic (c : Char) : Prop := 0x20 < c.toNat ∧ c.toNat < 0x7f

instance (c : Char) : Decidable (Graphic c) := inferInstanceAs (Decidable (_ ∧ _))

theorem Graphic.not_blank {c : Char} (h : Graphic c) : Text.isBlank c = false := by
  obtain ⟨hlo, hhi⟩ := h
  simp [Text.isBlank, Text.blankRanges, Text.inRanges]
  omega

theorem Digits.graphic {digits : List Char} (h : Digits digits) : ∀ c ∈ digits, Graphic c := by
  intro c hc
  obtain ⟨hlo, hhi⟩ := Char.isDigit_iff_toNat.1 (h.2 c hc)
  exact ⟨Nat.lt_of_lt_of_le (by decide) hlo, Nat.lt_of_le_of_lt hhi (by decide)⟩

theorem graphic_symbol (op : Operator) : Graphic op.symbol := by
  cases op <;> decide

theorem Derives.graphic {p : Phrase} {t : List Char} {e : Expr} {d n : Nat}
    (h : Derives p t e d n) : ∀ c ∈ t, Graphic c := by
  induction h with
  | constant h => exact h.1.graphic
  | dice hc hs =>
      rw [List.forall_mem_append, List.forall_mem_cons]
      exact ⟨hc.1.graphic, by decide, hs.1.graphic⟩
  | group _ ih =>
      rw [List.forall_mem_append, List.forall_mem_cons, List.forall_mem_singleton]
      exact ⟨⟨by decide, ih⟩, by decide⟩
  | single _ ih => exact ih
  | link _ op _ ihl ihr =>
      rw [List.forall_mem_append, List.forall_mem_cons]
      exact ⟨ihl, graphic_symbol op, ihr⟩

theorem visible_append (t u : List Char) : visible (t ++ u) = visible t ++ visible u :=
  List.filter_append ..

theorem visible_eq_self {t : List Char} (h : ∀ c ∈ t, Graphic c) : visible t = t := by
  apply List.filter_eq_self.2
  intro c hc
  rw [(h c hc).not_blank]
  rfl

theorem visible_eq_nil {t : List Char} (h : ∀ c ∈ t, Text.isBlank c = true) : visible t = [] := by
  apply List.filter_eq_nil_iff.2
  intro c hc
  simp [h c hc]

section

variable {p : Char → Bool} (hgraphic : ∀ c, Graphic c → p c = true)
include hgraphic

theorem filter_bracketed (b : Bool) {s s' : String} (h : s.toList.filter p = s'.toList) :
    (Expr.bracketed b s).toList.filter p = (Expr.bracketed b s').toList := by
  rw [toList_bracketed, toList_bracketed]
  cases b with
  | false => exact h
  | true =>
      have hopen : p '(' = true := hgraphic '(' (by decide)
      have hclose : p ')' = true := hgraphic ')' (by decide)
      simp [hopen, hclose, h]

/-- Where a style only differs in what it puts around the operators, the text is the compact one
once that is deleted. -/
theorem filter_render {style : Style} (hroll : style.roll = Roll.text)
    (hseparator : ∀ c ∈ style.separator.toList, p c = false) (e : Expr) :
    (e.render style).toList.filter p = e.text.toList := by
  induction e with
  | roll r =>
      rw [Expr.render, hroll]
      apply List.filter_eq_self.2
      intro c hc
      exact hgraphic c ((derives_roll r).graphic c hc)
  | binary l op r ihl ihr =>
      have hsymbol : p op.symbol = true := hgraphic _ (graphic_symbol op)
      have hnil : style.separator.toList.filter p = [] := by
        apply List.filter_eq_nil_iff.2
        intro c hc
        simp [hseparator c hc]
      rw [Expr.render, toList_text_binary]
      simp [filter_bracketed hgraphic _ ihl, filter_bracketed hgraphic _ ihr, hnil, hsymbol]

end

/-- Without its blanks a text is the compact one, if blanks are all that a style puts around the
operators. -/
theorem visible_render {style : Style} (hroll : style.roll = Roll.text)
    (hseparator : ∀ c ∈ style.separator.toList, Text.isBlank c = true) (e : Expr) :
    visible (e.render style).toList = e.text.toList := by
  apply filter_render _ hroll
  · intro c hc
    rw [hseparator c hc]
    rfl
  · intro c hc
    rw [hc.not_blank]
    rfl

end DiceOdds.Grammar
