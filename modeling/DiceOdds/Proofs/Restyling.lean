import DiceOdds.Proofs.RoundTrip

namespace DiceOdds.Grammar

/-- Texts made from lexemes and rolls: each number or dice among the lexemes gives way to the next
roll, which it denotes, in the given style, and each operator stands between separators. Parentheses
stay where they are. -/
inductive Restyled (style : Style) : List Lexeme → List Roll → List Char → Prop
  | nil : Restyled style [] [] []
  | term {t : Lexeme} {r : Roll} {ts : List Lexeme} {rs : List Roll} {text : List Char}
      (ht : t.Denotes r) (h : Restyled style ts rs text) :
      Restyled style (t :: ts) (r :: rs) ((style.roll r).toList ++ text)
  | operator (op : Operator) {ts : List Lexeme} {rs : List Roll} {text : List Char}
      (h : Restyled style ts rs text) :
      Restyled style (.operator op :: ts) rs
        (style.separator.toList ++ op.symbol :: style.separator.toList ++ text)
  | leftParen {ts : List Lexeme} {rs : List Roll} {text : List Char}
      (h : Restyled style ts rs text) : Restyled style (.leftParen :: ts) rs ('(' :: text)
  | rightParen {ts : List Lexeme} {rs : List Roll} {text : List Char}
      (h : Restyled style ts rs text) : Restyled style (.rightParen :: ts) rs (')' :: text)

namespace Restyled

variable {style : Style} {ts us : List Lexeme} {rs ss : List Roll} {text text' : List Char}

theorem append (h : Restyled style ts rs text) (h' : Restyled style us ss text') :
    Restyled style (ts ++ us) (rs ++ ss) (text ++ text') := by
  induction h with
  | nil => exact h'
  | term ht _ ih =>
      rw [List.append_assoc]
      exact .term ht ih
  | operator op _ ih =>
      rw [List.append_assoc]
      exact .operator op ih
  | leftParen _ ih => exact .leftParen ih
  | rightParen _ ih => exact .rightParen ih

/-- The lexemes and the rolls leave no choice. -/
theorem unique (h : Restyled style ts rs text) (h' : Restyled style ts rs text') :
    text = text' := by
  induction h generalizing text' with
  | nil =>
      cases h'
      rfl
  | term ht _ ih =>
      cases h' with
      | term _ h' => rw [ih h']
      | operator | leftParen | rightParen => cases ht
  | operator op _ ih =>
      cases h' with
      | term ht => cases ht
      | operator _ h' => rw [ih h']
  | leftParen _ ih =>
      cases h' with
      | term ht => cases ht
      | leftParen h' => rw [ih h']
  | rightParen _ ih =>
      cases h' with
      | term ht => cases ht
      | rightParen h' => rw [ih h']

theorem bracketed {s s' : String} (h : Restyled style (lexemes s.toList) rs s'.toList) (b : Bool) :
    Restyled style (lexemes (Expr.bracketed b s).toList) rs (Expr.bracketed b s').toList := by
  rw [toList_bracketed, toList_bracketed]
  cases b with
  | false => exact h
  | true =>
      have hgroup := Restyled.leftParen (h.append (.rightParen .nil))
      rw [List.append_nil] at hgroup
      rw [if_pos rfl, if_pos rfl, lexemes_group]
      exact hgroup

end Restyled

theorem exists_denotes_text (r : Roll) : ∃ t, lexemes r.text.toList = [t] ∧ t.Denotes r := by
  obtain ⟨hnumeral, hr⟩ | ⟨count, sides, htext, hcount, hsides⟩ := text_roll r
  · have hdenotes := Lexeme.Denotes.integer hnumeral.ofDigits
    rw [← hr] at hdenotes
    exact ⟨.integer r.text.toList, lexemes_digits hnumeral.1, hdenotes⟩
  · refine ⟨.dice count sides, ?_, .dice hcount.ofDigits hsides.ofDigits⟩
    rw [htext, lexemes_dice hcount.1 hsides.1]

/-- Where parentheses stand is decided by the tree alone, and the lexemes of the compact text show
it. -/
theorem restyled_render (style : Style) (e : Expr) :
    Restyled style (lexemes e.text.toList) e.leaves (e.render style).toList := by
  induction e with
  | roll r =>
      obtain ⟨t, ht, hdenotes⟩ := exists_denotes_text r
      have hterm : Restyled style [t] [r] _ := .term hdenotes .nil
      rw [List.append_nil] at hterm
      rw [show (Expr.roll r).text = r.text from rfl, ht]
      exact hterm
  | binary l op r ihl ihr =>
      have hlink := (ihl.bracketed (op.isMultiplicative && l.isAdditive)).append
        (.operator op (ihr.bracketed r.isBinary))
      rw [toList_text_binary, lexemes_link, Expr.leaves, Expr.render]
      simpa using hlink

/-- Styles differ in the rolls and what stands around operators, and in nothing else. What only
adds spaces is read as the compact text is, and fails to be for the same cause. -/
theorem render_restyles (style : Style) (e : Expr) :
    (∀ text, Restyled style (lexemes e.text.toList) e.leaves text ↔
      text = (e.render style).toList) ∧
    (e.render .spaced).toList.filter (· != ' ') = e.text.toList ∧
    ((parse (e.render .spaced) = .ok e ∧ parse e.text = .ok e) ∨
      ∃ f g, parse (e.render .spaced) = .error f ∧ parse e.text = .error g ∧
        f.cause = g.cause) := by
  refine ⟨fun text => ?_, ?_, ?_⟩
  · constructor
    · exact fun h => h.unique (restyled_render style e)
    · rintro rfl
      exact restyled_render style e
  · apply filter_render _ rfl
    · intro c hc
      rw [List.mem_singleton.1 hc]
      rfl
    · intro c hc
      exact bne_iff_ne.2 (fun hspace => absurd (hspace ▸ hc) (by decide))
  · have hspaced := derives_spaced e
    have hcompact := derives_compact e
    by_cases hlimits : nesting 0 e.text.toList ≤ maxDepth ∧ e.leaves.length ≤ maxTerms
    · exact .inl ⟨hspaced.parse_eq_ok_iff.2 hlimits, hcompact.parse_eq_ok_iff.2 hlimits⟩
    · obtain ⟨f, hf, -, hcause⟩ := hspaced.parse_of_exceeds hlimits
      obtain ⟨g, hg, -, hcause'⟩ := hcompact.parse_of_exceeds hlimits
      have hvisible : visible (e.render .spaced).toList = visible e.text.toList := by
        rw [visible_render rfl isBlank_spaced]
        exact (visible_eq_self (derives_text e).graphic).symm
      rw [hvisible, hcause'] at hcause
      exact .inr ⟨f, g, hf, hg, (Option.some.inj hcause).symm⟩

end DiceOdds.Grammar
