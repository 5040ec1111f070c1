import DiceOdds.Proofs.Lexing

namespace DiceOdds.Grammar

namespace Lexeme

variable {t t' : Lexeme} {piece piece' behind behind' : List Char}

theorem Matches.chars_eq (h : t.Matches piece) : t.chars = piece := by
  cases h <;> rfl

theorem Matches.ne_nil (h : t.Matches piece) : piece ≠ [] := by
  rw [← h.chars_eq]
  exact h.formed.chars_ne_nil

theorem Matches.lexemes_eq (h : t.Matches piece) : lexemes piece = [t] := by
  cases h with
  | integer h => exact lexemes_digits h
  | dice hc hs => exact lexemes_dice hc hs
  | leftParen => rw [lexemes_leftParen, lexemes_nil]
  | rightParen => rw [lexemes_rightParen, lexemes_nil]
  | operator op => rw [lexemes_symbol, lexemes_nil]
  | missingCount h => exact lexemes_missingCount h

/-- No two patterns share a text. -/
theorem Matches.unique (h : t.Matches piece) (h' : t'.Matches piece) : t = t' :=
  List.singleton_inj.1 (h.lexemes_eq.symm.trans h'.lexemes_eq)

/-- Whatever a pattern matches at the front of a text, the lexeme found there goes on from it. -/
theorem Matches.exists_scan (h : t.Matches piece) {c : Char} {cs : List Char}
    (hcs : c :: cs = piece ++ behind) : ∃ more, (scan c cs).1.Matches (piece ++ more) := by
  cases h with
  | integer h =>
      have hdigits : Digits (piece ++ behind.takeWhile Char.isDigit) :=
        h.append isDigit_of_mem_takeWhile
      obtain ⟨more, hmore⟩ := exists_matches_scanNumber hdigits (behind.dropWhile Char.isDigit)
      rw [List.append_assoc] at hmore
      rw [scan_digits h hcs]
      exact ⟨_, hmore⟩
  | @dice count sides hc hs =>
      rw [List.append_assoc, List.cons_append] at hcs
      rw [scan_dice hc hs hcs]
      refine ⟨behind.takeWhile Char.isDigit, ?_⟩
      rw [List.append_assoc, List.cons_append]
      exact .dice hc (hs.append isDigit_of_mem_takeWhile)
  | leftParen =>
      obtain ⟨rfl, rfl⟩ := List.cons.inj hcs
      exact ⟨[], .leftParen⟩
  | rightParen =>
      obtain ⟨rfl, rfl⟩ := List.cons.inj hcs
      exact ⟨[], .rightParen⟩
  | operator op =>
      obtain ⟨rfl, rfl⟩ := List.cons.inj hcs
      refine ⟨[], ?_⟩
      cases op <;> exact .operator _
  | @missingCount sides h =>
      rw [List.cons_append] at hcs
      obtain ⟨rfl, rfl⟩ := List.cons.inj hcs
      rw [scan_missingCount h]
      exact ⟨_, .missingCount (List.forall_mem_append.2 ⟨h, isDigit_of_mem_takeWhile⟩)⟩

/-- How the front of a text is read: the longest piece that a pattern matches there, or a single
character where none does. -/
inductive Foremost : Lexeme → List Char → List Char → Prop
  | longest {t : Lexeme} {piece behind : List Char} (h : t.Matches piece)
      (hlongest : ∀ (t' : Lexeme) (piece' : List Char), t'.Matches piece' →
        piece' <+: piece ++ behind → piece'.length ≤ piece.length) : Foremost t piece behind
  | unknown {c : Char} {behind : List Char}
      (hnone : ∀ (t : Lexeme) (piece : List Char), t.Matches piece → ¬piece <+: c :: behind) :
      Foremost (.unknown c) [c] behind

namespace Foremost

theorem ne_nil (h : t.Foremost piece behind) : piece ≠ [] := by
  cases h with
  | longest h => exact h.ne_nil
  | unknown => exact List.cons_ne_nil _ _

/-- What is read at the front does not change when the text is cut off behind it. -/
theorem of_append (h : t.Foremost piece (behind ++ behind')) : t.Foremost piece behind := by
  cases h with
  | longest h hlongest =>
      refine .longest h fun t' piece' h' hprefix => hlongest t' piece' h' ?_
      rw [← List.append_assoc]
      exact hprefix.trans (List.prefix_append _ _)
  | @unknown c _ hnone =>
      refine .unknown fun t' piece' h' hprefix => hnone t' piece' h' ?_
      exact hprefix.trans (List.prefix_append (c :: behind) behind')

theorem unique (h : t.Foremost piece behind) (h' : t'.Foremost piece' behind')
    (heq : piece ++ behind = piece' ++ behind') : t = t' ∧ behind = behind' := by
  have hprefix : piece <+: piece' ++ behind' := heq ▸ List.prefix_append piece behind
  have hprefix' : piece' <+: piece ++ behind := heq ▸ List.prefix_append piece' behind'
  cases h with
  | longest h hlongest =>
      cases h' with
      | longest h' hlongest' =>
          have hlength := Nat.le_antisymm (hlongest' _ _ h hprefix) (hlongest _ _ h' hprefix')
          obtain ⟨rfl, rfl⟩ := List.append_inj heq hlength
          exact ⟨h.unique h', rfl⟩
      | unknown hnone => exact absurd hprefix (hnone _ _ h)
  | unknown hnone =>
      cases h' with
      | longest h' => exact absurd hprefix' (hnone _ _ h')
      | unknown =>
          obtain ⟨rfl, rfl⟩ := List.cons.inj heq
          exact ⟨rfl, rfl⟩

end Foremost

theorem foremost_scan (c : Char) (cs : List Char) :
    (scan c cs).1.Foremost (scan c cs).1.chars (scan c cs).2 := by
  obtain ⟨piece, hpiece⟩ | hunknown := matches_or_eq_unknown c cs
  · rw [hpiece.chars_eq]
    refine .longest hpiece ?_
    rintro t' piece' h' ⟨behind, hbehind⟩
    rw [← hpiece.chars_eq, scan_chars] at hbehind
    obtain ⟨more, hmore⟩ := h'.exists_scan hbehind.symm
    rw [← hpiece.chars_eq, hmore.chars_eq, List.length_append]
    exact Nat.le_add_right _ _
  · rw [hunknown]
    refine .unknown ?_
    rintro t piece h ⟨behind, hbehind⟩
    obtain ⟨more, hmore⟩ := h.exists_scan hbehind.symm
    rw [hunknown] at hmore
    cases hmore

theorem Foremost.lexemes_eq (h : t.Foremost piece behind) :
    lexemes (piece ++ behind) = t :: lexemes behind := by
  obtain ⟨c, cs, hcs⟩ := List.exists_cons_of_ne_nil
    (List.append_ne_nil_of_left_ne_nil h.ne_nil behind)
  have hsplit := (scan_chars c cs).trans hcs.symm
  obtain ⟨ht, hbehind⟩ := (foremost_scan c cs).unique h hsplit
  rw [hcs, lexemes_cons, ht, hbehind]

end Lexeme

/-- Of a text's lexemes some first ones are those of the piece that they cover, and the others those
of the rest. -/
theorem lexemes_eq_append {cs : List Char} {ts us : List Lexeme} (h : lexemes cs = ts ++ us) :
    lexemes (ts.flatMap Lexeme.chars) = ts ∧ lexemes (us.flatMap Lexeme.chars) = us := by
  induction ts generalizing cs with
  | nil =>
      rw [List.nil_append] at h
      exact ⟨lexemes_nil, by rw [← h, flatMap_chars_lexemes]⟩
  | cons t ts ih =>
      cases cs with
      | nil =>
          rw [lexemes_nil] at h
          cases h
      | cons c cs =>
          rw [lexemes_cons, List.cons_append] at h
          obtain ⟨rfl, hrest⟩ := List.cons.inj h
          obtain ⟨hts, hus⟩ := ih hrest
          have hfront := Lexeme.foremost_scan c cs
          rw [← flatMap_chars_lexemes (Lexeme.scan c cs).2, hrest, List.flatMap_append] at hfront
          exact ⟨by rw [List.flatMap_cons, hfront.of_append.lexemes_eq, hts], hus⟩

/-- Every lexeme of a text is the foremost one of what is left of the text. -/
theorem foremost_of_lexemes {cs : List Char} {ts us : List Lexeme} {t : Lexeme}
    (h : lexemes cs = ts ++ t :: us) : t.Foremost t.chars (us.flatMap Lexeme.chars) := by
  have hrest := (lexemes_eq_append h).2
  cases hcs : (t :: us).flatMap Lexeme.chars with
  | nil =>
      rw [hcs, lexemes_nil] at hrest
      cases hrest
  | cons c cs =>
      rw [hcs, lexemes_cons] at hrest
      obtain ⟨rfl, hus⟩ := List.cons.inj hrest
      rw [← hus, flatMap_chars_lexemes]
      exact Lexeme.foremost_scan c cs

end DiceOdds.Grammar
