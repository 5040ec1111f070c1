import DiceOdds.Proofs.Limits
import DiceOdds.Proofs.Parsing
import DiceOdds.Proofs.Printing

namespace DiceOdds.Grammar

theorem Derives.read_of_exceeds {t : List Char} {e : Expr} {d n : Nat}
    (h : Derives .chain t e d n) (hlimits : ¬ (d ≤ maxDepth ∧ n ≤ maxTerms)) :
    ∃ r, read (lexemes t) = .error r ∧ State.start.Exceeds d n r.cause ∧
      overrun 0 0 (lexemes t) = some r.cause := by
  have hfits : ¬ State.Fits .start d n := by
    simpa [State.Fits, State.start] using hlimits
  obtain ⟨r, hrun, hcause⟩ :=
    (h.reads [] 0 none (fun _ => rfl) (Nat.zero_le _) 0 []).2 hfits
  rw [List.append_nil] at hrun
  have hoverrun := overrun_of_run hrun hcause.isLimit
  refine ⟨r, ?_, hcause, hoverrun⟩
  rw [read, if_neg, ← hrun]
  · rfl
  · intro hnil
    rw [hnil] at hoverrun
    cases hoverrun

theorem parse_eq_error {text : String} {r : Refusal}
    (h : read (lexemes (visible text.toList)) = .error r) :
    parse text = .error (r.inText text.toList) := by
  rw [parse, h]
  rfl

section Texts

variable {text : String} {e : Expr} {d n : Nat}

theorem Derives.parse_of_exceeds (h : Derives .chain (visible text.toList) e d n)
    (hlimits : ¬ (d ≤ maxDepth ∧ n ≤ maxTerms)) :
    ∃ f, parse text = .error f ∧ State.start.Exceeds d n f.cause ∧
      overrun 0 0 (lexemes (visible text.toList)) = some f.cause := by
  obtain ⟨r, hr, hcause, hoverrun⟩ := h.read_of_exceeds hlimits
  exact ⟨_, parse_eq_error hr, hcause, hoverrun⟩

theorem Derives.parse_eq_ok_iff (h : Derives .chain (visible text.toList) e d n) :
    parse text = .ok e ↔ d ≤ maxDepth ∧ n ≤ maxTerms := by
  constructor
  · intro hok
    by_cases hlimits : d ≤ maxDepth ∧ n ≤ maxTerms
    · exact hlimits
    · obtain ⟨f, hf, -⟩ := h.parse_of_exceeds hlimits
      rw [hf] at hok
      cases hok
  · intro ⟨hd, hn⟩
    exact (parse_eq_ok_iff_read text e).2 (h.read_of_fits hd hn)

theorem length_leaves_le_of_parse (h : parse text = .ok e) : e.leaves.length ≤ maxTerms := by
  obtain ⟨d, n, hderives, hd, hn⟩ := derives_of_read ((parse_eq_ok_iff_read text e).1 h)
  rw [hderives.length_leaves]
  exact hn

end Texts

theorem nesting_text (e : Expr) : nesting 0 e.text.toList = e.nest :=
  (derives_text e).nesting_eq

/-- The text of a tree, in any style that only puts blanks around operators, derives the tree with
the nesting of the compact text and a term for every leaf. -/
theorem derives_render {style : Style} (hroll : style.roll = Roll.text)
    (hseparator : ∀ c ∈ style.separator.toList, Text.isBlank c = true) (e : Expr) :
    Derives .chain (visible (e.render style).toList) e (nesting 0 e.text.toList)
      e.leaves.length := by
  rw [visible_render hroll hseparator, nesting_text]
  exact derives_text e

theorem derives_compact (e : Expr) :
    Derives .chain (visible e.text.toList) e (nesting 0 e.text.toList) e.leaves.length :=
  derives_render rfl (by simp [Style.compact]) e

theorem isBlank_spaced : ∀ c ∈ Style.spaced.separator.toList, Text.isBlank c = true := by
  intro c hc
  obtain rfl : c = ' ' := List.mem_singleton.1 hc
  decide

theorem derives_spaced (e : Expr) :
    Derives .chain (visible (e.render .spaced).toList) e (nesting 0 e.text.toList)
      e.leaves.length :=
  derives_render rfl isBlank_spaced e

def climb : Nat → List Char
  | 0 => ['1']
  | n + 1 => climb n ++ '+' :: ['1'] ++ '*' :: ['1']

def staircase : Nat → Expr
  | 0 => .roll (.constant .one)
  | n + 1 => .binary (.binary (staircase n) .add (.roll (.constant .one))) .mul
      (.roll (.constant .one))

theorem derives_one : Derives .atom ['1'] (.roll (.constant .one)) 0 1 :=
  .constant ⟨⟨List.cons_ne_nil _ _, by simp⟩, rfl⟩

theorem derives_climb (n : Nat) : Derives .chain (climb n) (staircase n) 0 (2 * n + 1) := by
  induction n with
  | zero => exact .single derives_one
  | succ n ih => exact .link (.link ih .add derives_one) .mul derives_one

theorem parse_climb {n : Nat} (h : 2 * n + 1 ≤ maxTerms) :
    parse (String.ofList (climb n)) = .ok (staircase n) := by
  have hderives := derives_climb n
  rw [← visible_eq_self hderives.graphic, ← String.toList_ofList (l := climb n)] at hderives
  exact hderives.parse_eq_ok_iff.2 ⟨Nat.zero_le _, h⟩

theorem length_leaves_staircase (n : Nat) : (staircase n).leaves.length = 2 * n + 1 :=
  (derives_climb n).length_leaves

theorem nesting_staircase (n : Nat) : nesting 0 (staircase n).text.toList = n := by
  rw [nesting_text]
  induction n with
  | zero => rfl
  | succ n ih =>
      simp [staircase, Expr.nest, Operator.isMultiplicative, Expr.isAdditive, Expr.isBinary, ih]

/-- A tree is read back from its text if and only if neither its leaves nor the parentheses of the
text go over a limit. Where they do, the fault is the limit that is passed first. -/
theorem parse_render_iff_limits {style : Style} (hstyle : style = .compact ∨ style = .spaced)
    (e : Expr) :
    (parse (e.render style) = .ok e ↔
      e.leaves.length ≤ maxTerms ∧ nesting 0 e.text.toList ≤ maxDepth) ∧
    (¬ (e.leaves.length ≤ maxTerms ∧ nesting 0 e.text.toList ≤ maxDepth) →
      ∃ f, parse (e.render style) = .error f ∧ (f.cause = .tooDeep ∨ f.cause = .tooManyTerms) ∧
        overrun 0 0 (lexemes (visible (e.render style).toList)) = some f.cause) := by
  have hderives : Derives .chain (visible (e.render style).toList) e (nesting 0 e.text.toList)
      e.leaves.length := by
    rcases hstyle with rfl | rfl
    · exact derives_compact e
    · exact derives_spaced e
  rw [and_comm (b := _ ≤ maxDepth)]
  refine ⟨hderives.parse_eq_ok_iff, fun hlimits => ?_⟩
  obtain ⟨f, hf, hcause, hoverrun⟩ := hderives.parse_of_exceeds hlimits
  exact ⟨f, hf, hcause.isLimit, hoverrun⟩

theorem parse_render_staircase :
    parse ((staircase maxDepth).render .spaced) = .ok (staircase maxDepth) ∧
    ∃ f, parse ((staircase (maxDepth + 1)).render .spaced) = .error f ∧
      (f.cause = .tooDeep ∨ f.cause = .tooManyTerms) := by
  have hstyle : Style.spaced = .compact ∨ Style.spaced = .spaced := .inr rfl
  constructor
  · apply (parse_render_iff_limits hstyle (staircase maxDepth)).1.2
    rw [length_leaves_staircase, nesting_staircase]
    decide
  · have hlimits : ¬ ((staircase (maxDepth + 1)).leaves.length ≤ maxTerms ∧
        nesting 0 (staircase (maxDepth + 1)).text.toList ≤ maxDepth) := by
      rw [length_leaves_staircase, nesting_staircase]
      decide
    obtain ⟨f, hf, hcause, -⟩ := (parse_render_iff_limits hstyle _).2 hlimits
    exact ⟨f, hf, hcause⟩

/-- A parsed tree has no more leaves than a text may have terms, so only the parentheses that its
own text adds can keep it from being read back. -/
theorem parse_text_iff_nesting {text : String} {e : Expr} (h : parse text = .ok e) :
    (parse e.text = .ok e ↔ nesting 0 e.text.toList ≤ maxDepth) ∧
    (maxDepth < nesting 0 e.text.toList →
      ∃ f, parse e.text = .error f ∧ f.cause = .tooDeep) := by
  have hleaves := length_leaves_le_of_parse h
  have hderives := derives_compact e
  constructor
  · rw [hderives.parse_eq_ok_iff]
    exact and_iff_left hleaves
  · intro hdeep
    obtain ⟨f, hf, hcause, -⟩ := hderives.parse_of_exceeds fun hlimits =>
      Nat.not_le.2 hdeep hlimits.1
    refine ⟨f, hf, ?_⟩
    rcases hcause with ⟨hcause, -⟩ | ⟨-, hterms⟩
    · exact hcause
    · exact absurd hleaves (by simpa [State.start] using hterms)

theorem parse_text_staircase :
    parse (String.ofList (climb maxDepth)) = .ok (staircase maxDepth) ∧
    parse (staircase maxDepth).text = .ok (staircase maxDepth) := by
  have hparse := parse_climb (show 2 * maxDepth + 1 ≤ maxTerms by decide)
  refine ⟨hparse, (parse_text_iff_nesting hparse).1.2 ?_⟩
  exact Nat.le_of_eq (nesting_staircase maxDepth)

theorem not_forall_parse_text :
    ¬ ∀ (text : String) (e : Expr), parse text = .ok e → parse e.text = .ok e := by
  intro hreparses
  have hparse := parse_climb (show 2 * (maxDepth + 1) + 1 ≤ maxTerms by decide)
  obtain ⟨hdepth, -⟩ := (derives_compact _).parse_eq_ok_iff.1 (hreparses _ _ hparse)
  rw [nesting_staircase] at hdepth
  exact absurd hdepth (by decide)

end DiceOdds.Grammar
