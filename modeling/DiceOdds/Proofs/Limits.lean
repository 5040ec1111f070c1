import DiceOdds.Proofs.Leaves
import DiceOdds.Proofs.Reading

namespace DiceOdds.Grammar

def nesting : Nat → List Char → Nat
  | depth, [] => depth
  | depth, c :: cs =>
    max depth (nesting (if c = '(' then depth + 1 else if c = ')' then depth - 1 else depth) cs)

/-- The limit that is passed first from left to right, where `depth` groups are open and `terms`
terms are read before. -/
def overrun : Nat → Nat → List Lexeme → Option Cause
  | _, _, [] => none
  | depth, terms, .leftParen :: ts =>
    if maxDepth ≤ depth then some .tooDeep else overrun (depth + 1) terms ts
  | depth, terms, .rightParen :: ts => overrun (depth - 1) terms ts
  | depth, terms, .integer _ :: ts | depth, terms, .dice _ _ :: ts =>
    if maxTerms ≤ terms then some .tooManyTerms else overrun depth (terms + 1) ts
  | depth, terms, _ :: ts => overrun depth terms ts

theorem le_nesting (depth : Nat) (cs : List Char) : depth ≤ nesting depth cs := by
  cases cs with
  | nil => exact Nat.le_refl depth
  | cons c cs => exact Nat.le_max_left _ _

theorem nesting_append_of_plain {cs : List Char} (h : ∀ c ∈ cs, c ≠ '(' ∧ c ≠ ')') (depth : Nat)
    (us : List Char) : nesting depth (cs ++ us) = nesting depth us := by
  induction cs with
  | nil => rfl
  | cons c cs ih =>
      obtain ⟨hl, hr⟩ := h c List.mem_cons_self
      rw [List.cons_append, nesting, if_neg hl, if_neg hr,
        ih fun c hc => h c (List.mem_cons_of_mem _ hc)]
      exact Nat.max_eq_right (le_nesting depth us)

theorem Digits.plain {digits : List Char} (h : Digits digits) :
    ∀ c ∈ digits, c ≠ '(' ∧ c ≠ ')' := by
  intro c hc
  constructor <;> rintro rfl <;> exact absurd (h.2 _ hc) (by decide)

theorem nesting_group (depth : Nat) (t : List Char) :
    nesting depth ('(' :: t) = max depth (nesting (depth + 1) t) := by
  rw [nesting, if_pos rfl]

theorem nesting_close (depth : Nat) (us : List Char) :
    nesting (depth + 1) (')' :: us) = max (depth + 1) (nesting depth us) := by
  rw [nesting, if_neg (by decide), if_pos rfl, Nat.add_sub_cancel]

theorem nesting_symbol (depth : Nat) (op : Operator) (us : List Char) :
    nesting depth (op.symbol :: us) = nesting depth us := by
  have hplain : ∀ c ∈ [op.symbol], c ≠ '(' ∧ c ≠ ')' := by
    rw [List.forall_mem_singleton]
    cases op <;> decide
  exact nesting_append_of_plain hplain depth us

namespace Derives

variable {p : Phrase} {t : List Char} {e : Expr} {d n : Nat}

/-- The depth of a derivation is how deep the parentheses of the text nest. -/
theorem nesting_append (h : Derives p t e d n) (depth : Nat) (us : List Char) :
    nesting depth (t ++ us) = max (depth + d) (nesting depth us) := by
  induction h generalizing depth us with
  | constant h =>
      rw [nesting_append_of_plain h.1.plain]
      exact (Nat.max_eq_right (le_nesting depth us)).symm
  | @dice count sides c s hc hs =>
      have hplain : ∀ c ∈ count ++ 'd' :: sides, c ≠ '(' ∧ c ≠ ')' := by
        rw [List.forall_mem_append, List.forall_mem_cons]
        exact ⟨hc.1.plain, by decide, hs.1.plain⟩
      rw [nesting_append_of_plain hplain]
      exact (Nat.max_eq_right (le_nesting depth us)).symm
  | group _ ih =>
      rw [List.cons_append, List.cons_append, List.append_assoc, nesting_group, ih,
        List.singleton_append, nesting_close]
      have hle := le_nesting depth us
      omega
  | single _ ih => exact ih depth us
  | link _ op _ ihl ihr =>
      rw [List.append_assoc, List.cons_append, ihl, nesting_symbol, ihr]
      omega

theorem nesting_eq (h : Derives p t e d n) : nesting 0 t = d := by
  have hnesting := h.nesting_append 0 []
  rw [List.append_nil] at hnesting
  rw [hnesting, nesting]
  omega

theorem length_leaves (h : Derives p t e d n) : e.leaves.length = n := by
  induction h with
  | constant | dice => rfl
  | group _ ih | single _ ih => exact ih
  | link _ op _ ihl ihr => rw [Expr.leaves, List.length_append, ihl, ihr]

end Derives

def Cause.IsLimit (c : Cause) : Prop := c = .tooDeep ∨ c = .tooManyTerms

theorem State.Exceeds.isLimit {s : State} {d n : Nat} {c : Cause} (h : s.Exceeds d n c) :
    c.IsLimit :=
  h.imp And.left And.left

theorem overrun_term {t : Lexeme} {r : Roll} (h : t.Denotes r) (depth terms : Nat)
    (ts : List Lexeme) :
    overrun depth terms (t :: ts) =
      if maxTerms ≤ terms then some .tooManyTerms else overrun depth (terms + 1) ts := by
  cases h <;> rfl

theorem overrun_cons_of_moves {s s' : State} {t : Lexeme} (h : s.Moves t s') (ts : List Lexeme) :
    overrun s.groups.length s.terms (t :: ts) = overrun s'.groups.length s'.terms ts := by
  cases h with
  | term ht hterms => rw [overrun_term ht, if_neg (Nat.not_le.2 hterms)]
  | enter hdepth => rw [overrun, if_neg (Nat.not_le.2 hdepth)]; rfl
  | link op => rfl
  | leave => rfl

theorem unexpected_not_limit (s : State) (t : Lexeme) : ¬ (s.unexpected t).IsLimit := by
  rintro (h | h) <;> cases t <;> cases h

theorem limit_of_term {s : State} {left : Pending} {r : Except Quantity.Refusal Roll}
    {c : Cause} (h : s.term left r = .error c) (hc : c.IsLimit) :
    maxTerms ≤ s.terms ∧ c = .tooManyTerms := by
  by_cases hle : maxTerms ≤ s.terms
  · rw [State.term_of_le hle] at h
    cases h
    exact ⟨hle, rfl⟩
  · rw [State.term.eq_def, if_neg hle] at h
    cases r with
    | error refusal => cases refusal <;> cases h <;> rcases hc with hc | hc <;> cases hc
    | ok r => cases h

/-- A limit that stops a step is the limit that the counters pass there. -/
theorem overrun_cons_of_error {s : State} {t : Lexeme} {c : Cause} (h : s.step t = .error c)
    (hc : c.IsLimit) (ts : List Lexeme) :
    overrun s.groups.length s.terms (t :: ts) = some c := by
  obtain ⟨groups, terms, awaiting⟩ := s
  cases awaiting with
  | operand left =>
      have h : State.readOperand ⟨groups, terms, .operand left⟩ left t = .error c := h
      cases t with
      | integer | dice =>
          obtain ⟨hle, rfl⟩ := limit_of_term h hc
          exact if_pos hle
      | leftParen =>
          rw [State.readOperand] at h
          split at h
          · next hopen =>
            cases h
            exact if_pos hopen
          · cases h
      | rightParen =>
          rw [State.readOperand] at h
          split at h <;> cases h <;> rcases hc with hc | hc <;> cases hc
      | operator | missingCount | unknown =>
          cases h
          exact absurd hc (unexpected_not_limit _ _)
  | operator chain =>
      cases t with
      | rightParen =>
          cases groups with
          | nil =>
              cases h
              exact absurd hc (unexpected_not_limit _ _)
          | cons left groups => cases h
      | operator => cases h
      | integer | dice | leftParen | missingCount | unknown =>
          cases h
          exact absurd hc (unexpected_not_limit _ _)

/-- Where a limit stops a reading, no other limit is passed before. -/
theorem overrun_of_run {s : State} {ts : List Lexeme} {offset : Nat} {r : Refusal}
    (h : run s offset ts = .error r) (hr : r.cause.IsLimit) :
    overrun s.groups.length s.terms ts = some r.cause := by
  induction ts generalizing s offset with
  | nil =>
      rw [run, State.finish] at h
      split at h
      · cases h
      · cases h
        rcases hr with hr | hr <;> cases hr
  | cons t ts ih =>
      cases hs : s.step t with
      | error cause =>
          rw [run_cons_of_error hs] at h
          cases h
          exact overrun_cons_of_error hs hr ts
      | ok s' =>
          have hmoves := State.step_eq_ok_iff.1 hs
          rw [run_cons_of_moves hmoves] at h
          rw [overrun_cons_of_moves hmoves]
          exact ih h

end DiceOdds.Grammar
