import DiceOdds.Proofs.Positions
import DiceOdds.Proofs.RoundTrip

namespace DiceOdds.Grammar

def Lexeme.isTerm : Lexeme → Bool
  | integer _ | dice _ _ => true
  | leftParen | rightParen | operator _ | missingCount _ | unknown _ => false

/-- What makes an expression of the text behind a state: an operand where one is awaited, and a
parenthesis for each open group. -/
def State.completion (s : State) : List Char :=
  let operand := match s.awaiting with
    | .operand _ => ['1']
    | .operator _ => []
  operand ++ List.replicate s.groups.length ')'

/-- Parentheses close the groups around a chain, and no group nests deeper for it than it did when
it was opened. -/
theorem Opened.close {groups : List Pending} {t u : List Char} {e : Expr} {d m n : Nat}
    (h : Opened groups t m) (hu : Derives .chain u e d n) (hd : groups.length + d ≤ maxDepth) :
    ∃ e' d', Derives .chain (t ++ u ++ List.replicate groups.length ')') e' d' (m + n) ∧
      d' ≤ maxDepth := by
  -- The innermost group is closed first: it is a term of the chain that the next one holds.
  induction h generalizing u e d n with
  | nil => exact ⟨e, d, by simpa using hu, by simpa using hd⟩
  | @cons left groups t v d₀ m n₀ _ hleft hd₀ _ ih =>
      have hdepth : groups.length + max d₀ (d + 1) ≤ maxDepth := by
        rw [List.length_cons] at hd
        omega
      obtain ⟨e', d', hderives, hd'⟩ := ih (hleft.join (.group hu)) hdepth
      refine ⟨e', d', ?_, hd'⟩
      simpa [List.replicate_succ, Nat.add_assoc] using hderives

namespace State

variable {s s' : State} {t : List Char} {ts : List Lexeme}

theorem Moves.terms_eq {x : Lexeme} (h : s.Moves x s') :
    s'.terms = s.terms + [x].countP Lexeme.isTerm := by
  cases h with
  | term hr => cases hr <;> rfl
  | enter | link | leave => rfl

theorem Behind.of_foldlM (h : s.Behind t) (hts : ∀ x ∈ ts, x.Formed)
    (hs : ts.foldlM step s = .ok s') :
    s'.Behind (t ++ ts.flatMap Lexeme.chars) ∧
      s'.terms = s.terms + ts.countP Lexeme.isTerm := by
  induction ts generalizing s t with
  | nil =>
      cases hs
      exact ⟨by rwa [List.flatMap_nil, List.append_nil], rfl⟩
  | cons x ts ih =>
      cases hstep : s.step x with
      | error cause =>
          rw [List.foldlM_cons, hstep] at hs
          cases hs
      | ok s₁ =>
          rw [List.foldlM_cons, hstep] at hs
          have hmoves := step_eq_ok_iff.1 hstep
          obtain ⟨hx, hts⟩ := List.forall_mem_cons.1 hts
          obtain ⟨hbehind, hterms⟩ := ih (h.of_moves hx hmoves) hts hs
          rw [List.flatMap_cons, ← List.append_assoc, ← List.singleton_append,
            List.countP_append, ← Nat.add_assoc, ← hmoves.terms_eq]
          exact ⟨hbehind, hterms⟩

/-- What is read goes on to an expression within the limits if there is room for one more term. -/
theorem Behind.exists_derives (h : s.Behind t) (hterms : s.terms < maxTerms) :
    ∃ e d n, Derives .chain (t ++ s.completion) e d n ∧ d ≤ maxDepth ∧ n ≤ maxTerms := by
  obtain ⟨t₀, u, d, m, n, rfl, hopened, hbehind, hdepth, hsum, -⟩ := h
  obtain ⟨groups, terms, awaiting⟩ := s
  cases awaiting with
  | operand left =>
      have hchain : Derives .chain (u ++ ['1']) _ (max d 0) (n + 1) :=
        Before.join hbehind derives_one
      rw [Nat.max_zero] at hchain
      have hn : m + (n + 1) ≤ maxTerms := by
        rw [← Nat.add_assoc, ← hsum]
        exact hterms
      obtain ⟨e, d', hderives, hd'⟩ := hopened.close hchain hdepth
      refine ⟨e, d', _, ?_, hd', hn⟩
      simpa [completion] using hderives
  | operator chain =>
      have hn : m + n ≤ maxTerms := by
        rw [← hsum]
        exact Nat.le_of_lt hterms
      obtain ⟨e, d', hderives, hd'⟩ := hopened.close hbehind hdepth
      refine ⟨e, d', _, ?_, hd', hn⟩
      simpa [completion] using hderives

end State

theorem Stops.exists_state {before behind : List Lexeme} {cause : Cause}
    (h : Stops before behind cause) : ∃ s, before.foldlM State.step .start = .ok s := by
  cases h with
  | empty => exact ⟨.start, rfl⟩
  | lexeme hbefore | finish _ hbefore => exact ⟨_, hbefore⟩

theorem Fault.PointsAt.exists_continuation {f : Fault} {text before piece behind : List Char}
    {ts : List Lexeme} (h : f.PointsAt text before piece behind ts)
    (hterms : ts.countP Lexeme.isTerm < maxTerms) :
    ∃ rest e, parse (String.ofList (visible before ++ rest)) = .ok e := by
  obtain ⟨us, hlexemes, hstops, -⟩ := h.stops
  obtain ⟨s, hs⟩ := hstops.exists_state
  have hformed : ∀ x ∈ ts, x.Formed := fun x hx =>
    formed_of_mem_lexemes (hlexemes ▸ List.mem_append_left us hx)
  obtain ⟨hbehind, hcount⟩ := State.behind_start.of_foldlM hformed hs
  rw [State.start, Nat.zero_add] at hcount
  rw [← hcount] at hterms
  obtain ⟨e, d, n, hderives, hd, hn⟩ := hbehind.exists_derives hterms
  refine ⟨s.completion, e, ?_⟩
  rw [h.visible_before, parse_eq_ok_iff_visible, String.toList_ofList]
  rw [List.nil_append] at hderives
  rw [visible_eq_self hderives.graphic]
  exact ⟨d, n, hderives, hd, hn⟩

/-- A fault is found no later than it has to be: as long as a term may follow, the lexemes before it
begin some expression. -/
theorem parse_error_continues {text : String} {f : Fault} (h : parse text = .error f) :
    ∃ before piece behind ts, f.PointsAt text.toList before piece behind ts ∧
      (ts.countP Lexeme.isTerm < maxTerms →
        ∃ rest e, parse (String.ofList (visible before ++ rest)) = .ok e) := by
  rw [parse] at h
  cases hread : read (lexemes (visible text.toList)) with
  | ok e =>
      rw [hread] at h
      cases h
  | error r =>
      rw [hread] at h
      cases h
      obtain ⟨before, piece, behind, ts, hpoints⟩ := Refusal.exists_pointsAt hread
      exact ⟨before, piece, behind, ts, hpoints, hpoints.exists_continuation⟩

/-- An operand is missing in the inner one of two open groups. -/
theorem parse_error_continues_groups :
    let text := "(3 - (2d6 + ) * 2"
    ∃ f, parse text = .error f ∧
      f.cause = .unexpectedToken .rightParen [.integer, .dice, .leftParen] ∧ f.span = ⟨12, 13⟩ ∧
      ∃ before piece behind ts, f.PointsAt text.toList before piece behind ts ∧
        ∃ rest e, parse (String.ofList (visible before ++ rest)) = .ok e := by
  intro text
  let f : Fault :=
    ⟨.unexpectedToken .rightParen [.integer, .dice, .leftParen], ⟨12, 13⟩, ")"⟩
  have hparse : parse text = .error f := by decide +kernel
  have hall : (lexemes (visible text.toList)).countP Lexeme.isTerm = 3 := by decide +kernel
  obtain ⟨before, piece, behind, ts, hpoints, hcontinues⟩ := parse_error_continues hparse
  obtain ⟨us, hlexemes, -⟩ := hpoints.stops
  have hterms : ts.countP Lexeme.isTerm < maxTerms := by
    rw [hlexemes, List.countP_append] at hall
    exact Nat.lt_of_le_of_lt (Nat.le.intro hall) (by decide)
  exact ⟨f, hparse, rfl, rfl, before, piece, behind, ts, hpoints, hcontinues hterms⟩

end DiceOdds.Grammar
