import DiceOdds.Grammar.Parse
import DiceOdds.Proofs.Derivation

namespace DiceOdds.Grammar

inductive Lexeme.Denotes : Lexeme → Roll → Prop
  | integer {digits : List Char} {q : Quantity} (h : Quantity.ofDigits digits = .ok q) :
      Denotes (.integer digits) (.constant q)
  | dice {count sides : List Char} {c s : Quantity} (hc : Quantity.ofDigits count = .ok c)
      (hs : Quantity.ofDigits sides = .ok s) : Denotes (.dice count sides) ⟨c, s⟩

inductive State.Moves : State → Lexeme → State → Prop
  | term {groups : List Pending} {terms : Nat} {left : Pending} {t : Lexeme} {r : Roll}
      (ht : t.Denotes r) (hterms : terms < maxTerms) :
      Moves ⟨groups, terms, .operand left⟩ t ⟨groups, terms + 1, .operator (left.join (.roll r))⟩
  | enter {groups : List Pending} {terms : Nat} {left : Pending}
      (hdepth : groups.length < maxDepth) :
      Moves ⟨groups, terms, .operand left⟩ .leftParen ⟨left :: groups, terms, .operand none⟩
  | link {groups : List Pending} {terms : Nat} {chain : Expr} (op : Operator) :
      Moves ⟨groups, terms, .operator chain⟩ (.operator op)
        ⟨groups, terms, .operand (some (chain, op))⟩
  | leave {groups : List Pending} {terms : Nat} {left : Pending} {chain : Expr} :
      Moves ⟨left :: groups, terms, .operator chain⟩ .rightParen
        ⟨groups, terms, .operator (left.join chain)⟩

namespace State

variable {s s' : State} {t : Lexeme}

theorem term_of_le {left : Pending} (h : maxTerms ≤ s.terms)
    (r : Except Quantity.Refusal Roll) : s.term left r = .error .tooManyTerms :=
  if_pos h

theorem term_of_lt {left : Pending} (h : s.terms < maxTerms) (r : Roll) :
    s.term left (.ok r) =
      .ok { s with terms := s.terms + 1, awaiting := .operator (left.join (.roll r)) } :=
  if_neg (Nat.not_le.2 h)

theorem readOperand_of_denotes {r : Roll} (h : t.Denotes r) (left : Pending) :
    s.readOperand left t = s.term left (.ok r) := by
  cases h with
  | integer h =>
      rw [readOperand, h]
      rfl
  | dice hc hs =>
      rw [readOperand, rollOfDigits, hc, hs]
      rfl

theorem Moves.step (h : Moves s t s') : s.step t = .ok s' := by
  cases h with
  | term ht hterms => exact (readOperand_of_denotes ht _).trans (term_of_lt hterms _)
  | enter hdepth => exact if_neg (Nat.not_le.2 hdepth)
  | link | leave => rfl

theorem term_eq_ok {left : Pending} {r : Except Quantity.Refusal Roll}
    (h : s.term left r = .ok s') : ∃ r', r = .ok r' ∧ s.terms < maxTerms ∧
      s' = { s with terms := s.terms + 1, awaiting := .operator (left.join (.roll r')) } := by
  by_cases hle : maxTerms ≤ s.terms
  · rw [term_of_le hle] at h
    cases h
  · cases r with
    | error refusal =>
        rw [term.eq_def, if_neg hle] at h
        cases refusal <;> cases h
    | ok r' =>
        rw [term_of_lt (Nat.not_le.1 hle)] at h
        exact ⟨r', rfl, Nat.not_le.1 hle, (Except.ok.inj h).symm⟩

theorem denotes_of_ofDigits {digits : List Char} {r : Roll}
    (h : (Quantity.ofDigits digits).map Roll.constant = .ok r) :
    (Lexeme.integer digits).Denotes r := by
  cases hq : Quantity.ofDigits digits with
  | error refusal =>
      rw [hq] at h
      cases h
  | ok q =>
      rw [hq] at h
      cases h
      exact .integer hq

theorem denotes_of_rollOfDigits {count sides : List Char} {r : Roll}
    (h : rollOfDigits count sides = .ok r) : (Lexeme.dice count sides).Denotes r := by
  rw [rollOfDigits] at h
  cases hc : Quantity.ofDigits count with
  | error refusal =>
      rw [hc] at h
      cases h
  | ok c =>
      cases hs : Quantity.ofDigits sides with
      | error refusal =>
          rw [hc, hs] at h
          cases h
      | ok s =>
          rw [hc, hs] at h
          cases h
          exact .dice hc hs

theorem moves_of_readOperand {groups : List Pending} {terms : Nat} {left : Pending}
    (h : readOperand ⟨groups, terms, .operand left⟩ left t = .ok s') :
    Moves ⟨groups, terms, .operand left⟩ t s' := by
  cases t with
  | integer digits =>
      obtain ⟨r, hr, hterms, rfl⟩ := term_eq_ok h
      exact .term (denotes_of_ofDigits hr) hterms
  | dice count sides =>
      obtain ⟨r, hr, hterms, rfl⟩ := term_eq_ok h
      exact .term (denotes_of_rollOfDigits hr) hterms
  | leftParen =>
      rw [readOperand] at h
      split at h
      · cases h
      · next hdepth =>
        cases h
        exact .enter (Nat.not_le.1 hdepth)
  | rightParen =>
      rw [readOperand] at h
      split at h <;> cases h
  | operator | missingCount | unknown => cases h

theorem moves_of_readOperator {groups : List Pending} {terms : Nat} {chain : Expr}
    (h : readOperator ⟨groups, terms, .operator chain⟩ chain t = .ok s') :
    Moves ⟨groups, terms, .operator chain⟩ t s' := by
  cases t with
  | operator op =>
      cases h
      exact .link op
  | rightParen =>
      cases groups with
      | nil => cases h
      | cons left groups =>
          cases h
          exact .leave
  | integer | dice | leftParen | missingCount | unknown => cases h

theorem step_eq_ok_iff : s.step t = .ok s' ↔ Moves s t s' := by
  refine ⟨fun h => ?_, Moves.step⟩
  obtain ⟨groups, terms, awaiting⟩ := s
  cases awaiting with
  | operand left => exact moves_of_readOperand h
  | operator chain => exact moves_of_readOperator h

end State

theorem run_cons_of_moves {s s' : State} {t : Lexeme} (h : s.Moves t s') (offset : Nat)
    (ts : List Lexeme) : run s offset (t :: ts) = run s' (offset + t.chars.length) ts := by
  rw [run, h.step]

theorem run_cons_of_error {s : State} {t : Lexeme} {cause : Cause} (h : s.step t = .error cause)
    (offset : Nat) (ts : List Lexeme) :
    run s offset (t :: ts) = .error ⟨cause, offset, t.chars⟩ := by
  rw [run, h]

def State.Fits (s : State) (d n : Nat) : Prop :=
  s.groups.length + d ≤ maxDepth ∧ s.terms + n ≤ maxTerms

def State.Exceeds (s : State) (d n : Nat) (c : Cause) : Prop :=
  (c = .tooDeep ∧ maxDepth < s.groups.length + d) ∨ (c = .tooManyTerms ∧ maxTerms < s.terms + n)

theorem State.Exceeds.mono {s s' : State} {d d' n n' : Nat} {c : Cause} (h : s.Exceeds d n c)
    (hd : s.groups.length + d ≤ s'.groups.length + d') (hn : s.terms + n ≤ s'.terms + n') :
    s'.Exceeds d' n' c := by
  rcases h with ⟨hc, h⟩ | ⟨hc, h⟩
  · exact Or.inl ⟨hc, Nat.lt_of_lt_of_le h hd⟩
  · exact Or.inr ⟨hc, Nat.lt_of_lt_of_le h hn⟩

/-- The lexemes of a phrase are read to its tree where they fit, and where they do not a limit stops
the reading within them. -/
def Reads (p : Phrase) (ts : List Lexeme) (length : Nat) (e : Expr) (d n : Nat) : Prop :=
  ∀ (groups : List Pending) (terms : Nat) (left : Pending), (p = .chain → left = none) →
    groups.length ≤ maxDepth → ∀ (offset : Nat) (us : List Lexeme),
    (State.Fits ⟨groups, terms, .operand left⟩ d n →
      run ⟨groups, terms, .operand left⟩ offset (ts ++ us) =
        run ⟨groups, terms + n, .operator (left.join e)⟩ (offset + length) us) ∧
    (¬ State.Fits ⟨groups, terms, .operand left⟩ d n →
      ∃ r, run ⟨groups, terms, .operand left⟩ offset (ts ++ us) = .error r ∧
        State.Exceeds ⟨groups, terms, .operand left⟩ d n r.cause)

theorem reads_term {t : Lexeme} {r : Roll} (h : t.Denotes r) :
    Reads .atom [t] t.chars.length (.roll r) 0 1 := by
  intro groups terms left _ hdepth offset us
  constructor
  · rintro ⟨-, hterms⟩
    exact run_cons_of_moves (.term h hterms) offset us
  · intro hfits
    have hterms : maxTerms ≤ terms := Nat.not_lt.1 fun hlt => hfits ⟨hdepth, hlt⟩
    have hstep : State.step ⟨groups, terms, .operand left⟩ t = .error .tooManyTerms :=
      (State.readOperand_of_denotes h left).trans (State.term_of_le hterms _)
    exact ⟨_, run_cons_of_error hstep offset us, Or.inr ⟨rfl, Nat.lt_succ_of_le hterms⟩⟩

theorem reads_group {ts : List Lexeme} {length : Nat} {e : Expr} {d n : Nat}
    (h : Reads .chain ts length e d n) :
    Reads .atom (.leftParen :: (ts ++ [.rightParen])) (length + 2) e (d + 1) n := by
  intro groups terms left _ hdepth offset us
  rw [List.cons_append, List.append_assoc]
  by_cases hopen : groups.length < maxDepth
  · obtain ⟨hok, hlimit⟩ := h (left :: groups) terms none (fun _ => rfl) hopen (offset + 1)
      ([.rightParen] ++ us)
    have hfits : State.Fits ⟨left :: groups, terms, .operand none⟩ d n ↔
        State.Fits ⟨groups, terms, .operand left⟩ (d + 1) n := by
      simp only [State.Fits, List.length_cons]
      omega
    rw [run_cons_of_moves (.enter hopen)]
    constructor
    · intro hf
      have hlength : offset + 1 + length + 1 = offset + (length + 2) := by omega
      rw [← hlength]
      exact (hok (hfits.2 hf)).trans (run_cons_of_moves .leave _ us)
    · intro hf
      obtain ⟨refusal, herror, hcause⟩ := hlimit fun hf' => hf (hfits.1 hf')
      refine ⟨refusal, herror, hcause.mono ?_ (Nat.le_refl _)⟩
      simp only [List.length_cons]
      omega
  · have hstep : State.step ⟨groups, terms, .operand left⟩ .leftParen = .error .tooDeep :=
      if_pos (Nat.not_lt.1 hopen)
    constructor
    · rintro ⟨hd, -⟩
      simp only at hd
      omega
    · intro _
      exact ⟨_, run_cons_of_error hstep offset _, Or.inl ⟨rfl, by simp only; omega⟩⟩

theorem reads_link {ts us : List Lexeme} {length length' : Nat} {l r : Expr} {d d' n n' : Nat}
    (hl : Reads .chain ts length l d n) (op : Operator) (hr : Reads .atom us length' r d' n') :
    Reads .chain (ts ++ .operator op :: us) (length + 1 + length') (.binary l op r) (max d d')
      (n + n') := by
  intro groups terms left hleft hdepth offset vs
  obtain rfl := hleft rfl
  have hsplit : State.Fits ⟨groups, terms, .operand none⟩ (max d d') (n + n') ↔
      State.Fits ⟨groups, terms, .operand none⟩ d n ∧
        State.Fits ⟨groups, terms + n, .operand (some (l, op))⟩ d' n' := by
    simp only [State.Fits]
    omega
  obtain ⟨hok, hlimit⟩ := hl groups terms none hleft hdepth offset (.operator op :: us ++ vs)
  obtain ⟨hok', hlimit'⟩ := hr groups (terms + n) (some (l, op)) nofun hdepth
    (offset + length + 1) vs
  have hlink : run ⟨groups, terms + n, .operator l⟩ (offset + length) (.operator op :: us ++ vs) =
      run ⟨groups, terms + n, .operand (some (l, op))⟩ (offset + length + 1) (us ++ vs) :=
    run_cons_of_moves (.link op) _ _
  rw [List.append_assoc, hsplit]
  constructor
  · rintro ⟨hfits, hfits'⟩
    rw [hok hfits, ← Nat.add_assoc, ← Nat.add_assoc, ← Nat.add_assoc]
    exact hlink.trans (hok' hfits')
  · intro hf
    by_cases hfits : State.Fits ⟨groups, terms, .operand none⟩ d n
    · rw [hok hfits]
      obtain ⟨refusal, herror, hcause⟩ := hlimit' fun hfits' => hf ⟨hfits, hfits'⟩
      refine ⟨refusal, hlink.trans herror, hcause.mono ?_ ?_⟩ <;> simp only <;> omega
    · obtain ⟨refusal, herror, hcause⟩ := hlimit hfits
      refine ⟨refusal, herror, hcause.mono ?_ ?_⟩ <;> simp only <;> omega

/-- Lexemes of a text that the grammar derives are read to the tree of the derivation, within the
limits. -/
theorem Derives.reads {p : Phrase} {t : List Char} {e : Expr} {d n : Nat}
    (h : Derives p t e d n) : Reads p (lexemes t) t.length e d n := by
  induction h with
  | constant h =>
      rw [lexemes_digits h.1]
      exact reads_term (.integer h.ofDigits)
  | dice hc hs =>
      rw [lexemes_dice hc.1 hs.1]
      exact reads_term (.dice hc.ofDigits hs.ofDigits)
  | @group t e d n _ ih =>
      rw [lexemes_group, List.length_append, List.length_cons]
      exact reads_group ih
  | single _ ih =>
      intro groups terms left _
      exact ih groups terms left nofun
  | @link t u l r d d' n n' _ op _ ihl ihr =>
      rw [lexemes_link, List.length_append, List.length_cons, Nat.add_comm u.length,
        ← Nat.add_assoc]
      exact reads_link ihl op ihr

end DiceOdds.Grammar
