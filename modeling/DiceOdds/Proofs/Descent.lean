import DiceOdds.Proofs.Stops

namespace DiceOdds.Grammar.Descent

structure Phrase (ts : List Lexeme) where
  tree : Expr
  terms : Nat
  offset : Nat
  ahead : List Lexeme
  shorter : ahead.length < ts.length

def unexpected (offset : Nat) (expected : List Kind) (ts : List Lexeme) : Refusal :=
  match ts with
  | [] => ⟨.unexpectedEnd expected, offset, []⟩
  | .unknown c :: _ => ⟨.unknownCharacter, offset, [c]⟩
  | .missingCount sides :: _ => ⟨.missingCount, offset, 'd' :: sides⟩
  | t :: _ => ⟨.unexpectedToken t.kind expected, offset, t.chars⟩

def leaf (terms offset : Nat) (t : Lexeme) (roll : Except Quantity.Refusal Roll)
    (ts : List Lexeme) : Except Refusal (Phrase (t :: ts)) :=
  if maxTerms < terms + 1 then .error ⟨.tooManyTerms, offset, t.chars⟩
  else match roll with
    | .error .zero => .error ⟨.zero, offset, t.chars⟩
    | .error .tooLarge => .error ⟨.tooLarge, offset, t.chars⟩
    | .ok r => .ok ⟨.roll r, terms + 1, offset + t.chars.length, ts, Nat.lt_succ_self _⟩

def close {ts : List Lexeme} (p : Phrase ts) : Except Refusal (Phrase (.leftParen :: ts)) :=
  match h : p.ahead with
  | .rightParen :: us =>
    have hlt : us.length < (Lexeme.leftParen :: ts).length := by
      have := p.shorter
      rw [h] at this
      simp only [List.length_cons] at this ⊢
      omega
    .ok ⟨p.tree, p.terms, p.offset + 1, us, hlt⟩
  | us => .error (unexpected p.offset (Kind.operators ++ [.rightParen]) us)

mutual

def atom (depth terms offset : Nat) : (ts : List Lexeme) → Except Refusal (Phrase ts)
  | .integer digits :: ts =>
    leaf terms offset (.integer digits) ((Quantity.ofDigits digits).map Roll.constant) ts
  | .dice count sides :: ts =>
    leaf terms offset (.dice count sides) (State.rollOfDigits count sides) ts
  | .leftParen :: ts => group depth terms offset ts
  | ts => .error (unexpected offset Kind.operandStarts ts)
termination_by ts => (ts.length, 0)

def group (depth terms offset : Nat) (ts : List Lexeme) :
    Except Refusal (Phrase (.leftParen :: ts)) :=
  if maxDepth ≤ depth then .error ⟨.tooDeep, offset, ['(']⟩
  else if ts.head? = some .rightParen then .error ⟨.emptyGroup, offset + 1, [')']⟩
  else do
    let p ← chain (depth + 1) terms (offset + 1) ts
    close p
termination_by (ts.length, 2)

def chain (depth terms offset : Nat) (ts : List Lexeme) : Except Refusal (Phrase ts) := do
  let p ← atom depth terms offset ts
  links depth p
termination_by (ts.length, 1)
decreasing_by
  · exact Prod.Lex.right _ Nat.one_pos
  · exact Prod.Lex.left _ _ p.shorter

def links (depth : Nat) {ts : List Lexeme} (p : Phrase ts) : Except Refusal (Phrase ts) :=
  match h : p.ahead with
  | .operator op :: us => do
    let q ← atom depth p.terms (p.offset + 1) us
    have hlt : q.ahead.length < ts.length := by
      have hp := p.shorter
      have hq := q.shorter
      rw [h, List.length_cons] at hp
      omega
    links depth ⟨.binary p.tree op q.tree, q.terms, q.offset, q.ahead, hlt⟩
  | _ => .ok p
termination_by (p.ahead.length, 0)
decreasing_by
  · apply Prod.Lex.left
    rw [h]
    exact Nat.lt_succ_self _
  · apply Prod.Lex.left
    rw [h]
    exact Nat.lt_succ_of_lt q.shorter

end

def read (ts : List Lexeme) : Except Refusal Expr :=
  if ts = [] then .error ⟨.empty, 0, []⟩
  else do
    let p ← chain 0 0 0 ts
    if p.ahead = [] then .ok p.tree else .error (unexpected p.offset Kind.operators p.ahead)

def resume (groups : List Pending) (left : Pending) {ts : List Lexeme} (p : Phrase ts) :
    Except Refusal Expr :=
  run ⟨groups, p.terms, .operator (left.join p.tree)⟩ p.offset p.ahead

/-- At the front of some lexemes an atom is read as with a stack. An empty group is found by looking
behind its parenthesis, and so not at the place of an atom. -/
def Follows (ts : List Lexeme) : Prop :=
  ∀ (groups : List Pending) (terms offset : Nat) (left : Pending),
    (left = none → groups ≠ [] → ts.head? ≠ some .rightParen) →
      run ⟨groups, terms, .operand left⟩ offset ts =
        atom groups.length terms offset ts >>= resume groups left

theorem run_operand_unexpected {s : State} {left : Pending} (hs : s.awaiting = .operand left)
    {ts : List Lexeme} (offset : Nat)
    (h : ∀ t us, ts = t :: us → s.readOperand left t = .error (s.unexpected t)) :
    run s offset ts = .error (unexpected offset Kind.operandStarts ts) := by
  have hexpected : s.expected = Kind.operandStarts := by rw [State.expected, hs]
  cases ts with
  | nil =>
      rw [run, State.finish, hs, hexpected]
      rfl
  | cons t us =>
      have hstep : s.step t = .error (s.unexpected t) := by
        rw [State.step, hs]
        exact h t us rfl
      rw [run_cons_of_error hstep]
      cases t <;> simp only [State.unexpected, unexpected, hexpected, Lexeme.chars]

theorem run_operator_unexpected {s : State} {chain : Expr} (hs : s.awaiting = .operator chain)
    {ts : List Lexeme} (offset : Nat) (hend : ts = [] → s.groups ≠ [])
    (h : ∀ t us, ts = t :: us → s.readOperator chain t = .error (s.unexpected t)) :
    run s offset ts = .error (unexpected offset s.expected ts) := by
  cases ts with
  | nil =>
      obtain ⟨left, groups, hgroups⟩ := List.exists_cons_of_ne_nil (hend rfl)
      rw [run, State.finish, hs, hgroups]
      rfl
  | cons t us =>
      have hstep : s.step t = .error (s.unexpected t) := by
        rw [State.step, hs]
        exact h t us rfl
      rw [run_cons_of_error hstep]
      cases t <;> rfl

theorem run_leaf {groups : List Pending} {terms : Nat} {left : Pending} {t : Lexeme}
    {roll : Except Quantity.Refusal Roll}
    (h : State.readOperand ⟨groups, terms, .operand left⟩ left t =
      State.term ⟨groups, terms, .operand left⟩ left roll) (offset : Nat) (ts : List Lexeme) :
    run ⟨groups, terms, .operand left⟩ offset (t :: ts) =
      leaf terms offset t roll ts >>= resume groups left := by
  have hstep : State.step ⟨groups, terms, .operand left⟩ t =
      State.term ⟨groups, terms, .operand left⟩ left roll := h
  rw [run, hstep, State.term.eq_def, leaf.eq_def]
  by_cases hterms : maxTerms ≤ terms
  · rw [if_pos hterms, if_pos (Nat.lt_succ_of_le hterms)]
    rfl
  · rw [if_neg hterms, if_neg (Nat.not_lt.2 (Nat.lt_of_not_le hterms))]
    cases roll with
    | error refusal => cases refusal <;> rfl
    | ok r => rfl

theorem links_of_operator (depth : Nat) (e : Expr) (terms offset : Nat) {ts us : List Lexeme}
    {op : Operator} (hlt : (Lexeme.operator op :: us).length < ts.length) :
    ∃ h : ∀ q : Phrase us, q.ahead.length < ts.length,
      links depth (⟨e, terms, offset, .operator op :: us, hlt⟩ : Phrase ts) =
        atom depth terms (offset + 1) us >>= fun q =>
          links depth ⟨.binary e op q.tree, q.terms, q.offset, q.ahead, h q⟩ := by
  refine ⟨fun q => Nat.lt_trans (Nat.lt_succ_of_lt q.shorter) hlt, ?_⟩
  rw [links]

theorem links_of_ne {depth : Nat} {ts : List Lexeme} {p : Phrase ts}
    (h : ∀ op us, p.ahead ≠ .operator op :: us) : links depth p = .ok p := by
  rw [links]
  split
  · next op us hahead => exact absurd hahead (h op us)
  · rfl

/-- The loop takes all operators of its chain, and stops at anything else. -/
theorem links_spec {groups : List Pending} {ts : List Lexeme} (p : Phrase ts)
    (hatoms : ∀ us : List Lexeme, us.length < p.ahead.length → Follows us) :
    resume groups none p = links groups.length p >>= resume groups none ∧
      ∀ q, links groups.length p = .ok q → ∀ op us, q.ahead ≠ .operator op :: us := by
  induction hn : p.ahead.length using Nat.strongRecOn generalizing p with
  | ind n ih =>
    subst hn
    by_cases hop : ∃ op us, p.ahead = .operator op :: us
    · obtain ⟨e, terms, offset, ahead, hlt⟩ := p
      obtain ⟨op, us, rfl⟩ := hop
      obtain ⟨hshorter, hlinks⟩ := links_of_operator groups.length e terms offset hlt
      have hatom := hatoms us (Nat.lt_succ_self _) groups terms (offset + 1) (some (e, op)) nofun
      have hresume : resume groups none (⟨e, terms, offset, .operator op :: us, hlt⟩ : Phrase ts) =
          run ⟨groups, terms, .operand (some (e, op))⟩ (offset + 1) us :=
        run_cons_of_moves (.link op) offset us
      rw [hlinks, hresume, hatom]
      cases atom groups.length terms (offset + 1) us with
      | error r => exact ⟨rfl, nofun⟩
      | ok q =>
          have hq : q.ahead.length < (Lexeme.operator op :: us).length :=
            Nat.lt_succ_of_lt q.shorter
          exact ih _ hq ⟨.binary e op q.tree, q.terms, q.offset, q.ahead, hshorter q⟩
            (fun vs hvs => hatoms vs (Nat.lt_trans hvs hq)) rfl
    · have hne (op : Operator) (us : List Lexeme) : p.ahead ≠ .operator op :: us :=
        fun h => hop ⟨op, us, h⟩
      rw [links_of_ne hne]
      refine ⟨rfl, ?_⟩
      rintro q ⟨⟩
      exact hne

theorem close_spec {ts : List Lexeme} (p : Phrase ts)
    (hahead : ∀ op us, p.ahead ≠ .operator op :: us) (groups : List Pending) (left : Pending) :
    resume (left :: groups) none p = close p >>= resume groups left := by
  obtain ⟨e, terms, offset, ahead, hlt⟩ := p
  have hunexpected (hne : ∀ us, ahead ≠ .rightParen :: us) :
      resume (left :: groups) none ⟨e, terms, offset, ahead, hlt⟩ =
        .error (unexpected offset (Kind.operators ++ [.rightParen]) ahead) := by
    apply run_operator_unexpected rfl offset (fun _ => List.cons_ne_nil _ _)
    rintro t us rfl
    cases t with
    | operator op => exact absurd rfl (hahead op us)
    | rightParen => exact absurd rfl (hne us)
    | integer | dice | leftParen | missingCount | unknown => rfl
  cases ahead with
  | nil => exact hunexpected nofun
  | cons t us =>
      cases t with
      | rightParen => rfl
      | integer | dice | leftParen | operator | missingCount | unknown => exact hunexpected nofun

theorem chain_spec (groups : List Pending) (terms offset : Nat) {ts : List Lexeme}
    (hatoms : ∀ us : List Lexeme, us.length ≤ ts.length → Follows us)
    (hgroup : groups ≠ [] → ts.head? ≠ some .rightParen) :
    run ⟨groups, terms, .operand none⟩ offset ts =
        chain groups.length terms offset ts >>= resume groups none ∧
      ∀ p, chain groups.length terms offset ts = .ok p → ∀ op us, p.ahead ≠ .operator op :: us := by
  rw [hatoms ts (Nat.le_refl _) groups terms offset none fun _ => hgroup, chain]
  cases atom groups.length terms offset ts with
  | error r => exact ⟨rfl, nofun⟩
  | ok p =>
      exact links_spec p fun us hus => hatoms us (Nat.le_of_lt (Nat.lt_trans hus p.shorter))

theorem group_spec {groups : List Pending} {terms offset : Nat} {left : Pending}
    {ts : List Lexeme} (hatoms : ∀ us : List Lexeme, us.length ≤ ts.length → Follows us) :
    run ⟨groups, terms, .operand left⟩ offset (.leftParen :: ts) =
      group groups.length terms offset ts >>= resume groups left := by
  rw [group]
  by_cases hdepth : maxDepth ≤ groups.length
  · have hstep : State.step ⟨groups, terms, .operand left⟩ .leftParen = .error .tooDeep :=
      if_pos hdepth
    rw [if_pos hdepth, run_cons_of_error hstep]
    rfl
  · rw [if_neg hdepth, run_cons_of_moves (.enter (Nat.not_le.1 hdepth))]
    by_cases hempty : ts.head? = some .rightParen
    · obtain ⟨us, rfl⟩ := List.head?_eq_some_iff.1 hempty
      rfl
    · obtain ⟨hrun, hahead⟩ :=
        chain_spec (left :: groups) terms (offset + 1) hatoms fun _ => hempty
      rw [if_neg hempty]
      refine hrun.trans ?_
      rw [List.length_cons] at hahead ⊢
      cases hchain : chain (groups.length + 1) terms (offset + 1) ts with
      | error r => rfl
      | ok p => exact close_spec p (hahead p hchain) groups left

theorem atom_eq_error {ts : List Lexeme}
    (h : ∀ t us, ts = t :: us → t.kind ∉ Kind.operandStarts) (depth terms offset : Nat) :
    atom depth terms offset ts = .error (unexpected offset Kind.operandStarts ts) := by
  rw [atom]
  · rintro digits us rfl
    exact h _ us rfl (by decide : Kind.integer ∈ Kind.operandStarts)
  · rintro count sides us rfl
    exact h _ us rfl (by decide : Kind.dice ∈ Kind.operandStarts)
  · rintro us rfl
    exact h _ us rfl (by decide : Kind.leftParen ∈ Kind.operandStarts)

/-- Wherever an atom is wanted, reading it by recursion agrees with reading it with a stack. -/
theorem follows (ts : List Lexeme) : Follows ts := by
  induction hn : ts.length using Nat.strongRecOn generalizing ts with
  | ind n ih =>
    subst hn
    intro groups terms offset left hgroup
    cases ts with
    | nil =>
        rw [atom_eq_error (by rintro _ _ ⟨⟩)]
        exact run_operand_unexpected rfl offset (by rintro _ _ ⟨⟩)
    | cons t ts =>
        cases t with
        | integer digits =>
            rw [atom]
            exact run_leaf rfl offset ts
        | dice count sides =>
            rw [atom]
            exact run_leaf rfl offset ts
        | leftParen =>
            rw [atom]
            exact group_spec fun us hus => ih us.length (Nat.lt_succ_of_le hus) us rfl
        | rightParen =>
            rw [atom_eq_error (by rintro _ _ ⟨⟩; decide)]
            apply run_operand_unexpected rfl offset
            rintro _ _ ⟨⟩
            exact if_neg fun h => hgroup h.1 h.2 rfl
        | operator | missingCount | unknown =>
            rw [atom_eq_error (by rintro _ _ ⟨⟩; simp [Lexeme.kind, Kind.operandStarts])]
            apply run_operand_unexpected rfl offset
            rintro _ _ ⟨⟩
            rfl

/-- Reading by recursion and reading with a stack come to the same tree or the same refusal. -/
theorem read_eq (ts : List Lexeme) : read ts = Grammar.read ts := by
  rw [read, Grammar.read]
  by_cases hts : ts = []
  · rw [if_pos hts, if_pos hts]
  · obtain ⟨hrun, hahead⟩ :=
      chain_spec [] 0 0 (fun us (_ : us.length ≤ ts.length) => follows us) (absurd rfl)
    rw [if_neg hts, if_neg hts, State.start, hrun]
    rw [List.length_nil] at hahead ⊢
    cases hchain : chain 0 0 0 ts with
    | error r => rfl
    | ok p =>
        have hne := hahead p hchain
        obtain ⟨e, terms, offset, ahead, hlt⟩ := p
        cases ahead with
        | nil => rfl
        | cons t us =>
            have hexpected : State.expected ⟨[], terms, .operator e⟩ = Kind.operators := by
              simp [State.expected]
            have hunexpected : run ⟨[], terms, .operator e⟩ offset (t :: us) =
                .error (unexpected offset Kind.operators (t :: us)) := by
              rw [← hexpected]
              apply run_operator_unexpected rfl offset (by rintro ⟨⟩)
              rintro _ _ ⟨⟩
              cases t with
              | operator op => exact absurd rfl (hne op us)
              | integer | dice | leftParen | rightParen | missingCount | unknown => rfl
            exact hunexpected.symm

end DiceOdds.Grammar.Descent
