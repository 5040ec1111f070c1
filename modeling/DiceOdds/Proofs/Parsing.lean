import DiceOdds.Grammar.Parse
import DiceOdds.Proofs.Reading

namespace DiceOdds.Grammar

inductive Before : Pending → List Char → Nat → Nat → Prop
  | none : Before none [] 0 0
  | some {t : List Char} {l : Expr} {d n : Nat} (h : Derives .chain t l d n) (op : Operator) :
      Before (some (l, op)) (t ++ [op.symbol]) d n

inductive Opened : List Pending → List Char → Nat → Prop
  | nil : Opened [] [] 0
  | cons {left : Pending} {groups : List Pending} {t u : List Char} {d m n : Nat}
      (hgroups : Opened groups t m) (hleft : Before left u d n)
      (hd : groups.length + d ≤ maxDepth) (hopen : groups.length < maxDepth) :
      Opened (left :: groups) (t ++ u ++ ['(']) (m + n)

def Awaiting.Behind : Awaiting → List Char → Nat → Nat → Prop
  | operand left, u, d, n => Before left u d n
  | operator chain, u, d, n => Derives .chain u chain d n

/-- The texts that lead to a state: the open groups, and the chain at hand behind them, both within
the limits. -/
def State.Behind (s : State) (t : List Char) : Prop :=
  ∃ t₀ u d m n, t = t₀ ++ u ∧ Opened s.groups t₀ m ∧ s.awaiting.Behind u d n ∧
    s.groups.length + d ≤ maxDepth ∧ s.terms = m + n ∧ s.terms ≤ maxTerms

theorem State.behind_start : State.start.Behind [] :=
  ⟨[], [], 0, 0, 0, rfl, .nil, .none, Nat.zero_le _, rfl, Nat.zero_le _⟩

theorem Before.join {left : Pending} {u v : List Char} {e : Expr} {d d' n n' : Nat}
    (h : Before left u d n) (he : Derives .atom v e d' n') :
    Derives .chain (u ++ v) (left.join e) (max d d') (n + n') := by
  cases h with
  | none =>
      rw [Nat.zero_max, Nat.zero_add]
      exact .single he
  | some hl op =>
      rw [List.append_assoc]
      exact .link hl op he

theorem Lexeme.Denotes.derives {x : Lexeme} {r : Roll} (h : x.Denotes r) (hx : x.Formed) :
    Derives .atom x.chars (.roll r) 0 1 := by
  cases h with
  | integer h => exact .constant (numeral_of_ofDigits hx h)
  | dice hc hs => exact .dice (numeral_of_ofDigits hx.1 hc) (numeral_of_ofDigits hx.2 hs)

namespace State.Behind

variable {s s' : State} {t : List Char}

theorem of_moves {x : Lexeme} (h : s.Behind t) (hx : x.Formed) (hs : s.Moves x s') :
    s'.Behind (t ++ x.chars) := by
  obtain ⟨t₀, u, d, m, n, rfl, hopened, hbehind, hdepth, hterms, hmax⟩ := h
  cases hs with
  | term hr hlt =>
      refine ⟨t₀, u ++ x.chars, max d 0, m, n + 1, List.append_assoc .., hopened,
        Before.join hbehind (hr.derives hx), ?_, congrArg (· + 1) hterms, hlt⟩
      rwa [Nat.max_zero]
  | enter hlt =>
      exact ⟨_, [], 0, m + n, 0, (List.append_nil _).symm, .cons hopened hbehind hdepth hlt, .none,
        hlt, hterms, hmax⟩
  | link op =>
      exact ⟨t₀, u ++ [op.symbol], d, m, n, List.append_assoc .., hopened, .some hbehind op,
        hdepth, hterms, hmax⟩
  | leave =>
      cases hopened with
      | @cons left groups t₁ v d' m' n' hopened hleft hd _ =>
          refine ⟨t₁, v ++ ('(' :: u ++ [')']), max d' (d + 1), m', n' + n, ?_, hopened,
            hleft.join (.group hbehind), ?_, ?_, hmax⟩
          · simp [Lexeme.chars]
          · simp only [List.length_cons] at hdepth ⊢
            omega
          · rw [← Nat.add_assoc]
            exact hterms

/-- At the end no group is open, and what is behind the last state is one chain. -/
theorem derives_of_finish {e : Expr} (h : s.Behind t) (he : s.finish = .ok e) :
    ∃ d n, Derives .chain t e d n ∧ d ≤ maxDepth ∧ n ≤ maxTerms := by
  rw [State.finish] at he
  split at he
  · next hs hgroups =>
    cases he
    obtain ⟨t₀, u, d, m, n, rfl, hopened, hchain, hdepth, hterms, hmax⟩ := h
    rw [hs] at hchain
    rw [hgroups] at hopened hdepth
    cases hopened with
    | nil => exact ⟨d, n, hchain, by simpa using hdepth, by omega⟩
  · cases he

theorem derives_of_run {e : Expr} (ts : List Lexeme) (h : s.Behind t) (hts : ∀ x ∈ ts, x.Formed)
    (offset : Nat) (he : run s offset ts = .ok e) :
    ∃ d n, Derives .chain (t ++ ts.flatMap Lexeme.chars) e d n ∧ d ≤ maxDepth ∧ n ≤ maxTerms := by
  induction ts generalizing s t offset with
  | nil =>
      rw [run] at he
      cases hf : s.finish with
      | error cause =>
          rw [hf] at he
          cases he
      | ok e' =>
          rw [hf] at he
          cases he
          rw [List.flatMap_nil, List.append_nil]
          exact h.derives_of_finish hf
  | cons x ts ih =>
      cases hs : s.step x with
      | error cause =>
          rw [run_cons_of_error hs] at he
          cases he
      | ok s' =>
          have hmoves := State.step_eq_ok_iff.1 hs
          rw [run_cons_of_moves hmoves] at he
          rw [List.flatMap_cons, ← List.append_assoc]
          exact ih (h.of_moves (hts x List.mem_cons_self) hmoves)
            (fun y hy => hts y (List.mem_cons_of_mem x hy)) _ he

end State.Behind

theorem Derives.read_of_fits {t : List Char} {e : Expr} {d n : Nat} (h : Derives .chain t e d n)
    (hd : d ≤ maxDepth) (hn : n ≤ maxTerms) : read (lexemes t) = .ok e := by
  have hrun : run .start 0 (lexemes t) = .ok e := by
    have hfits : State.Fits .start d n := ⟨by simpa [State.start] using hd,
      by simpa [State.start] using hn⟩
    rw [← List.append_nil (lexemes t)]
    exact (h.reads [] 0 none (fun _ => rfl) (Nat.zero_le _) 0 []).1 hfits
  rw [read, if_neg, hrun]
  intro hnil
  rw [hnil] at hrun
  cases hrun

theorem derives_of_read {t : List Char} {e : Expr} (h : read (lexemes t) = .ok e) :
    ∃ d n, Derives .chain t e d n ∧ d ≤ maxDepth ∧ n ≤ maxTerms := by
  rw [read] at h
  split at h
  · cases h
  · have hread := State.behind_start.derives_of_run (lexemes t)
      (fun x hx => formed_of_mem_lexemes hx) 0 h
    rwa [List.nil_append, flatMap_chars_lexemes] at hread

theorem parse_eq_ok_iff_read (text : String) (e : Expr) :
    parse text = .ok e ↔ read (lexemes (visible text.toList)) = .ok e := by
  rw [parse]
  cases read (lexemes (visible text.toList)) with
  | error r => exact ⟨nofun, nofun⟩
  | ok e' => exact ⟨fun h => congrArg _ (Except.ok.inj h), fun h => congrArg _ (Except.ok.inj h)⟩

theorem parse_eq_ok_iff_visible (text : String) (e : Expr) :
    parse text = .ok e ↔
      ∃ d n, Derives .chain (visible text.toList) e d n ∧ d ≤ maxDepth ∧ n ≤ maxTerms := by
  rw [parse_eq_ok_iff_read]
  constructor
  · exact derives_of_read
  · rintro ⟨d, n, h, hd, hn⟩
    exact h.read_of_fits hd hn

/-- The code points of Unicode with the property White_Space. -/
def whiteSpace : List Nat :=
  [0x9, 0xa, 0xb, 0xc, 0xd, 0x20, 0x85, 0xa0, 0x1680, 0x2000, 0x2001, 0x2002, 0x2003, 0x2004,
    0x2005, 0x2006, 0x2007, 0x2008, 0x2009, 0x200a, 0x2028, 0x2029, 0x202f, 0x205f, 0x3000]

theorem isBlank_iff_mem_whiteSpace {c : Char} : Text.isBlank c = true ↔ c.toNat ∈ whiteSpace := by
  simp only [Text.isBlank, Text.blankRanges, Text.inRanges, Bool.and_eq_true, Bool.or_eq_true,
    decide_eq_true_eq, Bool.false_eq_true, whiteSpace, List.mem_cons, List.not_mem_nil, or_false]
  omega

theorem visible_eq_filter (text : List Char) :
    visible text = text.filter fun c => c.toNat ∉ whiteSpace := by
  apply List.filter_congr
  intro c _
  rw [Bool.eq_iff_iff, Bool.not_eq_true', ← Bool.not_eq_true, isBlank_iff_mem_whiteSpace,
    decide_eq_true_iff]

/-- A text is read to a tree if and only if without its white space it is a chain with this tree,
whose groups are at most 128 deep and which has at most 1000 numbers and dice. -/
theorem parse_eq_ok_iff_derives (text : String) (e : Expr) :
    parse text = .ok e ↔
      ∃ d n, Derives .chain (text.toList.filter fun c => c.toNat ∉ whiteSpace) e d n ∧
        d ≤ 128 ∧ n ≤ 1000 := by
  rw [← visible_eq_filter]
  exact parse_eq_ok_iff_visible text e

theorem parse_spread_die :
    parse " 1\t0 d\u30006" =
      .ok (.roll ⟨⟨10, by decide, by decide⟩, ⟨6, by decide, by decide⟩⟩) := by
  refine (parse_eq_ok_iff_derives _ _).2 ⟨0, 1, ?_, by decide, by decide⟩
  have hcount : Numeral ['1', '0'] ⟨10, by decide, by decide⟩ := ⟨by simp [Digits], rfl⟩
  have hsides : Numeral ['6'] ⟨6, by decide, by decide⟩ := ⟨by simp [Digits], rfl⟩
  exact .single (.dice hcount hsides)

end DiceOdds.Grammar
