import DiceOdds.Proofs.RoundTrip

namespace DiceOdds.Grammar

namespace Precedence

inductive Level
  | factor
  | product
  | sum

/-- The grammar of expressions in which the operators in `tight` bind tighter than the others. All
associate to the left, and nothing limits groups and terms. -/
inductive Parses (tight : Operator → Bool) : Level → List Char → Expr → Prop
  | constant {digits : List Char} {q : Quantity} (h : Numeral digits q) :
      Parses tight .factor digits (.roll (.constant q))
  | dice {count sides : List Char} {c s : Quantity} (hc : Numeral count c)
      (hs : Numeral sides s) : Parses tight .factor (count ++ 'd' :: sides) (.roll ⟨c, s⟩)
  | group {t : List Char} {e : Expr} (h : Parses tight .sum t e) :
      Parses tight .factor ('(' :: t ++ [')']) e
  | factor {t : List Char} {e : Expr} (h : Parses tight .factor t e) : Parses tight .product t e
  | times {t u : List Char} {l r : Expr} {op : Operator} (hl : Parses tight .product t l)
      (hop : tight op = true) (hr : Parses tight .factor u r) :
      Parses tight .product (t ++ op.symbol :: u) (.binary l op r)
  | product {t : List Char} {e : Expr} (h : Parses tight .product t e) : Parses tight .sum t e
  | plus {t u : List Char} {l r : Expr} {op : Operator} (hl : Parses tight .sum t l)
      (hop : tight op = false) (hr : Parses tight .product u r) :
      Parses tight .sum (t ++ op.symbol :: u) (.binary l op r)

def strict : Operator → Bool := fun _ => false

def conventional : Operator → Bool
  | .mul | .div => true
  | .add | .sub => false

structure Frame where
  sum : Pending
  product : Pending

def Frame.empty : Frame := ⟨none, none⟩

inductive Reading
  | operand (groups : List Frame) (frame : Frame)
  | operator (groups : List Frame) (sum : Pending) (product : Expr)

def rollOf : Lexeme → Option Roll
  | .integer digits => ((Quantity.ofDigits digits).map Roll.constant).toOption
  | .dice count sides => (State.rollOfDigits count sides).toOption
  | _ => none

def step (tight : Operator → Bool) : Reading → Lexeme → Option Reading
  | .operand groups frame, .leftParen => some (.operand (frame :: groups) .empty)
  | .operand groups frame, t =>
    (rollOf t).map fun r => .operator groups frame.sum (frame.product.join (.roll r))
  | .operator groups sum product, .operator op =>
    if tight op then some (.operand groups ⟨sum, some (product, op)⟩)
    else some (.operand groups ⟨some (sum.join product, op), none⟩)
  | .operator (frame :: groups) sum product, .rightParen =>
    some (.operator groups frame.sum (frame.product.join (sum.join product)))
  | _, _ => none

def finish : Reading → Option Expr
  | .operator [] sum product => some (sum.join product)
  | _ => none

def read (tight : Operator → Bool) (text : List Char) : Option Expr :=
  ((lexemes text).foldlM (step tight) (.operand [] .empty)).bind finish

theorem eq_ok_of_toOption {ε α : Type} {x : Except ε α} {a : α} (h : x.toOption = some a) :
    x = .ok a := by
  cases x with
  | error e => cases h
  | ok b => exact congrArg _ (Option.some.inj h)

theorem rollOf_eq_some_iff {t : Lexeme} {r : Roll} : rollOf t = some r ↔ t.Denotes r := by
  constructor
  · intro h
    cases t with
    | integer digits => exact State.denotes_of_ofDigits (eq_ok_of_toOption h)
    | dice count sides => exact State.denotes_of_rollOfDigits (eq_ok_of_toOption h)
    | leftParen | rightParen | operator | missingCount | unknown => cases h
  · intro h
    cases h with
    | integer h =>
        rw [rollOf, h]
        rfl
    | dice hc hs =>
        rw [rollOf, State.rollOfDigits, hc, hs]
        rfl

inductive Moves (tight : Operator → Bool) : Reading → Lexeme → Reading → Prop
  | term {groups : List Frame} {frame : Frame} {t : Lexeme} {r : Roll} (h : t.Denotes r) :
      Moves tight (.operand groups frame) t
        (.operator groups frame.sum (frame.product.join (.roll r)))
  | enter {groups : List Frame} {frame : Frame} :
      Moves tight (.operand groups frame) .leftParen (.operand (frame :: groups) .empty)
  | times {groups : List Frame} {sum : Pending} {product : Expr} {op : Operator}
      (h : tight op = true) :
      Moves tight (.operator groups sum product) (.operator op)
        (.operand groups ⟨sum, some (product, op)⟩)
  | plus {groups : List Frame} {sum : Pending} {product : Expr} {op : Operator}
      (h : tight op = false) :
      Moves tight (.operator groups sum product) (.operator op)
        (.operand groups ⟨some (sum.join product, op), none⟩)
  | leave {groups : List Frame} {frame : Frame} {sum : Pending} {product : Expr} :
      Moves tight (.operator (frame :: groups) sum product) .rightParen
        (.operator groups frame.sum (frame.product.join (sum.join product)))

variable {tight : Operator → Bool}

theorem Moves.step_eq {s s' : Reading} {t : Lexeme} (h : Moves tight s t s') :
    step tight s t = some s' := by
  cases h with
  | term h =>
      have hroll := rollOf_eq_some_iff.2 h
      cases h <;> exact congrArg (Option.map _) hroll
  | enter | leave => rfl
  | times h => exact if_pos h
  | plus h => exact if_neg (ne_true_of_eq_false h)

theorem moves_of_step {s s' : Reading} {t : Lexeme} (h : step tight s t = some s') :
    Moves tight s t s' := by
  cases s with
  | operand groups frame =>
      have hterm (h : (rollOf t).map (fun r => Reading.operator groups frame.sum
          (frame.product.join (.roll r))) = some s') :
          Moves tight (.operand groups frame) t s' := by
        obtain ⟨r, hr, rfl⟩ := Option.map_eq_some_iff.1 h
        exact .term (rollOf_eq_some_iff.1 hr)
      cases t with
      | leftParen =>
          cases h
          exact .enter
      | integer | dice | rightParen | operator | missingCount | unknown => exact hterm h
  | operator groups sum product =>
      cases t with
      | operator op =>
          rw [step] at h
          split at h
          · next htight =>
            cases h
            exact .times htight
          · next htight =>
            cases h
            exact .plus (eq_false_of_ne_true htight)
      | rightParen =>
          cases groups with
          | nil => cases h
          | cons frame groups =>
              cases h
              exact .leave
      | integer | dice | leftParen | missingCount | unknown => cases h

theorem foldlM_cons_of_moves {s s' : Reading} {t : Lexeme} (h : Moves tight s t s')
    (ts : List Lexeme) : (t :: ts).foldlM (step tight) s = ts.foldlM (step tight) s' := by
  rw [List.foldlM_cons, h.step_eq]
  rfl

/-- The lexemes of a level are read to its tree. Behind a sum the reader still keeps its last
product apart, since a tight operator would go on with it. -/
def Reads (tight : Operator → Bool) : Level → List Lexeme → Expr → Prop
  | .factor, ts, e => ∀ groups frame, ts.foldlM (step tight) (.operand groups frame) =
      some (.operator groups frame.sum (frame.product.join e))
  | .product, ts, e => ∀ groups sum, ts.foldlM (step tight) (.operand groups ⟨sum, none⟩) =
      some (.operator groups sum e)
  | .sum, ts, e => ∀ groups, ∃ sum product, sum.join product = e ∧
      ts.foldlM (step tight) (.operand groups .empty) = some (.operator groups sum product)

theorem reads_term {t : Lexeme} {r : Roll} (h : t.Denotes r) :
    Reads tight .factor [t] (.roll r) := fun _ _ =>
  foldlM_cons_of_moves (.term h) []

theorem reads_group {ts : List Lexeme} {e : Expr} (h : Reads tight .sum ts e) :
    Reads tight .factor (.leftParen :: (ts ++ [.rightParen])) e := by
  intro groups frame
  obtain ⟨sum, product, rfl, hts⟩ := h (frame :: groups)
  have hleave : Moves tight (.operator (frame :: groups) sum product) .rightParen _ := .leave
  rw [foldlM_cons_of_moves .enter, List.foldlM_append, hts]
  exact foldlM_cons_of_moves hleave []

theorem reads_times {ts us : List Lexeme} {l r : Expr} {op : Operator}
    (hl : Reads tight .product ts l) (hop : tight op = true) (hr : Reads tight .factor us r) :
    Reads tight .product (ts ++ .operator op :: us) (.binary l op r) := by
  intro groups sum
  rw [List.foldlM_append, hl groups sum]
  exact (foldlM_cons_of_moves (.times hop) us).trans (hr groups ⟨sum, some (l, op)⟩)

theorem reads_plus {ts us : List Lexeme} {l r : Expr} {op : Operator}
    (hl : Reads tight .sum ts l) (hop : tight op = false) (hr : Reads tight .product us r) :
    Reads tight .sum (ts ++ .operator op :: us) (.binary l op r) := by
  intro groups
  obtain ⟨sum, product, rfl, hts⟩ := hl groups
  refine ⟨some (sum.join product, op), r, rfl, ?_⟩
  rw [List.foldlM_append, hts]
  exact (foldlM_cons_of_moves (.plus hop) us).trans (hr groups _)

theorem Parses.reads {level : Level} {t : List Char} {e : Expr} (h : Parses tight level t e) :
    Reads tight level (lexemes t) e := by
  induction h with
  | constant h =>
      rw [lexemes_digits h.1]
      exact reads_term (.integer h.ofDigits)
  | dice hc hs =>
      rw [lexemes_dice hc.1 hs.1]
      exact reads_term (.dice hc.ofDigits hs.ofDigits)
  | group _ ih =>
      rw [lexemes_group]
      exact reads_group ih
  | factor _ ih => exact fun groups sum => ih groups ⟨sum, none⟩
  | times _ hop _ ihl ihr =>
      rw [lexemes_link]
      exact reads_times ihl hop ihr
  | product _ ih => exact fun groups => ⟨none, _, rfl, ih groups none⟩
  | plus _ hop _ ihl ihr =>
      rw [lexemes_link]
      exact reads_plus ihl hop ihr

theorem Parses.read_eq {t : List Char} {e : Expr} (h : Parses tight .sum t e) :
    read tight t = some e := by
  obtain ⟨sum, product, rfl, hts⟩ := h.reads []
  rw [read, hts]
  rfl

inductive Before (tight : Operator → Bool) (level : Level) (binds : Bool) :
    Pending → List Char → Prop
  | none : Before tight level binds none []
  | some {t : List Char} {l : Expr} {op : Operator} (h : Parses tight level t l)
      (hop : tight op = binds) : Before tight level binds (some (l, op)) (t ++ [op.symbol])

abbrev BeforeProduct (tight : Operator → Bool) := Before tight .sum false

abbrev BeforeFactor (tight : Operator → Bool) := Before tight .product true

theorem Before.join_factor {left : Pending} {t u : List Char} {e : Expr}
    (h : BeforeFactor tight left t) (he : Parses tight .factor u e) :
    Parses tight .product (t ++ u) (left.join e) := by
  cases h with
  | none => exact .factor he
  | some hl hop =>
      rw [List.append_assoc]
      exact .times hl hop he

theorem Before.join_product {left : Pending} {t u : List Char} {e : Expr}
    (h : BeforeProduct tight left t) (he : Parses tight .product u e) :
    Parses tight .sum (t ++ u) (left.join e) := by
  cases h with
  | none => exact .product he
  | some hl hop =>
      rw [List.append_assoc]
      exact .plus hl hop he

inductive Opened (tight : Operator → Bool) : List Frame → List Char → Prop
  | nil : Opened tight [] []
  | cons {groups : List Frame} {sum product : Pending} {t u v : List Char}
      (hgroups : Opened tight groups t) (hsum : BeforeProduct tight sum u)
      (hproduct : BeforeFactor tight product v) :
      Opened tight (⟨sum, product⟩ :: groups) (t ++ u ++ v ++ ['('])

inductive Behind (tight : Operator → Bool) : Reading → List Char → Prop
  | operand {groups : List Frame} {sum product : Pending} {t u v : List Char}
      (hgroups : Opened tight groups t) (hsum : BeforeProduct tight sum u)
      (hproduct : BeforeFactor tight product v) :
      Behind tight (.operand groups ⟨sum, product⟩) (t ++ u ++ v)
  | operator {groups : List Frame} {sum : Pending} {product : Expr} {t u v : List Char}
      (hgroups : Opened tight groups t) (hsum : BeforeProduct tight sum u)
      (hproduct : Parses tight .product v product) :
      Behind tight (.operator groups sum product) (t ++ u ++ v)

theorem behind_start : Behind tight (.operand [] .empty) [] :=
  .operand .nil .none .none

theorem parses_denotes {x : Lexeme} {r : Roll} (h : x.Denotes r) (hx : x.Formed) :
    Parses tight .factor x.chars (.roll r) := by
  cases h with
  | integer h => exact .constant (numeral_of_ofDigits hx h)
  | dice hc hs => exact .dice (numeral_of_ofDigits hx.1 hc) (numeral_of_ofDigits hx.2 hs)

theorem Behind.of_moves {s s' : Reading} {t : List Char} {x : Lexeme} (h : Behind tight s t)
    (hx : x.Formed) (hs : Moves tight s x s') : Behind tight s' (t ++ x.chars) := by
  cases hs with
  | term hr =>
      obtain ⟨hgroups, hsum, hproduct⟩ := h
      rw [List.append_assoc]
      exact .operator hgroups hsum (hproduct.join_factor (parses_denotes hr hx))
  | enter =>
      obtain ⟨hgroups, hsum, hproduct⟩ := h
      have hbehind := Behind.operand (.cons hgroups hsum hproduct) .none .none
      rwa [List.append_nil, List.append_nil] at hbehind
  | times hop =>
      obtain _ | ⟨hgroups, hsum, hproduct⟩ := h
      rw [List.append_assoc]
      exact .operand hgroups hsum (.some hproduct hop)
  | plus hop =>
      obtain _ | ⟨hgroups, hsum, hproduct⟩ := h
      have hbehind := Behind.operand hgroups (.some (hsum.join_product hproduct) hop) .none
      rwa [List.append_nil, ← List.append_assoc, ← List.append_assoc] at hbehind
  | leave =>
      obtain _ | ⟨hgroups, hsum, hproduct⟩ := h
      obtain _ | ⟨hgroups, hsum', hproduct'⟩ := hgroups
      have hgroup := Parses.group (hsum.join_product hproduct)
      have hbehind := Behind.operator hgroups hsum' (hproduct'.join_factor hgroup)
      simpa [Lexeme.chars] using hbehind

theorem Behind.of_foldlM {s s' : Reading} {t : List Char} {ts : List Lexeme}
    (h : Behind tight s t) (hts : ∀ x ∈ ts, x.Formed) (hs : ts.foldlM (step tight) s = some s') :
    Behind tight s' (t ++ ts.flatMap Lexeme.chars) := by
  induction ts generalizing s t with
  | nil =>
      cases hs
      rwa [List.flatMap_nil, List.append_nil]
  | cons x ts ih =>
      rw [List.foldlM_cons] at hs
      obtain ⟨s₁, hstep, hs⟩ := Option.bind_eq_some_iff.1 hs
      rw [List.flatMap_cons, ← List.append_assoc]
      exact ih (h.of_moves (hts x List.mem_cons_self) (moves_of_step hstep))
        (fun y hy => hts y (List.mem_cons_of_mem x hy)) hs

theorem Behind.parses_of_finish {s : Reading} {t : List Char} {e : Expr} (h : Behind tight s t)
    (he : finish s = some e) : Parses tight .sum t e := by
  cases h with
  | operand => cases he
  | @operator groups sum product t u v hgroups hsum hproduct =>
      cases hgroups with
      | nil =>
          cases he
          exact hsum.join_product hproduct
      | cons => cases he

/-- The reader decides the grammar, which therefore has at most one tree for a text. -/
theorem read_eq_some_iff {t : List Char} {e : Expr} :
    read tight t = some e ↔ Parses tight .sum t e := by
  refine ⟨fun h => ?_, Parses.read_eq⟩
  obtain ⟨s, hs, he⟩ := Option.bind_eq_some_iff.1 h
  have hbehind := behind_start.of_foldlM (fun x hx => formed_of_mem_lexemes hx) hs
  rw [List.nil_append, flatMap_chars_lexemes] at hbehind
  exact hbehind.parses_of_finish he

theorem Parses.eq_iff {t : List Char} {e e' : Expr} (h : Parses tight .sum t e) :
    Parses tight .sum t e' ↔ e' = e := by
  rw [← read_eq_some_iff, h.read_eq, Option.some_inj]
  exact eq_comm

/-- Precedence matters to the tree of a text. -/
example : read conventional "1+2*3".toList ≠ read strict "1+2*3".toList := by
  decide +kernel

def Level.phrase : Level → Phrase
  | factor | product => .atom
  | sum => .chain

theorem Parses.derives {level : Level} {t : List Char} {e : Expr} (h : Parses strict level t e) :
    ∃ d n, Derives level.phrase t e d n := by
  induction h with
  | constant h => exact ⟨0, 1, .constant h⟩
  | dice hc hs => exact ⟨0, 1, .dice hc hs⟩
  | group _ ih =>
      obtain ⟨d, n, ih⟩ := ih
      exact ⟨d + 1, n, .group ih⟩
  | factor _ ih => exact ih
  | times _ hop => cases hop
  | product _ ih =>
      obtain ⟨d, n, ih⟩ := ih
      exact ⟨d, n, .single ih⟩
  | plus _ _ _ ihl ihr =>
      obtain ⟨d, n, ihl⟩ := ihl
      obtain ⟨d', n', ihr⟩ := ihr
      exact ⟨_, _, .link ihl _ ihr⟩

def levelOf : Phrase → Level
  | .atom => .factor
  | .chain => .sum

theorem parses_of_derives {p : Phrase} {t : List Char} {e : Expr} {d n : Nat}
    (h : Derives p t e d n) : Parses strict (levelOf p) t e := by
  induction h with
  | constant h => exact .constant h
  | dice hc hs => exact .dice hc hs
  | group _ ih => exact .group ih
  | single _ ih => exact .product (.factor ih)
  | link _ op _ ihl ihr => exact .plus ihl rfl (.factor ihr)

/-- Without precedence the grammar is that of the texts which are read up to the limits. -/
theorem parses_strict_iff {t : List Char} {e : Expr} :
    Parses strict .sum t e ↔ ∃ d n, Derives .chain t e d n := by
  refine ⟨Parses.derives, ?_⟩
  rintro ⟨d, n, h⟩
  exact parses_of_derives h

/-- Without precedence and limits a text that is parsed is read to the same tree. -/
theorem read_strict_of_parse {text : String} {e : Expr} (h : parse text = .ok e) :
    read strict (visible text.toList) = some e := by
  obtain ⟨d, n, hderives, -, -⟩ := derives_of_read ((parse_eq_ok_iff_read text e).1 h)
  exact (parses_of_derives hderives).read_eq

/-- Only the limits keep a text that is read without precedence from being parsed. -/
theorem parse_of_read_strict {text : String} {e : Expr}
    (h : read strict (visible text.toList) = some e) :
    parse text = .ok e ∨
    ∃ f, parse text = .error f ∧ (f.cause = .tooDeep ∨ f.cause = .tooManyTerms) := by
  obtain ⟨d, n, hderives⟩ := parses_strict_iff.1 (read_eq_some_iff.1 h)
  by_cases hlimits : d ≤ maxDepth ∧ n ≤ maxTerms
  · exact .inl (hderives.parse_eq_ok_iff.2 hlimits)
  · obtain ⟨f, hf, hcause, -⟩ := hderives.parse_of_exceeds hlimits
    exact .inr ⟨f, hf, hcause.isLimit⟩

theorem parses_roll (r : Roll) : Parses tight .factor r.text.toList (.roll r) := by
  obtain ⟨hnumeral, hr⟩ | ⟨count, sides, htext, hcount, hsides⟩ := text_roll r
  · have hparses : Parses tight .factor _ _ := .constant hnumeral
    rwa [← hr] at hparses
  · rw [htext]
    exact .dice hcount hsides

def levelIn (tight : Operator → Bool) : Expr → Level
  | .roll _ => .factor
  | .binary _ op _ => if tight op then .product else .sum

theorem Parses.toSum {level : Level} {t : List Char} {e : Expr} (h : Parses tight level t e) :
    Parses tight .sum t e := by
  cases level with
  | factor => exact .product (.factor h)
  | product => exact .product h
  | sum => exact h

theorem Parses.bracketed {level : Level} {s : String} {e : Expr}
    (h : Parses tight .sum s.toList e) (b : Bool)
    (hb : b = false → Parses tight level s.toList e) (hlevel : level = .product ∨ level = .sum) :
    Parses tight level (Expr.bracketed b s).toList e := by
  rw [toList_bracketed]
  cases b with
  | false => exact hb rfl
  | true =>
      have hproduct : Parses tight .product ('(' :: s.toList ++ [')']) e := .factor (.group h)
      rcases hlevel with rfl | rfl
      · exact hproduct
      · exact hproduct.toSum

theorem parses_right {r : Expr} (h : Parses tight .sum r.text.toList r) :
    Parses tight .factor (Expr.bracketed r.isBinary r.text).toList r := by
  rw [toList_bracketed]
  cases r with
  | roll r => exact parses_roll r
  | binary => exact .group h

/-- A text is read to its tree if products are what binds tight, or nothing is. -/
theorem parses_text (htight : ∀ op op', tight op = true → tight op' = op'.isMultiplicative)
    (e : Expr) : Parses tight (levelIn tight e) e.text.toList e := by
  induction e with
  | roll r => exact parses_roll r
  | binary l op r ihl ihr =>
      have hright := parses_right ihr.toSum
      rw [toList_text_binary, levelIn]
      split
      · next hop =>
        refine .times (ihl.toSum.bracketed _ (fun hplain => ?_) (.inl rfl)) hop hright
        cases l with
        | roll r => exact .factor (parses_roll r)
        | binary l op' r =>
            have hop' : tight op' = true := by
              simpa [htight op op' hop, Expr.isAdditive, ← htight op op hop, hop] using hplain
            rwa [levelIn, if_pos hop'] at ihl
      · next hop =>
        exact .plus (ihl.toSum.bracketed _ (fun _ => ihl.toSum) (.inr rfl))
          (eq_false_of_ne_true hop) (.factor hright)

theorem conventional_eq (op : Operator) : conventional op = op.isMultiplicative := by
  cases op <;> rfl

end Precedence

/-- The text of a tree is read to this tree, where `*` and `/` bind tighter than `+` and `-` and
where they do not. -/
theorem text_reads_alike (e : Expr) :
    Precedence.read Precedence.conventional e.text.toList = some e ∧
    Precedence.read Precedence.strict e.text.toList = some e ∧
    (∀ e', Precedence.Parses Precedence.conventional .sum e.text.toList e' ↔ e' = e) ∧
    ∀ e', (∃ d n, Derives .chain e.text.toList e' d n) ↔ e' = e := by
  have hconventional : Precedence.Parses Precedence.conventional .sum e.text.toList e :=
    (Precedence.parses_text (fun _ op' _ => Precedence.conventional_eq op') e).toSum
  have hstrict : Precedence.Parses Precedence.strict .sum e.text.toList e :=
    (Precedence.parses_text (fun _ _ h => Bool.noConfusion h) e).toSum
  refine ⟨hconventional.read_eq, hstrict.read_eq, fun e' => hconventional.eq_iff, fun e' => ?_⟩
  rw [← Precedence.parses_strict_iff]
  exact hstrict.eq_iff

/-- Without the brackets that a sum has before `*`, the text would have another tree where `*` binds
tighter. -/
theorem text_reads_alike_sum_times :
    let constant (q : Quantity) : Expr := .roll (.constant q)
    let one := constant ⟨1, by decide, by decide⟩
    let two := constant ⟨2, by decide, by decide⟩
    let three := constant ⟨3, by decide, by decide⟩
    let e : Expr := .binary (.binary one .add two) .mul three
    e.text = "(1+2)*3" ∧
    Precedence.read Precedence.conventional e.text.toList = some e ∧
    Precedence.read Precedence.strict e.text.toList = some e ∧
    Precedence.read Precedence.conventional "1+2*3".toList ≠ some e := by
  intro constant one two three e
  obtain ⟨hconventional, hstrict, -⟩ := text_reads_alike e
  refine ⟨?_, hconventional, hstrict, ?_⟩
  · decide +kernel
  · decide +kernel

/-- A text that has its tree's compact text without its blanks leads back to the tree, whatever the
size of the tree. -/
theorem read_visible_render {style : Style} (hroll : style.roll = Roll.text)
    (hseparator : ∀ c ∈ style.separator.toList, Text.isBlank c = true) (e : Expr) :
    Precedence.read Precedence.strict (visible (e.render style).toList) = some e := by
  rw [visible_render hroll hseparator]
  exact (Precedence.parses_of_derives (derives_text e)).read_eq

theorem injective_render {style : Style} (hroll : style.roll = Roll.text)
    (hseparator : ∀ c ∈ style.separator.toList, Text.isBlank c = true) :
    Function.Injective (Expr.render style) := by
  intro e e' h
  have hread := read_visible_render hroll hseparator e
  rw [h, read_visible_render hroll hseparator e'] at hread
  exact (Option.some.inj hread).symm

/-- No two trees have the same text, also beyond the limits on groups and terms. -/
theorem text_injective :
    Function.Injective Expr.text ∧ Function.Injective (Expr.render .spaced) :=
  ⟨injective_render rfl nofun, injective_render rfl isBlank_spaced⟩

end DiceOdds.Grammar
