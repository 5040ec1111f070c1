import DiceOdds.Proofs.LongestMatch
import DiceOdds.Proofs.Places

namespace DiceOdds.Grammar

theorem byteLength_pos {cs : List Char} (h : cs ≠ []) : 0 < byteLength cs := by
  obtain ⟨c, cs, rfl⟩ := List.exists_cons_of_ne_nil h
  exact Nat.add_pos_left c.utf8Size_pos _

theorem eq_nil_of_byteLength_append {cs ds : List Char}
    (h : byteLength (cs ++ ds) = byteLength cs) : ds = [] := by
  rw [byteLength_append, Nat.add_eq_left] at h
  exact Decidable.by_contra fun hne => Nat.ne_of_gt (byteLength_pos hne) h

/-- Two front parts of a text that are as long in bytes are the same. -/
theorem eq_of_byteLength_eq {cs ds as bs : List Char} (h : cs ++ as = ds ++ bs)
    (hlength : byteLength cs = byteLength ds) : cs = ds := by
  obtain ⟨es, rfl, -⟩ | ⟨es, rfl, -⟩ := List.append_eq_append_iff.1 h
  · rw [eq_nil_of_byteLength_append hlength.symm, List.append_nil]
  · rw [eq_nil_of_byteLength_append hlength, List.append_nil]

/-- Spans in a row from one offset to another, none of them empty, and each where the one before it
stops. -/
inductive Tiles : Nat → List Span → Nat → Prop
  | nil {n : Nat} : Tiles n [] n
  | cons {start middle stop : Nat} {ss : List Span} (h : start < middle)
      (hss : Tiles middle ss stop) : Tiles start (⟨start, middle⟩ :: ss) stop

namespace Tiles

variable {start stop : Nat} {ss : List Span}

theorem start_le_stop (h : Tiles start ss stop) : start ≤ stop := by
  induction h with
  | nil => exact Nat.le_refl _
  | cons h _ ih => exact Nat.le_trans (Nat.le_of_lt h) ih

theorem stop_le (h : Tiles start ss stop) : ∀ s ∈ ss, s.stop ≤ stop := by
  induction h with
  | nil => exact nofun
  | cons _ hss ih => exact List.forall_mem_cons.2 ⟨hss.start_le_stop, ih⟩

theorem eq_or_exists_stop (h : Tiles start ss stop) : start = stop ∨ ∃ s ∈ ss, s.stop = stop := by
  induction h with
  | nil => exact .inl rfl
  | cons h hss ih =>
      obtain rfl | ⟨s, hs, hstop⟩ := ih
      · exact .inr ⟨_, List.mem_cons_self, rfl⟩
      · exact .inr ⟨s, List.mem_cons_of_mem _ hs, hstop⟩

end Tiles

theorem tiles_spans {ts : List Lexeme} (h : ∀ t ∈ ts, t.chars ≠ []) (start : Nat) :
    Tiles start (spans start ts) (start + byteLength (ts.flatMap Lexeme.chars)) := by
  induction ts generalizing start with
  | nil => exact .nil
  | cons t ts ih =>
      obtain ⟨ht, hts⟩ := List.forall_mem_cons.1 h
      rw [List.flatMap_cons, byteLength_append, ← Nat.add_assoc]
      exact .cons (Nat.lt_add_of_pos_right (byteLength_pos ht)) (ih hts _)

structure Token where
  lexeme : Lexeme
  span : Span
  deriving DecidableEq

def tokensFrom (start : Nat) (ts : List Lexeme) : List Token :=
  List.zipWith Token.mk ts (spans start ts)

def tokens (text : String) : List Token := tokensFrom 0 (lexemes text.toList)

theorem tokensFrom_cons (start : Nat) (t : Lexeme) (ts : List Lexeme) :
    tokensFrom start (t :: ts) =
      ⟨t, ⟨start, start + byteLength t.chars⟩⟩ :: tokensFrom (start + byteLength t.chars) ts :=
  rfl

theorem tokensFrom_append (start : Nat) (ts us : List Lexeme) :
    tokensFrom start (ts ++ us) =
      tokensFrom start ts ++ tokensFrom (start + byteLength (ts.flatMap Lexeme.chars)) us := by
  induction ts generalizing start with
  | nil => rfl
  | cons t ts ih =>
      rw [List.cons_append, tokensFrom_cons, ih, tokensFrom_cons, List.flatMap_cons,
        byteLength_append, Nat.add_assoc, List.cons_append]

theorem map_span_tokensFrom (start : Nat) (ts : List Lexeme) :
    (tokensFrom start ts).map Token.span = spans start ts := by
  induction ts generalizing start with
  | nil => rfl
  | cons t ts ih => rw [tokensFrom_cons, List.map_cons, ih, spans]

theorem exists_of_mem_tokensFrom {start : Nat} {ts : List Lexeme} {t : Token}
    (h : t ∈ tokensFrom start ts) :
    ∃ before behind, ts = before ++ t.lexeme :: behind ∧
      t.span.start = start + byteLength (before.flatMap Lexeme.chars) ∧
      t.span.stop = start + byteLength ((before ++ [t.lexeme]).flatMap Lexeme.chars) := by
  induction ts generalizing start with
  | nil => cases h
  | cons u us ih =>
      rw [tokensFrom_cons] at h
      obtain rfl | h := List.mem_cons.1 h
      · exact ⟨[], us, rfl, rfl, by simp⟩
      · obtain ⟨before, behind, rfl, hstart, hstop⟩ := ih h
        refine ⟨u :: before, behind, rfl, ?_, ?_⟩
        · rw [hstart, List.flatMap_cons, byteLength_append, Nat.add_assoc]
        · rw [hstop, List.cons_append, List.flatMap_cons, byteLength_append, Nat.add_assoc]

/-- The tokens of the first lexemes are those that stop within them. -/
theorem takeWhile_tokensFrom {ts us : List Lexeme} (hts : ∀ t ∈ ts, t.chars ≠ [])
    (hus : ∀ t ∈ us, t.chars ≠ []) (start : Nat) :
    ((tokensFrom start (ts ++ us)).takeWhile fun t =>
      t.span.stop ≤ start + byteLength (ts.flatMap Lexeme.chars)) = tokensFrom start ts := by
  have hstop := (tiles_spans hts start).stop_le
  rw [← map_span_tokensFrom] at hstop
  rw [tokensFrom_append, List.takeWhile_append_of_pos]
  · cases us with
    | nil => exact List.append_nil _
    | cons u us =>
        have hu := byteLength_pos (hus u List.mem_cons_self)
        rw [tokensFrom_cons, List.takeWhile_cons_of_neg (by simp; omega), List.append_nil]
  · intro t ht
    exact decide_eq_true (hstop t.span (List.mem_map_of_mem ht))

/-- The piece of a text that a token covers: its span begins and ends with the piece, and its lexeme
is what the text from there on begins with. -/
structure Token.Covers (t : Token) (text before piece behind : List Char) : Prop where
  split : text = before ++ piece ++ behind
  start_eq : t.span.start = byteLength before
  stop_eq : t.span.stop = byteLength (before ++ piece)
  foremost : t.lexeme.Foremost piece behind

theorem Token.Covers.isValid {t : Token} {text : String} {before piece behind : List Char}
    (h : t.Covers text.toList before piece behind) :
    String.Pos.Raw.IsValid text ⟨t.span.start⟩ ∧ String.Pos.Raw.IsValid text ⟨t.span.stop⟩ := by
  rw [h.start_eq, h.stop_eq]
  exact ⟨isValid_byteLength (h.split.trans (List.append_assoc ..)), isValid_byteLength h.split⟩

theorem tiles_tokens (text : String) :
    Tiles 0 ((tokens text).map Token.span) text.utf8ByteSize := by
  have hne : ∀ t ∈ lexemes text.toList, t.chars ≠ [] :=
    fun t ht => (formed_of_mem_lexemes ht).chars_ne_nil
  have htiles := tiles_spans hne 0
  rwa [flatMap_chars_lexemes, byteLength_eq, Nat.zero_add, ← map_span_tokensFrom] at htiles

theorem exists_covers {text : String} {t : Token} (h : t ∈ tokens text) :
    ∃ before piece behind, t.Covers text.toList before piece behind := by
  obtain ⟨ts, us, hsplit, hstart, hstop⟩ := exists_of_mem_tokensFrom h
  have htext := flatMap_chars_lexemes text.toList
  refine ⟨ts.flatMap Lexeme.chars, t.lexeme.chars, us.flatMap Lexeme.chars, ?_, ?_, ?_, ?_⟩
  · rw [← htext, hsplit, List.flatMap_append, List.flatMap_cons, List.append_assoc]
  · rw [hstart, Nat.zero_add]
  · rw [hstop, Nat.zero_add, List.flatMap_append, List.flatMap_singleton]
  · exact foremost_of_lexemes hsplit

/-- Where a text is cut between two of its lexemes, the tokens before the cut stay. -/
theorem tokens_of_cut {text front : String} {ts us : List Lexeme}
    (h : lexemes text.toList = ts ++ us) (hfront : front.toList = ts.flatMap Lexeme.chars) :
    tokens front = (tokens text).takeWhile fun t => t.span.stop ≤ front.utf8ByteSize := by
  have hne (t : Lexeme) (ht : t ∈ ts ++ us) : t.chars ≠ [] :=
    (formed_of_mem_lexemes (h ▸ ht)).chars_ne_nil
  have htake := takeWhile_tokensFrom (fun t ht => hne t (List.mem_append_left us ht))
    (fun t ht => hne t (List.mem_append_right ts ht)) 0
  rw [Nat.zero_add, ← hfront, byteLength_eq, ← h] at htake
  rw [tokens, hfront, (lexemes_eq_append h).1]
  exact htake.symm

theorem exists_cut {text front rest : String} (h : text = front ++ rest)
    (hend : front = "" ∨ ∃ t ∈ tokens text, t.span.stop = front.utf8ByteSize) :
    ∃ ts us, lexemes text.toList = ts ++ us ∧ front.toList = ts.flatMap Lexeme.chars := by
  obtain rfl | ⟨t, ht, hstop⟩ := hend
  · exact ⟨[], _, rfl, rfl⟩
  · obtain ⟨ts, us, hsplit, -, hstop'⟩ := exists_of_mem_tokensFrom ht
    rw [← List.singleton_append, ← List.append_assoc] at hsplit
    refine ⟨ts ++ [t.lexeme], us, hsplit, ?_⟩
    have htext := flatMap_chars_lexemes text.toList
    rw [hsplit, List.flatMap_append, h, String.toList_append] at htext
    rw [hstop, Nat.zero_add, ← byteLength_eq] at hstop'
    exact eq_of_byteLength_eq htext.symm hstop'

/-- The tokens of a text lie side by side over all of it and split no character. Each is the longest
match of the patterns at the front of what is left, and a character at which none matches is one by
itself. A front part of the text has the tokens that stop within it if it ends where one of them
does, and has others if it ends elsewhere. -/
theorem tokens_tile (text : String) :
    Tiles 0 ((tokens text).map Token.span) text.utf8ByteSize ∧
    (∀ t ∈ tokens text,
      String.Pos.Raw.IsValid text ⟨t.span.start⟩ ∧ String.Pos.Raw.IsValid text ⟨t.span.stop⟩ ∧
      ∃ before piece behind, t.Covers text.toList before piece behind) ∧
    (∀ front rest, text = front ++ rest →
      ((front = "" ∨ ∃ t ∈ tokens text, t.span.stop = front.utf8ByteSize) ↔
        tokens front = (tokens text).takeWhile fun t => t.span.stop ≤ front.utf8ByteSize)) := by
  refine ⟨tiles_tokens text, ?_, ?_⟩
  · intro t ht
    obtain ⟨before, piece, behind, hcovers⟩ := exists_covers ht
    exact ⟨hcovers.isValid.1, hcovers.isValid.2, before, piece, behind, hcovers⟩
  · intro front rest h
    constructor
    · intro hend
      obtain ⟨ts, us, hsplit, hfront⟩ := exists_cut h hend
      exact tokens_of_cut hsplit hfront
    · intro htokens
      obtain hzero | ⟨s, hs, hstop⟩ := (tiles_tokens front).eq_or_exists_stop
      · exact .inl (String.utf8ByteSize_eq_zero_iff.1 hzero.symm)
      · obtain ⟨t, ht, rfl⟩ := List.mem_map.1 hs
        rw [htokens] at ht
        exact .inr ⟨t, List.takeWhile_subset _ ht, hstop⟩

/-- Dice that break off give a number and a `d` by itself, and still do where the text ends behind
them. -/
theorem tokens_tile_unfinished :
    let text := "3dd4é"
    tokens text = [⟨.integer ['3'], ⟨0, 1⟩⟩, ⟨.missingCount [], ⟨1, 2⟩⟩,
      ⟨.missingCount ['4'], ⟨2, 4⟩⟩, ⟨.unknown 'é', ⟨4, 6⟩⟩] ∧
    text = "3d" ++ "d4é" ∧ (∃ t ∈ tokens text, t.span.stop = "3d".utf8ByteSize) ∧
    tokens "3d" = (tokens text).takeWhile fun t => t.span.stop ≤ "3d".utf8ByteSize := by
  intro text
  have htokens : tokens text = [⟨.integer ['3'], ⟨0, 1⟩⟩, ⟨.missingCount [], ⟨1, 2⟩⟩,
      ⟨.missingCount ['4'], ⟨2, 4⟩⟩, ⟨.unknown 'é', ⟨4, 6⟩⟩] := by decide +kernel
  have hstop : ∃ t ∈ tokens text, t.span.stop = "3d".utf8ByteSize :=
    ⟨⟨.missingCount [], ⟨1, 2⟩⟩, by rw [htokens]; decide, rfl⟩
  exact ⟨htokens, rfl, hstop, ((tokens_tile text).2.2 "3d" "d4é" rfl).1 (.inr hstop)⟩

end DiceOdds.Grammar
