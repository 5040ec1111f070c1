import DiceOdds.Proofs.Places
import DiceOdds.Proofs.Stops
import Mathlib.Control.Monad.Basic

namespace DiceOdds.Grammar

/-- A fault of a text, with what stands before and in its span, and with the lexemes before the one
that it is found at. -/
structure Fault.PointsAt (f : Fault) (text before piece behind : List Char)
    (ts : List Lexeme) : Prop where
  split : text = before ++ piece ++ behind
  start_eq : f.span.start = byteLength before
  stop_eq : f.span.stop = byteLength (before ++ piece)
  visible_piece : visible piece = f.slice.toList
  trimmed : Trimmed piece
  visible_before : visible before = ts.flatMap Lexeme.chars
  stops : ∃ us, lexemes (visible text) = ts ++ us ∧ Stops ts us f.cause ∧ f.slice.toList = front us
  at_end : f.slice = "" → before = text
  moved_eq : Span.moved ⟨byteLength (visible before), byteLength (visible before ++ visible piece)⟩
    (byteTable text) = f.span

/-- At the end of the lexemes a refusal points behind the text. -/
theorem Refusal.pointsAt_end {r : Refusal} {text : List Char}
    (h : Stops (lexemes (visible text)) [] r.cause) (hslice : r.slice = []) :
    (r.inText text).PointsAt text text [] [] (lexemes (visible text)) := by
  have hspan : (r.inText text).span = ⟨byteLength text, byteLength text⟩ := by
    rw [inText, hslice, List.length_nil, locate_nil]
  have hempty : (r.inText text).slice.toList = [] := by
    rw [inText, hslice, String.toList_ofList]
  have hmoved : Span.moved ⟨byteLength (visible text), byteLength (visible text ++ [])⟩
      (byteTable text) = (r.inText text).span := by
    rw [hspan, ← locate_nil text (visible text).length]
    exact moved_eq_locate (w := []) (v := []) (by simp) fun _ => rfl
  exact
    { split := by simp
      start_eq := by rw [hspan]
      stop_eq := by rw [hspan, List.append_nil]
      visible_piece := hempty.symm
      trimmed := trimmed_nil
      visible_before := (flatMap_chars_lexemes _).symm
      stops := ⟨[], (List.append_nil _).symm, h, hempty⟩
      at_end := fun _ => rfl
      moved_eq := hmoved }

theorem Refusal.exists_pointsAt_lexeme {r : Refusal} {text : List Char} {ts us : List Lexeme}
    {t : Lexeme} (hsplit : lexemes (visible text) = ts ++ t :: us)
    (h : Stops ts (t :: us) r.cause) (hoffset : r.offset = charCount ts)
    (hslice : r.slice = t.chars) :
    ∃ before piece behind, (r.inText text).PointsAt text before piece behind ts := by
  have hvisible : visible text =
      ts.flatMap Lexeme.chars ++ t.chars ++ us.flatMap Lexeme.chars := by
    rw [List.append_assoc, ← List.flatMap_cons, ← List.flatMap_append, ← hsplit,
      flatMap_chars_lexemes]
  have hchars : t.chars ≠ [] := by
    have hmem : t ∈ lexemes (visible text) := by
      rw [hsplit]
      exact List.mem_append_right _ List.mem_cons_self
    exact (formed_of_mem_lexemes hmem).chars_ne_nil
  obtain ⟨before, piece, behind, rfl, hbefore, hpiece, htrimmed⟩ := exists_trimmed hvisible
  have hne : piece ≠ [] := by
    rintro rfl
    exact hchars hpiece.symm
  have hspan : (r.inText (before ++ piece ++ behind)).span =
      ⟨byteLength before, byteLength (before ++ piece)⟩ := by
    rw [← htrimmed.locate_eq hne before behind, hbefore, hpiece, inText, hoffset, hslice]
    rfl
  have hslice' : (r.inText (before ++ piece ++ behind)).slice.toList = t.chars := by
    rw [inText, hslice, String.toList_ofList]
  exact ⟨before, piece, behind,
    { split := rfl
      start_eq := by rw [hspan]
      stop_eq := by rw [hspan]
      visible_piece := hpiece.trans hslice'.symm
      trimmed := htrimmed
      visible_before := hbefore
      stops := ⟨t :: us, hsplit, h, hslice'⟩
      at_end := fun hempty => absurd (hslice'.symm.trans (congrArg String.toList hempty)) hchars
      moved_eq := (htrimmed.moved_byteTable hne before behind).trans hspan.symm }⟩

theorem Refusal.exists_pointsAt {r : Refusal} {text : List Char}
    (h : read (lexemes (visible text)) = .error r) :
    ∃ before piece behind ts, (r.inText text).PointsAt text before piece behind ts := by
  obtain ⟨ts, us, hsplit, hstops, hoffset, hslice⟩ := stops_of_read h
  cases us with
  | nil =>
      rw [List.append_nil] at hsplit
      rw [← hsplit] at hstops
      exact ⟨text, [], [], _, pointsAt_end hstops hslice⟩
  | cons t us =>
      obtain ⟨before, piece, behind, hpoints⟩ :=
        exists_pointsAt_lexeme hsplit hstops hoffset hslice
      exact ⟨before, piece, behind, ts, hpoints⟩

theorem Fault.PointsAt.bounds {f : Fault} {text : String} {before piece behind : List Char}
    {ts : List Lexeme} (h : f.PointsAt text.toList before piece behind ts) :
    f.span.start ≤ f.span.stop ∧ f.span.stop ≤ text.utf8ByteSize ∧
      String.Pos.Raw.IsValid text ⟨f.span.start⟩ ∧ String.Pos.Raw.IsValid text ⟨f.span.stop⟩ := by
  rw [h.start_eq, h.stop_eq, ← byteLength_eq, h.split, byteLength_append (before ++ piece)]
  refine ⟨?_, Nat.le_add_right _ _, ?_, isValid_byteLength h.split⟩
  · rw [byteLength_append]
    exact Nat.le_add_right _ _
  · exact isValid_byteLength (h.split.trans (List.append_assoc ..))

/-- A fault points at a piece of the text as it was given, which the blanks around it do not belong
to, and behind all that is read before it. Blanks move the fault and change nothing else. -/
theorem parse_points (text : String) :
    (∀ f, parse text = .error f →
      f.span.start ≤ f.span.stop ∧ f.span.stop ≤ text.utf8ByteSize ∧
      String.Pos.Raw.IsValid text ⟨f.span.start⟩ ∧ String.Pos.Raw.IsValid text ⟨f.span.stop⟩ ∧
      ∃ before piece behind ts, f.PointsAt text.toList before piece behind ts) ∧
    (∀ text', visible text'.toList = visible text.toList →
      (∃ e, parse text = .ok e ∧ parse text' = .ok e) ∨
      ∃ f f', parse text = .error f ∧ parse text' = .error f' ∧ f.cause = f'.cause ∧
        f.slice = f'.slice) := by
  constructor
  · intro f hf
    rw [parse] at hf
    cases hread : read (lexemes (visible text.toList)) with
    | ok e =>
        rw [hread] at hf
        cases hf
    | error r =>
        rw [hread] at hf
        cases hf
        obtain ⟨before, piece, behind, ts, hpoints⟩ := Refusal.exists_pointsAt hread
        obtain ⟨hle, hsize, hstart, hstop⟩ := hpoints.bounds
        exact ⟨hle, hsize, hstart, hstop, before, piece, behind, ts, hpoints⟩
  · intro text' hvisible
    rw [parse, parse, hvisible]
    cases hread : read (lexemes (visible text.toList)) with
    | ok e => exact .inl ⟨e, rfl, rfl⟩
    | error r => exact .inr ⟨_, _, rfl, rfl, rfl, rfl⟩

/-- A die without faces, with a wide blank in its middle. -/
theorem parse_points_zero :
    let text := "2d6 + 0\u3000d4 "
    ∃ f, parse text = .error f ∧ f.cause = .zero ∧ f.span = ⟨6, 12⟩ ∧
      ∃ before piece behind ts, f.PointsAt text.toList before piece behind ts := by
  intro text
  have hparse : parse text = .error ⟨.zero, ⟨6, 12⟩, "0d4"⟩ := by decide +kernel
  obtain ⟨-, -, -, -, hpoints⟩ := (parse_points text).1 _ hparse
  exact ⟨_, hparse, rfl, rfl, hpoints⟩

end DiceOdds.Grammar
