import DiceOdds.Proofs.Printing

namespace DiceOdds.Grammar

theorem byteLength_append (cs ds : List Char) :
    byteLength (cs ++ ds) = byteLength cs + byteLength ds := by
  induction cs with
  | nil => exact (Nat.zero_add _).symm
  | cons c cs ih => rw [List.cons_append, byteLength, byteLength, ih, Nat.add_assoc]

theorem byteLength_eq (text : String) : byteLength text.toList = text.utf8ByteSize := by
  rw [← String.ofList_toList (s := text), String.toList_ofList]
  generalize text.toList = cs
  induction cs with
  | nil => rfl
  | cons c cs ih =>
      rw [byteLength, ih, ← List.singleton_append, String.ofList_append,
        String.utf8ByteSize_append, ← String.singleton_eq_ofList, String.utf8ByteSize_singleton]

theorem isValid_byteLength {text : String} {cs ds : List Char} (h : text.toList = cs ++ ds) :
    String.Pos.Raw.IsValid text ⟨byteLength cs⟩ := by
  rw [String.Pos.Raw.isValid_iff_exists_append]
  refine ⟨String.ofList cs, String.ofList ds, ?_, ?_⟩
  · rw [← String.ofList_append, ← h, String.ofList_toList]
  · rw [← String.toList_ofList (l := cs), byteLength_eq, String.toList_ofList]
    rfl

def visibleMarks (start : Nat) (text : List Char) : List Mark :=
  (marks start text).filter fun m => !Text.isBlank m.char

theorem marks_append (start : Nat) (cs ds : List Char) :
    marks start (cs ++ ds) = marks start cs ++ marks (start + byteLength cs) ds := by
  induction cs generalizing start with
  | nil => rfl
  | cons c cs ih => rw [List.cons_append, marks, marks, ih, byteLength, Nat.add_assoc]; rfl

theorem visibleMarks_append (start : Nat) (cs ds : List Char) :
    visibleMarks start (cs ++ ds) =
      visibleMarks start cs ++ visibleMarks (start + byteLength cs) ds := by
  rw [visibleMarks, marks_append, List.filter_append]
  rfl

theorem visibleMarks_singleton {c : Char} (h : Text.isBlank c = false) (start : Nat) :
    visibleMarks start [c] = [⟨c, start⟩] := by
  simp [visibleMarks, marks, h]

theorem length_visibleMarks (start : Nat) (text : List Char) :
    (visibleMarks start text).length = (visible text).length := by
  induction text generalizing start with
  | nil => rfl
  | cons c cs ih =>
      have ih' := ih (start + c.utf8Size)
      rw [visibleMarks, visible] at ih'
      rw [visibleMarks, visible, marks, List.filter_cons, List.filter_cons]
      split
      · rw [List.length_cons, List.length_cons, ih']
      · exact ih'

structure Trimmed (piece : List Char) : Prop where
  head : ∀ c, piece.head? = some c → Text.isBlank c = false
  last : ∀ c, piece.getLast? = some c → Text.isBlank c = false

theorem trimmed_nil : Trimmed [] := ⟨nofun, nofun⟩

theorem locate_nil (text : List Char) (offset : Nat) :
    locate text offset 0 = ⟨byteLength text, byteLength text⟩ := by
  rw [locate, List.take_zero]

theorem take_drop_visibleMarks (before piece behind : List Char) :
    ((visibleMarks 0 (before ++ piece ++ behind)).drop (visible before).length).take
      (visible piece).length = visibleMarks (byteLength before) piece := by
  rw [List.append_assoc, visibleMarks_append, List.drop_left' (length_visibleMarks 0 before),
    visibleMarks_append, List.take_left' (length_visibleMarks _ piece), Nat.zero_add]

namespace Trimmed

variable {piece : List Char}

theorem exists_marks_cons (h : Trimmed piece) (hne : piece ≠ []) (start : Nat) :
    ∃ m ms, visibleMarks start piece = m :: ms ∧ m.start = start := by
  obtain ⟨c, cs, rfl⟩ := List.exists_cons_of_ne_nil hne
  rw [← List.singleton_append, visibleMarks_append, visibleMarks_singleton (h.head c rfl)]
  exact ⟨_, _, rfl, rfl⟩

theorem exists_marks_concat (h : Trimmed piece) (hne : piece ≠ []) (start : Nat) :
    ∃ ms m, visibleMarks start piece = ms ++ [m] ∧ m.stop = start + byteLength piece := by
  obtain ⟨cs, c, hconcat⟩ := (List.eq_nil_or_concat piece).resolve_left hne
  rw [List.concat_eq_append] at hconcat
  subst hconcat
  rw [visibleMarks_append, visibleMarks_singleton (h.last c List.getLast?_concat)]
  refine ⟨_, _, rfl, ?_⟩
  rw [byteLength_append, Mark.stop, Nat.add_assoc]
  rfl

/-- The place of a piece that neither begins nor ends with a blank is found by counting the visible
characters before it and in it. -/
theorem locate_eq (h : Trimmed piece) (hne : piece ≠ []) (before behind : List Char) :
    locate (before ++ piece ++ behind) (visible before).length (visible piece).length =
      ⟨byteLength before, byteLength (before ++ piece)⟩ := by
  obtain ⟨m, ms, hmarks, hstart⟩ := h.exists_marks_cons hne (byteLength before)
  obtain ⟨ms', m', hmarks', hstop⟩ := h.exists_marks_concat hne (byteLength before)
  have hlast : ms.getLastD m = m' := by
    have hgetLast : (m :: ms).getLast? = some m' := by
      rw [← hmarks, hmarks', List.getLast?_concat]
    rwa [List.getLast?_cons, Option.some_inj, ← List.getLastD_eq_getLast?] at hgetLast
  rw [locate, ← visibleMarks, take_drop_visibleMarks, hmarks, byteLength_append before piece,
    ← hstop, ← hlast]
  exact congrArg (Span.mk · _) hstart

end Trimmed

theorem not_blank_of_head?_dropWhile {cs : List Char} {c : Char}
    (h : (cs.dropWhile Text.isBlank).head? = some c) : Text.isBlank c = false := by
  have hnot := List.head?_dropWhile_not Text.isBlank cs
  rw [h] at hnot
  simpa using hnot

/-- Trimming takes blanks off both ends, and leaves no more of them there. -/
theorem exists_trimChars (cs : List Char) :
    ∃ l r, cs = l ++ Text.trimChars cs ++ r ∧ (∀ c ∈ l, Text.isBlank c = true) ∧
      (∀ c ∈ r, Text.isBlank c = true) ∧ Trimmed (Text.trimChars cs) := by
  let rest := cs.dropWhile Text.isBlank
  let r := (rest.reverse.takeWhile Text.isBlank).reverse
  have hrest : rest = Text.trimChars cs ++ r := by
    rw [Text.trimChars, ← List.reverse_append, List.takeWhile_append_dropWhile,
      List.reverse_reverse]
  refine ⟨cs.takeWhile Text.isBlank, r, ?_, ?_, ?_, ?_, ?_⟩
  · rw [List.append_assoc, ← hrest, List.takeWhile_append_dropWhile]
  · exact List.all_eq_true.1 List.all_takeWhile
  · intro c hc
    exact List.all_eq_true.1 List.all_takeWhile c (List.mem_reverse.1 hc)
  · intro c hc
    have hhead : rest.head? = some c := by
      rw [hrest, List.head?_append, hc]
      rfl
    exact not_blank_of_head?_dropWhile hhead
  · intro c hc
    rw [Text.trimChars, List.getLast?_reverse] at hc
    exact not_blank_of_head?_dropWhile hc

/-- Blanks around a piece that has none at its ends are all that trimming takes off. -/
theorem Trimmed.trimChars_eq {l piece r : List Char} (h : Trimmed piece)
    (hl : ∀ c ∈ l, Text.isBlank c = true) (hr : ∀ c ∈ r, Text.isBlank c = true) :
    Text.trimChars (l ++ piece ++ r) = piece := by
  have hr' : ∀ c ∈ r.reverse, Text.isBlank c = true := fun c hc => hr c (List.mem_reverse.1 hc)
  rw [Text.trimChars, List.append_assoc, List.dropWhile_append_of_pos hl]
  by_cases hne : piece = []
  · subst hne
    rw [List.nil_append, ← List.append_nil r, List.dropWhile_append_of_pos hr]
    rfl
  · have hfront : (piece ++ r).dropWhile Text.isBlank = piece ++ r := by
      obtain ⟨c, cs, rfl⟩ := List.exists_cons_of_ne_nil hne
      exact List.dropWhile_cons_of_neg (by simp [h.head c rfl])
    have hback : piece.reverse.dropWhile Text.isBlank = piece.reverse := by
      obtain ⟨cs, c, rfl⟩ := (List.eq_nil_or_concat piece).resolve_left hne
      have hlast : Text.isBlank c = false := h.last c (by simp)
      rw [List.concat_eq_append, List.reverse_append, List.reverse_singleton, List.singleton_append]
      exact List.dropWhile_cons_of_neg (by simp [hlast])
    rw [hfront, List.reverse_append, List.dropWhile_append_of_pos hr', hback, List.reverse_reverse]

/-- Visible characters in a row stand in a piece that neither begins nor ends with a blank. -/
theorem exists_trimmed {text u w v : List Char} (h : visible text = u ++ w ++ v) :
    ∃ before piece behind, text = before ++ piece ++ behind ∧ visible before = u ∧
      visible piece = w ∧ Trimmed piece := by
  obtain ⟨front, behind, rfl, hfront, -⟩ := List.filter_eq_append_iff.1 h
  obtain ⟨before, middle, rfl, rfl, rfl⟩ := List.filter_eq_append_iff.1 hfront
  obtain ⟨l, r, hsplit, hl, hr, htrimmed⟩ := exists_trimChars middle
  generalize Text.trimChars middle = piece at hsplit htrimmed
  subst hsplit
  refine ⟨before ++ l, piece, r ++ behind, ?_, ?_, ?_, htrimmed⟩
  · simp only [List.append_assoc]
  · rw [visible_append, visible_eq_nil hl, List.append_nil]
    rfl
  · change visible piece = visible (l ++ piece ++ r)
    rw [visible_append, visible_append, visible_eq_nil hl, visible_eq_nil hr, List.nil_append,
      List.append_nil]

def Mark.bytes (m : Mark) : List Nat := List.range' m.start m.char.utf8Size

theorem Mark.exists_bytes_cons (m : Mark) : ∃ ns, m.bytes = m.start :: ns := by
  obtain ⟨n, hn⟩ := Nat.exists_eq_add_one.2 m.char.utf8Size_pos
  rw [bytes, hn, List.range'_succ]
  exact ⟨_, rfl⟩

theorem Mark.exists_bytes_concat (m : Mark) : ∃ ns n, m.bytes = ns ++ [n] ∧ n + 1 = m.stop := by
  obtain ⟨n, hn⟩ := Nat.exists_eq_add_one.2 m.char.utf8Size_pos
  refine ⟨List.range' m.start n, m.start + n, ?_, ?_⟩
  · rw [bytes, hn, List.range'_1_concat]
  · rw [stop, hn, Nat.add_assoc]

def bytePlaces (start : Nat) (text : List Char) : List Nat :=
  (visibleMarks start text).flatMap Mark.bytes

def byteTable (text : List Char) : List Nat := bytePlaces 0 text ++ [byteLength text]

/-- Moves a span by a table of places: it begins where its first byte does, and ends behind its
last one. -/
def Span.moved (s : Span) (table : List Nat) : Span :=
  let start := table.getD (min s.start (table.length - 1)) 0
  ⟨start, if s.start < s.stop then table.getD (s.stop - 1) 0 + 1 else start⟩

theorem bytePlaces_append (start : Nat) (cs ds : List Char) :
    bytePlaces start (cs ++ ds) = bytePlaces start cs ++ bytePlaces (start + byteLength cs) ds := by
  rw [bytePlaces, visibleMarks_append, List.flatMap_append]
  rfl

theorem length_bytePlaces (start : Nat) (text : List Char) :
    (bytePlaces start text).length = byteLength (visible text) := by
  induction text generalizing start with
  | nil => rfl
  | cons c cs ih =>
      rw [← List.singleton_append, bytePlaces_append, visible_append, List.length_append,
        byteLength_append, ih]
      congr 1
      cases hc : Text.isBlank c with
      | false =>
          rw [bytePlaces, visibleMarks_singleton hc]
          simp [visible, hc, Mark.bytes, byteLength]
      | true => simp [bytePlaces, visible, visibleMarks, marks, hc, byteLength]

theorem getD_append_cons {as : List Nat} {i : Nat} (h : as.length = i) (n : Nat) (bs : List Nat) :
    (as ++ n :: bs).getD i 0 = n := by
  simp [← h]

namespace Trimmed

variable {piece : List Char}

theorem exists_bytePlaces_cons (h : Trimmed piece) (hne : piece ≠ []) (start : Nat) :
    ∃ ns, bytePlaces start piece = start :: ns := by
  obtain ⟨m, ms, hmarks, rfl⟩ := h.exists_marks_cons hne start
  obtain ⟨ns, hns⟩ := m.exists_bytes_cons
  rw [bytePlaces, hmarks, List.flatMap_cons, hns]
  exact ⟨_, rfl⟩

theorem exists_bytePlaces_concat (h : Trimmed piece) (hne : piece ≠ []) (start : Nat) :
    ∃ ns n, bytePlaces start piece = ns ++ [n] ∧ n + 1 = start + byteLength piece := by
  obtain ⟨ms, m, hmarks, hstop⟩ := h.exists_marks_concat hne start
  obtain ⟨ns, n, hns, hn⟩ := m.exists_bytes_concat
  refine ⟨ms.flatMap Mark.bytes ++ ns, n, ?_, hn.trans hstop⟩
  rw [bytePlaces, hmarks, List.flatMap_append, List.flatMap_singleton, hns, List.append_assoc]

theorem moved_byteTable (h : Trimmed piece) (hne : piece ≠ []) (before behind : List Char) :
    Span.moved ⟨byteLength (visible before), byteLength (visible before ++ visible piece)⟩
      (byteTable (before ++ piece ++ behind)) =
      ⟨byteLength before, byteLength (before ++ piece)⟩ := by
  let outer := bytePlaces 0 before
  let inner := bytePlaces (byteLength before) piece
  let tail := bytePlaces (byteLength (before ++ piece)) behind ++
    [byteLength (before ++ piece ++ behind)]
  have htable : byteTable (before ++ piece ++ behind) = outer ++ inner ++ tail := by
    rw [byteTable, bytePlaces_append, bytePlaces_append, Nat.zero_add, Nat.zero_add,
      List.append_assoc]
  have houter : outer.length = byteLength (visible before) := length_bytePlaces 0 before
  have hinner : inner.length = byteLength (visible piece) := length_bytePlaces _ piece
  obtain ⟨ns, hfirst⟩ : ∃ ns, inner = byteLength before :: ns := h.exists_bytePlaces_cons hne _
  obtain ⟨ns', n, hlast, hn⟩ := h.exists_bytePlaces_concat hne (byteLength before)
  have hsize : inner.length = ns'.length + 1 := by
    rw [show inner = _ from hlast, List.length_append, List.length_singleton]
  have hstart : (outer ++ inner ++ tail).getD (byteLength (visible before)) 0 =
      byteLength before := by
    rw [hfirst, List.append_assoc, List.cons_append]
    exact getD_append_cons houter _ _
  have hstop : (outer ++ inner ++ tail).getD
      (byteLength (visible before ++ visible piece) - 1) 0 + 1 = byteLength (before ++ piece) := by
    rw [show inner = _ from hlast, ← List.append_assoc outer, List.append_assoc _ [n] tail,
      List.singleton_append, getD_append_cons, hn, byteLength_append]
    rw [List.length_append, byteLength_append]
    omega
  have hmin : min (byteLength (visible before)) ((outer ++ inner ++ tail).length - 1) =
      byteLength (visible before) := by
    rw [List.length_append, List.length_append]
    omega
  have hlt : byteLength (visible before) < byteLength (visible before ++ visible piece) := by
    rw [byteLength_append]
    omega
  simp only [Span.moved, htable, hmin, if_pos hlt, hstart, hstop]

end Trimmed

/-- Counting characters gives the same places as a table of the bytes. -/
theorem moved_eq_locate {text u w v : List Char} (h : visible text = u ++ w ++ v)
    (hend : w = [] → v = []) :
    Span.moved ⟨byteLength u, byteLength (u ++ w)⟩ (byteTable text) =
      locate text u.length w.length := by
  by_cases hw : w = []
  · rw [hw, hend hw, List.append_nil, List.append_nil] at h
    have hlength := length_bytePlaces 0 text
    rw [h] at hlength
    rw [hw, List.append_nil, List.length_nil, locate_nil, Span.moved, byteTable]
    simp [hlength]
  · obtain ⟨before, piece, behind, rfl, rfl, rfl, htrimmed⟩ := exists_trimmed h
    have hne : piece ≠ [] := by
      rintro rfl
      exact hw rfl
    rw [htrimmed.moved_byteTable hne, htrimmed.locate_eq hne]

end DiceOdds.Grammar
