import DiceOdds.Proofs.Reading

namespace DiceOdds.Grammar

def front : List Lexeme → List Char
  | [] => []
  | t :: _ => t.chars

inductive Stops : List Lexeme → List Lexeme → Cause → Prop
  | empty : Stops [] [] .empty
  | lexeme {before behind : List Lexeme} {t : Lexeme} {s : State} {cause : Cause}
      (hbefore : before.foldlM State.step .start = .ok s) (h : s.step t = .error cause) :
      Stops before (t :: behind) cause
  | finish {before : List Lexeme} {s : State} {cause : Cause} (hne : before ≠ [])
      (hbefore : before.foldlM State.step .start = .ok s) (h : s.finish = .error cause) :
      Stops before [] cause

def charCount (ts : List Lexeme) : Nat := (ts.flatMap Lexeme.chars).length

theorem charCount_append_singleton (ts : List Lexeme) (t : Lexeme) :
    charCount (ts ++ [t]) = charCount ts + t.chars.length := by
  simp [charCount]

theorem foldlM_step_append_singleton {ts : List Lexeme} {s s' : State} {t : Lexeme}
    (hts : ts.foldlM State.step .start = .ok s) (h : s.step t = .ok s') :
    (ts ++ [t]).foldlM State.step .start = .ok s' := by
  rw [List.foldlM_append, hts]
  exact (bind_pure _).trans h

/-- A reading that fails stops at one of its lexemes, or at their end. -/
theorem stops_of_run {s : State} {ahead : List Lexeme} {r : Refusal} (read : List Lexeme)
    (hread : read.foldlM State.step .start = .ok s) (hne : read ++ ahead ≠ [])
    (h : run s (charCount read) ahead = .error r) :
    ∃ before behind, read ++ ahead = before ++ behind ∧ Stops before behind r.cause ∧
      r.offset = charCount before ∧ r.slice = front behind := by
  induction ahead generalizing s read with
  | nil =>
      rw [List.append_nil] at hne ⊢
      rw [run] at h
      cases hfinish : s.finish with
      | ok e =>
          rw [hfinish] at h
          cases h
      | error cause =>
          rw [hfinish] at h
          cases h
          exact ⟨read, [], (List.append_nil read).symm, .finish hne hread hfinish, rfl, rfl⟩
  | cons t ahead ih =>
      cases hstep : s.step t with
      | error cause =>
          rw [run_cons_of_error hstep] at h
          cases h
          exact ⟨read, t :: ahead, rfl, .lexeme hread hstep, rfl, rfl⟩
      | ok s' =>
          rw [run, hstep] at h
          rw [← List.singleton_append, ← List.append_assoc] at hne ⊢
          apply ih (read ++ [t]) (foldlM_step_append_singleton hread hstep) hne
          rw [charCount_append_singleton]
          exact h

theorem stops_of_read {ts : List Lexeme} {r : Refusal} (h : read ts = .error r) :
    ∃ before behind, ts = before ++ behind ∧ Stops before behind r.cause ∧
      r.offset = charCount before ∧ r.slice = front behind := by
  rw [read] at h
  split at h
  · next hts =>
    cases h
    exact ⟨[], [], hts, .empty, rfl, rfl⟩
  · next hts => exact stops_of_run [] rfl hts h

end DiceOdds.Grammar
