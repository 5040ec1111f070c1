import DiceOdds.Proofs.Turns

namespace DiceOdds.Session

def turns : Settings → List String → List Turn
  | _, [] => []
  | s, line :: rest => ⟨s, line⟩ :: turns (Turn.next ⟨s, line⟩) rest

namespace Transcript

def extend (t : Transcript) (rs : List Reply) : Transcript :=
  { t with
    out := t.out ++ String.join (rs.map fun r => r.out ++ prompt)
    err := t.err ++ String.join (rs.map Reply.err) }

theorem extend_nil (t : Transcript) : t.extend [] = t := by
  simp [extend]

theorem extend_cons (t : Transcript) (r : Reply) (rs : List Reply) :
    t.extend (r :: rs) =
      { t with out := t.out ++ r.out ++ prompt, err := t.err ++ r.err : Transcript }.extend rs := by
  simp [extend, String.append_assoc]

def ofReplies (rs : List Reply) : Transcript where
  out := prompt ++ String.join (rs.map fun r => r.out ++ prompt)
  err := String.join (rs.map Reply.err)
  code := 0

theorem extend_prompt (rs : List Reply) : extend ⟨prompt, "", 0⟩ rs = ofReplies rs := by
  simp [extend, ofReplies]

end Transcript

section Runs

variable {m : Type → Type} [Monad m] [LawfulMonad m]

/-- Whatever a roller does, the settings behind a line are the same. -/
theorem respond_eq_map (roller : Roller m Float) (s : Settings) (line : String) :
    respond roller s line =
      (fun reply => (Turn.next ⟨s, line⟩, reply)) <$> Prod.snd <$> respond roller s line := by
  obtain ⟨y, hy⟩ := Turn.ensures_answered ⟨s, line⟩ roller
  rw [← hy, ← comp_map, ← comp_map]
  congr 1
  funext r
  exact Prod.ext r.2.settings_eq rfl

theorem proceed_eq (roller : Roller m Float) (s : Settings) (t : Transcript)
    (lines : List String) :
    proceed roller s t lines =
      t.extend <$> (turns s lines).mapM fun t => Prod.snd <$> respond roller t.settings t.line := by
  induction lines generalizing s t with
  | nil => rw [proceed, turns, List.mapM_nil, map_pure, t.extend_nil]
  | cons line rest ih =>
      rw [proceed, respond_eq_map, bind_map_left, turns, List.mapM_cons, map_bind]
      congr 1
      funext reply
      dsimp only
      rw [ih, map_bind, map_eq_pure_bind]
      simp only [map_pure, Transcript.extend_cons]

theorem run_eq {value : Variable → Option String} {s : Settings}
    (h : Settings.ofVariables value = .ok s) (roller : Roller m Float) (input : String) :
    run roller value input =
      Transcript.ofReplies <$> (turns s (Text.lines input)).mapM fun t =>
        Prod.snd <$> respond roller t.settings t.line := by
  rw [run, h]
  dsimp only
  rw [proceed_eq]
  exact congrArg (· <$> _) (funext Transcript.extend_prompt)

end Runs

end DiceOdds.Session
