import DiceOdds.Distribution
import DiceOdds.Proofs.Bins
import DiceOdds.Proofs.Refusals
import DiceOdds.Proofs.Results
import DiceOdds.Proofs.ValidSettings

namespace DiceOdds

namespace Distribution

section Runs

variable {m : Type → Type} [Monad m] {α β : Type}

theorem run_bind (x : Computation m α) (f : α → Computation m β) (journal : Journal) :
    (x >>= f).run.run journal = x.run.run journal >>= fun r =>
      match r.1 with
      | .error failure => pure (.error failure, r.2)
      | .ok a => (f a).run.run r.2 := by
  rw [ExceptT.run_bind, StateT.run_bind]
  congr 1
  funext r
  obtain ⟨result, journal'⟩ := r
  cases result <;> rfl

theorem run_parse_error {text : String} {f : Grammar.Fault} (h : Grammar.parse text = .error f)
    (journal : Journal) :
    (parse text : Computation m Expr).run.run journal = pure (.error (.fault f), journal) := by
  rw [parse, h]
  rfl

variable [LawfulMonad m]

theorem run_write (r : Record) (journal : Journal) :
    (write r : Computation m Unit).run.run journal = pure (.ok (), journal ++ [r]) := by
  simp [write, Journaled.write]

theorem run_parse_ok {text : String} {e : Expr} (h : Grammar.parse text = .ok e)
    (journal : Journal) :
    (parse text : Computation m Expr).run.run journal =
      pure (.ok e, journal ++ [parsedRecord text e]) := by
  rw [parse, h]
  simp only [run_bind, run_write, pure_bind]
  rfl

/-- An enumeration has no effects but on the journal. -/
theorem run_ofEnumeration (x : Enumeration α) (journal : Journal) :
    (ofEnumeration x : Computation m α).run.run journal =
      pure ((x.run.run journal).1.mapError .overflow, (x.run.run journal).2) := by
  simp only [ofEnumeration, ExceptT.run_mk, StateT.run_map]
  exact map_pure _ _

theorem run_summarize (s : Settings) (xs : List Float) (journal : Journal) :
    (summarize s xs : Computation m Summary).run.run journal =
      let summary := Summary.ofOutcomes s.mode.weighting xs
      pure (.ok summary, if summary.isEmpty then journal else journal ++ [summary.record]) := by
  simp only [summarize, Summary.tell, run_bind]
  split <;> simp [Journaled.write]

end Runs

/-- How the computation for a text ends: a fault of the text, more outcomes than may be listed, or a
summary of all outcomes or of as many samples as are set. -/
structure Answers (s : Settings) (text : String) (result : Except Failure Summary) : Prop where
  fault_iff (f : Grammar.Fault) :
    result = .error (.fault f) ↔ Grammar.parse text = .error f
  overflow_iff :
    (∃ o, result = .error (.overflow o)) ↔ s.mode = .exact ∧ ∃ e, Grammar.parse text = .ok e ∧
      (2 ^ 64 ≤ e.dice.prod ∨ ∃ limit, s.cap = some limit ∧ limit < e.dice.prod)
  exact {summary : Summary} (h : result = .ok summary) (hmode : s.mode = .exact) :
    summary.weighting = .equal ∧ ∃ e, Grammar.parse text = .ok e ∧
      summary.total = e.dice.prod ∧ e.outcomeCount = some summary.total
  monteCarlo {summary : Summary} (h : result = .ok summary) (hmode : s.mode = .monteCarlo) :
    summary.weighting = .sampled ∧ summary.total = s.simulations
  total_pos {summary : Summary} (h : result = .ok summary) : 1 ≤ summary.total

namespace Answers

variable {s : Settings} {text : String}

theorem fault {f : Grammar.Fault} (h : Grammar.parse text = .error f) :
    Answers s text (.error (.fault f)) where
  fault_iff f' := by
    rw [h]
    constructor <;> rintro ⟨⟩ <;> rfl
  overflow_iff := by
    rw [h]
    constructor
    · rintro ⟨_, ⟨⟩⟩
    · rintro ⟨-, _, ⟨⟩, -⟩
  exact := nofun
  monteCarlo := nofun
  total_pos := nofun

theorem overflow {e : Expr} {o : Overflow} (h : Grammar.parse text = .ok e)
    (hmode : s.mode = .exact) (ho : s.cap.allow e.outcomeCount = .error o) :
    Answers s text (.error (.overflow o)) where
  fault_iff f := by
    rw [h]
    constructor <;> rintro ⟨⟩
  overflow_iff := by
    refine ⟨fun _ => ⟨hmode, e, h, ?_⟩, fun _ => ⟨o, rfl⟩⟩
    rw [← Cap.not_fits_iff]
    intro hfits
    rw [Expr.outcomeCount_eq, Cap.allow_countable hfits] at ho
    cases ho
  exact := nofun
  monteCarlo := nofun
  total_pos := nofun

theorem enumerated {e : Expr} {xs : List Float} (h : Grammar.parse text = .ok e)
    (hmode : s.mode = .exact) (hfits : s.cap.Fits e.dice.prod) (hlength : xs.length = e.dice.prod) :
    Answers s text (.ok (Summary.ofOutcomes s.mode.weighting xs)) where
  fault_iff f := by
    rw [h]
    constructor <;> rintro ⟨⟩
  overflow_iff := by
    rw [h]
    refine ⟨nofun, ?_⟩
    rintro ⟨-, _, ⟨⟩, hexceeds⟩
    exact absurd hfits (Cap.not_fits_iff.2 hexceeds)
  exact hsummary _ := by
    cases hsummary
    rw [Summary.weighting_ofOutcomes, Summary.total_ofOutcomes, hmode, hlength]
    exact ⟨rfl, e, h, rfl, hfits.outcomeCount⟩
  monteCarlo _ hmode' := absurd (hmode.symm.trans hmode') nofun
  total_pos hsummary := by
    cases hsummary
    rw [Summary.total_ofOutcomes, hlength]
    exact e.prod_dice_pos

theorem sampled {e : Expr} {xs : List Float} (h : Grammar.parse text = .ok e)
    (hmode : s.mode = .monteCarlo) (hs : s.Valid) (hlength : xs.length = s.simulations) :
    Answers s text (.ok (Summary.ofOutcomes s.mode.weighting xs)) where
  fault_iff f := by
    rw [h]
    constructor <;> rintro ⟨⟩
  overflow_iff := by
    refine ⟨nofun, ?_⟩
    rintro ⟨hexact, -⟩
    exact absurd (hexact.symm.trans hmode) nofun
  exact _ hexact := absurd (hexact.symm.trans hmode) nofun
  monteCarlo hsummary _ := by
    cases hsummary
    rw [Summary.weighting_ofOutcomes, Summary.total_ofOutcomes, hmode]
    exact ⟨rfl, hlength⟩
  total_pos hsummary := by
    cases hsummary
    rw [Summary.total_ofOutcomes, hlength]
    exact Nat.le_trans (by decide) hs.minSimulations_le

theorem exists_summary {e : Expr} {result : Except Failure Summary}
    (hanswers : Answers s text result) (h : Grammar.parse text = .ok e)
    (hfits : s.cap.Fits e.dice.prod) : ∃ summary, result = .ok summary := by
  match result with
  | .ok summary => exact ⟨summary, rfl⟩
  | .error (.fault f) => exact absurd (h.symm.trans ((hanswers.fault_iff f).1 rfl)) nofun
  | .error (.overflow o) =>
      obtain ⟨-, e', he', hexceeds⟩ := hanswers.overflow_iff.1 ⟨o, rfl⟩
      obtain rfl := Except.ok.inj (h.symm.trans he')
      exact absurd hfits (Cap.not_fits_iff.2 hexceeds)

end Answers

section Ends

variable {s : Settings} {text : String} {e : Expr} {m : Type → Type} [Monad m] [LawfulMonad m]

theorem run_ofText (h : Grammar.parse text = .ok e) (roller : Roller m Float) (journal : Journal) :
    (ofText roller s text).run.run journal =
      (outcomes roller s e >>= summarize s).run.run (journal ++ [parsedRecord text e]) := by
  rw [ofText, run_bind, run_parse_ok h, pure_bind]

theorem run_ofText_fault {f : Grammar.Fault} (h : Grammar.parse text = .error f)
    (roller : Roller m Float) (journal : Journal) :
    (ofText roller s text).run.run journal = pure (.error (.fault f), journal) := by
  rw [ofText, run_bind, run_parse_error h, pure_bind]

theorem run_outcomes_exact (hmode : s.mode = .exact) (roller : Roller m Float)
    (journal : Journal) :
    (outcomes roller s e).run.run journal =
      (ofEnumeration (Enumeration.outcomes s.cap e)).run.run
        (journal ++ [evaluationRecord s e]) := by
  rw [outcomes, hmode]
  simp only [run_bind, run_write, pure_bind]

theorem run_ofText_listed (h : Grammar.parse text = .ok e) (hmode : s.mode = .exact)
    (roller : Roller m Float) {journal journal' : Journal} {xs : List Float}
    (hrun : (Enumeration.outcomes s.cap e).run.run
      (journal ++ [parsedRecord text e] ++ [evaluationRecord s e]) = (.ok xs, journal')) :
    (ofText roller s text).run.run journal = (summarize s xs).run.run journal' := by
  rw [run_ofText h, run_bind, run_outcomes_exact hmode, run_ofEnumeration, pure_bind, hrun]
  rfl

theorem run_ofText_refused (h : Grammar.parse text = .ok e) (hmode : s.mode = .exact)
    (roller : Roller m Float) {journal : Journal} {o : Overflow}
    (ho : s.cap.allow e.outcomeCount = .error o) :
    (ofText roller s text).run.run journal =
      pure (.error (.overflow o),
        journal ++ [parsedRecord text e] ++ [evaluationRecord s e]) := by
  rw [run_ofText h, run_bind, run_outcomes_exact hmode, run_ofEnumeration, pure_bind,
    Enumeration.run_outcomes_eq_error ho]
  rfl

/-- Sampling ends with the samples, however many outcomes there are. -/
theorem run_outcomes_monteCarlo (hmode : s.mode = .monteCarlo) (roller : Roller m Float)
    (journal : Journal) :
    (outcomes roller s e).run.run journal =
      Sampling.draws roller e s.simulations >>= fun xs =>
        pure (.ok xs, journal ++ [evaluationRecord s e] ++
          [Sampling.startRecord e s.simulations]) := by
  rw [outcomes, hmode]
  simp only [run_bind, run_write, pure_bind, ExceptT.run_lift, StateT.run_map,
    Sampling.run_samples]
  rw [← comp_map, map_eq_pure_bind]
  rfl

end Ends

/-- The result is there whatever the roller is and can do, and nothing of that is done. -/
def Unrolled (s : Settings) (text : String) (journal : Journal)
    (result : Except Failure Summary) : Prop :=
  ∃ journal', ∀ (m : Type → Type) [Monad m] [LawfulMonad m] (roller : Roller m Float),
    (ofText roller s text).run.run journal = pure (result, journal')

theorem unrolled_of_fault {text : String} {f : Grammar.Fault} (h : Grammar.parse text = .error f)
    (s : Settings) (journal : Journal) : Unrolled s text journal (.error (.fault f)) :=
  ⟨journal, fun _ _ _ roller => run_ofText_fault h roller journal⟩

/-- In exact mode nothing is rolled, whether the outcomes are listed or refused. -/
theorem exists_unrolled_of_exact {s : Settings} {text : String} {e : Expr}
    (h : Grammar.parse text = .ok e) (hmode : s.mode = .exact) (journal : Journal) :
    ∃ result, Answers s text result ∧ Unrolled s text journal result := by
  by_cases hfits : s.cap.Fits e.dice.prod
  · have hlisted := Enumeration.outcomes_of_fits (α := Float) hfits
    exact ⟨_, .enumerated h hmode hfits e.length_table, _, fun m _ _ roller =>
      (run_ofText_listed h hmode roller (Prod.ext (hlisted _) rfl)).trans (run_summarize s _ _)⟩
  · obtain ⟨o, ho⟩ := Cap.allow_of_not_fits hfits
    exact ⟨_, .overflow h hmode ho, _, fun m _ _ roller => run_ofText_refused h hmode roller ho⟩

theorem ensures_of_monteCarlo {s : Settings} {text : String} {e : Expr}
    (h : Grammar.parse text = .ok e) (hmode : s.mode = .monteCarlo) (hs : s.Valid)
    (journal : Journal) {m : Type → Type} [Monad m] [LawfulMonad m] (roller : Roller m Float) :
    Ensures ((ofText roller s text).run.run journal) fun r =>
      Answers s text r.1 ∧ ∃ summary, r.1 = .ok summary := by
  rw [run_ofText h, run_bind, run_outcomes_monteCarlo hmode, bind_assoc]
  refine (Sampling.ensures_length_draws roller e s.simulations).bind fun xs hlength => ?_
  rw [pure_bind]
  dsimp only
  rw [run_summarize]
  exact .of_pure ⟨.sampled h hmode hs hlength, _, rfl⟩

theorem Unrolled.ensures {s : Settings} {text : String} {journal : Journal}
    {result : Except Failure Summary} (h : Unrolled s text journal result)
    (hanswers : Answers s text result) {m : Type → Type} [Monad m] [LawfulMonad m]
    (roller : Roller m Float) :
    Ensures ((ofText roller s text).run.run journal) fun r => Answers s text r.1 := by
  obtain ⟨journal', hrun⟩ := h
  rw [hrun m roller]
  exact .of_pure hanswers

/-- How the way from a text to its summary ends is decided by the text, the number of outcomes and
the settings. Unless samples are drawn, which never fails, the roller has no part in it. -/
theorem ofText_answers {s : Settings} (hs : s.Reachable) (text : String) (journal : Journal) :
    (∀ (m : Type → Type) [Monad m] [LawfulMonad m] (roller : Roller m Float),
      Ensures ((ofText roller s text).run.run journal) fun r => Answers s text r.1) ∧
    ((∃ result, Unrolled s text journal result) ∨
      s.mode = .monteCarlo ∧
        ∀ (m : Type → Type) [Monad m] [LawfulMonad m] (roller : Roller m Float),
          Ensures ((ofText roller s text).run.run journal) fun r =>
            ∃ summary, r.1 = .ok summary) := by
  cases h : Grammar.parse text with
  | error f =>
      have hfault := unrolled_of_fault h s journal
      exact ⟨fun m _ _ roller => hfault.ensures (.fault h) roller, .inl ⟨_, hfault⟩⟩
  | ok e =>
      cases hmode : s.mode with
      | exact =>
          obtain ⟨result, hanswers, hunrolled⟩ := exists_unrolled_of_exact h hmode journal
          exact ⟨fun m _ _ roller => hunrolled.ensures hanswers roller, .inl ⟨_, hunrolled⟩⟩
      | monteCarlo =>
          have hends (m : Type → Type) [Monad m] [LawfulMonad m] (roller : Roller m Float) :=
            ensures_of_monteCarlo h hmode hs.valid journal roller
          exact ⟨fun m _ _ roller => (hends m roller).mono fun _ => And.left,
            .inr ⟨rfl, fun m _ _ roller => (hends m roller).mono fun _ => And.right⟩⟩

/-- A roller that counts its calls is not called for the outcomes of two dice. -/
theorem ofText_answers_two_dice :
    let roller : Roller (StateM ℕ) Float := fun _ calls => (1, calls + 1)
    Settings.Reachable .initial ∧
    ∃ summary journal, (ofText roller .initial "2d6").run.run [] 0 = ((.ok summary, journal), 0) ∧
      summary.total = 36 ∧ summary.weighting = .equal := by
  intro roller
  refine ⟨.initial, ?_⟩
  let e : Expr := .roll ⟨⟨2, by decide, by decide⟩, ⟨6, by decide, by decide⟩⟩
  have hparse : Grammar.parse "2d6" = .ok e := by decide +kernel
  obtain ⟨hends, hrolls⟩ := ofText_answers .initial "2d6" []
  have hanswers := (hends (StateM ℕ) roller).run 0
  obtain ⟨result, journal', hrun⟩ := hrolls.resolve_right fun h => by cases h.1
  have hrun := congrFun (hrun (StateM ℕ) roller) 0
  rw [StateT.run, hrun] at hanswers
  obtain ⟨summary, rfl⟩ := hanswers.exists_summary hparse ⟨by decide, by rintro _ ⟨⟩; decide⟩
  obtain ⟨hweighting, e', he', htotal, -⟩ := hanswers.exact rfl rfl
  obtain rfl := Except.ok.inj (hparse.symm.trans he')
  exact ⟨summary, journal', hrun, htotal.trans (by decide), hweighting⟩

end Distribution

end DiceOdds
