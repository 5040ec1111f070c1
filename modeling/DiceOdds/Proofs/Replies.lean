import DiceOdds.Proofs.Pipeline
import DiceOdds.Session.Run

namespace DiceOdds.Session

namespace Command

inductive Sets (s : Settings) : Command → Settings → Prop
  | mode {argument : String} {mode : Mode} (h : Mode.ofText? argument = some mode) :
      Sets s (.mode argument) { s with mode := mode }
  | simulations {argument : String} {n : ℕ} (h : Text.Numeral.parseGrouped argument = .ok n)
      (hrange : 100 ≤ n ∧ n ≤ 1000000) :
      Sets s (.simulations argument) { s with simulations := n }
  | noCap {argument : String} (h : Settings.liftsCap argument = true) :
      Sets s (.cap argument) { s with cap := none }
  | cap {argument : String} {n : ℕ} (hname : Settings.liftsCap argument = false)
      (h : Text.Numeral.parseGrouped argument = .ok n) (hpos : n ≠ 0) :
      Sets s (.cap argument) { s with cap := some n }

inductive Refused : Command → Error → Prop
  | mode {argument : String} (h : Mode.ofText? argument = none) :
      Refused (.mode argument) (.settings (.unknownMode argument))
  | simulations {argument : String} {f : Text.Numeral.Fault}
      (h : Text.Numeral.parseGrouped argument = .error f) :
      Refused (.simulations argument) (.numeral f)
  | simulationCount {argument : String} {n : ℕ} (h : Text.Numeral.parseGrouped argument = .ok n)
      (hrange : ¬ (100 ≤ n ∧ n ≤ 1000000)) :
      Refused (.simulations argument) (.settings (.simulationCount n))
  | cap {argument : String} {f : Text.Numeral.Fault} (hname : Settings.liftsCap argument = false)
      (h : Text.Numeral.parseGrouped argument = .error f) : Refused (.cap argument) (.numeral f)
  | zeroCap {argument : String} (hname : Settings.liftsCap argument = false)
      (h : Text.Numeral.parseGrouped argument = .ok 0) :
      Refused (.cap argument) (.settings .zeroCap)
  | unknown (name : String) : Refused (.unknown name) (.unknown name)

variable {s s' : Settings} {c : Command} {e : Error}

theorem number_ok {argument : String} {n : ℕ} (h : Text.Numeral.parseGrouped argument = .ok n) :
    number argument = .ok n := by
  rw [number, h]
  rfl

theorem number_error {argument : String} {f : Text.Numeral.Fault}
    (h : Text.Numeral.parseGrouped argument = .error f) :
    number argument = .error (.numeral f) := by
  rw [number, h]
  rfl

theorem capOf_number {argument : String} (h : Settings.liftsCap argument = false) :
    capOf argument = (number argument).map some := by
  rw [capOf, h, if_neg Bool.false_ne_true]

theorem Sets.perform_eq (h : Sets s c s') : c.perform s = .ok (s', []) := by
  cases h with
  | mode h =>
      rw [perform, Settings.parseMode, h]
      rfl
  | @simulations _ n h hrange =>
      have hset : s.withSimulations n = .ok { s with simulations := n } := if_pos hrange
      rw [perform, number_ok h, Except.bind, hset]
      rfl
  | noCap h =>
      rw [perform, capOf, h, if_pos rfl]
      rfl
  | @cap _ n hname h hpos =>
      have hset : s.withCap (some n) = .ok { s with cap := some n } :=
        if_neg fun hzero => hpos (Option.some.inj hzero)
      rw [perform, capOf_number hname, number_ok h, Except.map, Except.bind, hset]
      rfl

theorem Refused.perform_eq (h : Refused c e) (s : Settings) : c.perform s = .error e := by
  cases h with
  | mode h =>
      rw [perform, Settings.parseMode, h]
      rfl
  | simulations h =>
      rw [perform, number_error h]
      rfl
  | @simulationCount _ n h hrange =>
      have hset : s.withSimulations n = .error (.simulationCount n) := if_neg hrange
      rw [perform, number_ok h, Except.bind, hset]
      rfl
  | cap hname h =>
      rw [perform, capOf_number hname, number_error h]
      rfl
  | zeroCap hname h =>
      rw [perform, capOf_number hname, number_ok h]
      rfl
  | unknown name => rfl

/-- A command that neither sets anything nor is refused only prints. -/
theorem cases_perform (s : Settings) (c : Command) :
    (∃ s', c.Sets s s') ∨ (∃ e, c.Refused e) ∨ ∃ lines, c.perform s = .ok (s, lines) := by
  cases c with
  | mode argument =>
      cases h : Mode.ofText? argument with
      | some mode => exact .inl ⟨_, .mode h⟩
      | none => exact .inr (.inl ⟨_, .mode h⟩)
  | simulations argument =>
      cases h : Text.Numeral.parseGrouped argument with
      | error f => exact .inr (.inl ⟨_, .simulations h⟩)
      | ok n =>
          by_cases hrange : 100 ≤ n ∧ n ≤ 1000000
          · exact .inl ⟨_, .simulations h hrange⟩
          · exact .inr (.inl ⟨_, .simulationCount h hrange⟩)
  | cap argument =>
      cases hname : Settings.liftsCap argument with
      | true => exact .inl ⟨_, .noCap hname⟩
      | false =>
          cases h : Text.Numeral.parseGrouped argument with
          | error f => exact .inr (.inl ⟨_, .cap hname h⟩)
          | ok n =>
              cases n with
              | zero => exact .inr (.inl ⟨_, .zeroCap hname h⟩)
              | succ n => exact .inl ⟨_, .cap hname h (Nat.succ_ne_zero n)⟩
  | showSettings | help => exact .inr (.inr ⟨_, rfl⟩)
  | unknown name => exact .inr (.inl ⟨_, .unknown name⟩)

theorem refused_of_perform (h : c.perform s = .error e) : c.Refused e := by
  obtain ⟨s', hs'⟩ | ⟨e', he'⟩ | ⟨lines, hlines⟩ := cases_perform s c
  · cases h.symm.trans hs'.perform_eq
  · cases h.symm.trans (he'.perform_eq s)
    exact he'
  · cases h.symm.trans hlines

theorem Sets.valid (h : Sets s c s') (hs : s.Valid) : s'.Valid := by
  cases h with
  | mode => exact hs.withMode _
  | simulations _ hrange => exact hs.withSimulations (if_pos hrange)
  | noCap => exact hs.withCap (if_neg nofun)
  | cap _ _ hpos => exact hs.withCap (if_neg fun hzero => hpos (Option.some.inj hzero))

end Command

def Reply.ofResult (s : Settings) (e : Expr) : Except Failure (List Float) → Reply
  | .error f => .ofError f.message
  | .ok xs => .ofLines (report e (Summary.ofOutcomes s.mode.weighting xs))

section Evaluations

variable {s : Settings} {text : String} {e : Expr} {m : Type → Type} [Monad m] [LawfulMonad m]

theorem evaluate_of_parse_error {f : Grammar.Fault} (h : Grammar.parse text = .error f)
    (roller : Roller m Float) : evaluate roller s text = pure (.ofError f.message) := by
  rw [evaluate, compute, StateT.run'_eq, Distribution.run_bind, Distribution.run_parse_error h,
    pure_bind, map_pure, pure_bind]
  rfl

theorem evaluate_of_parse_ok (h : Grammar.parse text = .ok e) (roller : Roller m Float) :
    evaluate roller s text =
      (fun r => Reply.ofResult s e r.1) <$>
        (Distribution.outcomes roller s e).run.run [Distribution.parsedRecord text e] := by
  rw [evaluate, compute, StateT.run'_eq, Distribution.run_bind, Distribution.run_parse_ok h,
    pure_bind, map_eq_pure_bind, map_eq_pure_bind, bind_assoc]
  dsimp only
  rw [Distribution.run_bind, bind_assoc, List.nil_append]
  congr 1
  funext r
  obtain ⟨result, journal⟩ := r
  cases result with
  | error f =>
      simp only [pure_bind]
      rfl
  | ok xs =>
      simp only [Distribution.run_bind, Distribution.run_summarize, pure_bind]
      exact pure_bind _ _

theorem evaluate_of_exact (h : Grammar.parse text = .ok e) (hmode : s.mode = .exact)
    (roller : Roller m Float) :
    evaluate roller s text = pure (.ofResult s e
      (((Enumeration.outcomes s.cap e).run.run
        [Distribution.parsedRecord text e, Distribution.evaluationRecord s e]).1.mapError
          .overflow)) := by
  rw [evaluate_of_parse_ok h, Distribution.run_outcomes_exact hmode,
    Distribution.run_ofEnumeration, map_pure]
  rfl

theorem evaluate_of_overflow {o : Overflow} (h : Grammar.parse text = .ok e)
    (hmode : s.mode = .exact) (ho : s.cap.allow e.outcomeCount = .error o)
    (roller : Roller m Float) : evaluate roller s text = pure (.ofError o.message) := by
  rw [evaluate_of_exact h hmode, Enumeration.outcomes_eq_error ho]
  rfl

theorem evaluate_of_monteCarlo (h : Grammar.parse text = .ok e) (hmode : s.mode = .monteCarlo)
    (roller : Roller m Float) :
    evaluate roller s text =
      (fun xs => Reply.ofResult s e (.ok xs)) <$> Sampling.draws roller e s.simulations := by
  rw [evaluate_of_parse_ok h, Distribution.run_outcomes_monteCarlo hmode, map_bind,
    map_eq_pure_bind]
  congr 1
  funext xs
  rw [map_pure]

/-- An enumeration within the cap lists its outcomes without the roller. -/
theorem exists_evaluate_of_fits (h : Grammar.parse text = .ok e) (hmode : s.mode = .exact)
    (hfits : s.cap.Fits e.dice.prod) :
    ∃ lines, ∀ (m : Type → Type) [Monad m] [LawfulMonad m] (roller : Roller m Float),
      evaluate roller s text = pure (.ofLines lines) := by
  refine ⟨report e (Summary.ofOutcomes s.mode.weighting e.table), fun m _ _ roller => ?_⟩
  rw [evaluate_of_exact h hmode, Enumeration.outcomes_of_fits hfits]
  rfl

end Evaluations

end DiceOdds.Session
