import DiceOdds.Proofs.Pipeline

namespace DiceOdds

def Roll.folds (r : Roll) : Journal :=
  (List.range' 2 (r.count.val - 1)).map fun k => Enumeration.foldedRecord r.sides (r.sides.val ^ k)

theorem Roll.level_of_mem_folds {r : Roll} {record : Record} (h : record ∈ r.folds) :
    record.level = .trace := by
  obtain ⟨k, -, rfl⟩ := List.mem_map.1 h
  rfl

namespace Enumeration

def Tells {β : Type} (x : Enumeration β) (records : Journal) : Prop :=
  ∀ journal b journal', x.run.run journal = (.ok b, journal') → journal' = journal ++ records

section Sequencing

variable {β γ : Type}

theorem tells_pure (b : β) : Tells (pure b) [] := by
  rintro journal _ _ ⟨⟩
  exact (List.append_nil _).symm

theorem tells_write (r : Record) : Tells (write r) [r] := by
  rintro journal _ _ ⟨⟩
  rfl

theorem tells_check (cap : Cap) (count : Option ℕ) : Tells (check cap count) [] := by
  intro journal n journal' h
  obtain ⟨-, rfl⟩ := Prod.mk.inj h
  exact (List.append_nil _).symm

/-- The second part is only to be known at a value that the first can give. -/
theorem Tells.bind {x : Enumeration β} {f : β → Enumeration γ} {rs ss : Journal}
    (hx : Tells x rs) (hf : ∀ b, Gives x b → Tells (f b) ss) : Tells (x >>= f) (rs ++ ss) := by
  intro journal c journal'' h
  rw [ExceptT.run_bind, StateT.run_bind] at h
  cases hrun : x.run.run journal with
  | mk result journal' =>
      rw [hrun] at h
      cases result with
      | error o => cases h
      | ok b =>
          rw [← List.append_assoc, ← hx journal b journal' hrun]
          exact hf b ⟨journal, by rw [hrun]⟩ journal' c journal'' h

theorem Tells.run_eq {x : Enumeration β} {b : β} {rs journal : Journal} (h : Tells x rs)
    (hresult : (x.run.run journal).1 = .ok b) : x.run.run journal = (.ok b, journal ++ rs) := by
  have hrun : x.run.run journal = (.ok b, (x.run.run journal).2) := Prod.ext hresult rfl
  rw [hrun, h journal b _ hrun]

end Sequencing

theorem Gives.of_check {cap : Cap} {count : Option ℕ} {n : ℕ} (h : Gives (check cap count) n) :
    count = some n := by
  obtain ⟨_, h⟩ := h
  cases count with
  | none => cases h
  | some k =>
      have hallow : cap.allow (some k) = .ok n := h
      cases cap with
      | none => exact congrArg some (Except.ok.inj hallow)
      | some limit =>
          rw [Cap.allow] at hallow
          split_ifs at hallow
          exact congrArg some (Except.ok.inj hallow)

variable {α : Type} [Scalar α]

theorem tells_combine (cap : Cap) (op : Operator) (xs ys : List α) :
    Tells (combine cap op xs ys) [] :=
  (tells_check cap _).bind fun _ _ => tells_pure _

/-- Every die multiplies the number of outcomes by its sides. -/
theorem tells_addDice (cap : Cap) (sides : Quantity) (n : ℕ) (xs : List α) :
    Tells (addDice cap sides n xs)
      ((List.range n).map fun i => foldedRecord sides (xs.length * sides.val ^ (i + 1))) := by
  induction n generalizing xs with
  | zero => exact tells_pure xs
  | succ n ih =>
      rw [List.range_succ_eq_map, List.map_cons, List.map_map, zero_add, pow_one]
      refine (tells_combine cap .add xs (faces sides)).bind fun ys hys => ?_
      have hlength : ys.length = xs.length * sides.val := by
        rw [hys.of_combine, length_pairs, length_faces]
      have hrest := ih ys
      simp only [hlength, mul_assoc, ← pow_succ'] at hrest
      rw [hlength]
      exact (tells_write _).bind fun _ _ => hrest

theorem tells_roll (cap : Cap) (r : Roll) :
    Tells (roll cap r : Enumeration (List α)) ((Expr.roll r).rolls.flatMap Roll.folds) := by
  cases hr : r.isConstant with
  | true =>
      rw [roll, hr, if_pos rfl, Expr.rolls_constant hr]
      exact tells_pure _
  | false =>
      have hdice := tells_addDice cap r.sides (r.count.val - 1) (faces r.sides : List α)
      simp only [length_faces, ← pow_succ'] at hdice
      rw [roll, hr, if_neg Bool.false_ne_true, Expr.rolls_roll hr, List.flatMap_singleton,
        Roll.folds, List.range'_eq_map_range, List.map_map]
      simpa only [Function.comp_def, Nat.add_comm 2] using hdice

/-- Left before right, and to combine the two is told of nowhere. -/
theorem tells_walk (cap : Cap) (e : Expr) :
    Tells (walk cap e : Enumeration (List α)) (e.rolls.flatMap Roll.folds) := by
  induction e with
  | roll r => exact tells_roll cap r
  | binary l op r ihl ihr =>
      rw [Expr.rolls_binary, List.flatMap_append, ← List.append_nil (r.rolls.flatMap Roll.folds)]
      exact ihl.bind fun xs _ => ihr.bind fun ys _ => tells_combine cap op xs ys

theorem tells_outcomes (cap : Cap) {e : Expr} {n : ℕ} (h : e.outcomeCount = some n) :
    Tells (outcomes cap e : Enumeration (List α))
      (startRecord e n :: e.rolls.flatMap Roll.folds) := by
  refine (tells_check cap _).bind fun k hk => ?_
  obtain rfl : k = n := Option.some.inj (hk.of_check.symm.trans h)
  exact (tells_write _).bind fun _ _ => tells_walk cap e

end Enumeration

def Summary.told (s : Summary) : Journal := if s.isEmpty then [] else [s.record]

theorem Summary.level_of_mem_told {s : Summary} {r : Record} (h : r ∈ s.told) :
    r.level = .debug := by
  rw [told] at h
  split_ifs at h
  · cases h
  · rw [List.mem_singleton.1 h]
    rfl

namespace Distribution

theorem run_summarize_told {m : Type → Type} [Monad m] [LawfulMonad m] (s : Settings)
    (xs : List Float) (journal : Journal) :
    (summarize s xs : Computation m Summary).run.run journal =
      pure (.ok (Summary.ofOutcomes s.mode.weighting xs),
        journal ++ (Summary.ofOutcomes s.mode.weighting xs).told) := by
  rw [run_summarize, Summary.told]
  split_ifs with h <;> simp [h]

/-- What a run without sampling tells: after a summary the dice that were folded are all its trace,
after a failure there is neither a trace nor any other sign of outcomes. -/
structure TellsFolds (text : String) (result : Except Failure Summary) (records : Journal) :
    Prop where
  folded {summary : Summary} (h : result = .ok summary) : ∃ e, Grammar.parse text = .ok e ∧
    (records.filter fun r => r.level = .trace) = e.rolls.flatMap Roll.folds
  idle {failure : Failure} (h : result = .error failure) : ∀ r ∈ records, r.level ≠ .trace ∧
    (∀ e n, r ≠ Enumeration.startRecord e n) ∧ ∀ summary : Summary, r ≠ summary.record

namespace TellsFolds

theorem fault (text : String) (f : Grammar.Fault) : TellsFolds text (.error (.fault f)) [] where
  folded := nofun
  idle _ := nofun

theorem overflow (s : Settings) (text : String) (e : Expr) (o : Overflow) :
    TellsFolds text (.error (.overflow o)) [parsedRecord text e, evaluationRecord s e] where
  folded := nofun
  idle _ r hr := by
    rw [List.mem_pair] at hr
    rcases hr with rfl | rfl <;>
      exact ⟨nofun, fun _ _ h => absurd (congrArg Record.activity h) nofun,
        fun _ h => absurd (congrArg Record.activity h) nofun⟩

theorem enumerated {text : String} {e : Expr} (h : Grammar.parse text = .ok e) (s : Settings)
    (n : ℕ) (summary : Summary) :
    TellsFolds text (.ok summary)
      ([parsedRecord text e, evaluationRecord s e] ++
        (Enumeration.startRecord e n :: e.rolls.flatMap Roll.folds) ++ summary.told) where
  folded _ := by
    refine ⟨e, h, ?_⟩
    have hfolds : (e.rolls.flatMap Roll.folds).filter (fun r => r.level = .trace) =
        e.rolls.flatMap Roll.folds := by
      rw [List.filter_eq_self]
      intro record hrecord
      obtain ⟨r, -, hr⟩ := List.mem_flatMap.1 hrecord
      exact decide_eq_true (Roll.level_of_mem_folds hr)
    have htold : summary.told.filter (fun r => r.level = .trace) = [] := by
      rw [List.filter_eq_nil_iff]
      intro record hrecord
      simp [Summary.level_of_mem_told hrecord]
    rw [List.filter_append, htold, List.append_nil]
    exact hfolds
  idle := nofun

end TellsFolds

theorem exists_tellsFolds_of_exact {s : Settings} (hmode : s.mode = .exact) (text : String)
    (journal : Journal) :
    ∃ result records, (∀ (m : Type → Type) [Monad m] [LawfulMonad m] (roller : Roller m Float),
      (ofText roller s text).run.run journal = pure (result, journal ++ records)) ∧
      TellsFolds text result records := by
  cases h : Grammar.parse text with
  | error f =>
      refine ⟨_, _, fun m _ _ roller => ?_, .fault text f⟩
      rw [run_ofText_fault h, List.append_nil]
  | ok e =>
      by_cases hfits : s.cap.Fits e.dice.prod
      · have hrun (journal : Journal) :=
          (Enumeration.tells_outcomes s.cap hfits.outcomeCount).run_eq
            (Enumeration.outcomes_of_fits (α := Float) hfits journal)
        refine ⟨_, _, fun m _ _ roller => ?_,
          .enumerated h s e.dice.prod (Summary.ofOutcomes s.mode.weighting e.table)⟩
        rw [run_ofText_listed h hmode roller (hrun _), run_summarize_told]
        simp only [List.append_assoc, List.cons_append, List.nil_append]
      · obtain ⟨o, ho⟩ := Cap.allow_of_not_fits hfits
        refine ⟨_, _, fun m _ _ roller => ?_, .overflow s text e o⟩
        rw [run_ofText_refused h hmode roller ho, List.append_assoc]
        rfl

/-- Samples are drawn without a trace. -/
theorem ensures_traceless_of_monteCarlo {s : Settings} (hmode : s.mode = .monteCarlo)
    (text : String) (journal : Journal) {m : Type → Type} [Monad m] [LawfulMonad m]
    (roller : Roller m Float) :
    Ensures ((ofText roller s text).run.run journal) fun r =>
      ∃ records, r.2 = journal ++ records ∧ ∀ record ∈ records, record.level ≠ .trace := by
  cases h : Grammar.parse text with
  | error f =>
      rw [run_ofText_fault h]
      exact .of_pure ⟨[], (List.append_nil _).symm, List.forall_mem_nil _⟩
  | ok e =>
      rw [run_ofText h, run_bind, run_outcomes_monteCarlo hmode, bind_assoc]
      refine (Ensures.trivially _).bind fun xs _ => ?_
      rw [pure_bind]
      dsimp only
      rw [run_summarize_told]
      let summary := Summary.ofOutcomes s.mode.weighting xs
      refine .of_pure ⟨[parsedRecord text e, evaluationRecord s e,
        Sampling.startRecord e s.simulations] ++ summary.told, ?_, fun record hrecord => ?_⟩
      · simp only [List.append_assoc, List.cons_append, List.nil_append, summary]
      · have hlevel : record.level = .debug := by
          rcases List.mem_append.1 hrecord with hstart | htold
          · simp only [List.mem_cons, List.not_mem_nil, or_false] at hstart
            rcases hstart with rfl | rfl | rfl <;> rfl
          · exact Summary.level_of_mem_told htold
        rw [hlevel]
        decide

/-- A run leaves a trace of just the dice that it folds, roll by roll and in the order in which
they are added: none for a text without a summary, and none for a summary of samples. -/
theorem ofText_traces_folds (s : Settings) (text : String) (journal : Journal) :
    (s.mode = .exact → ∃ result records,
      (∀ (m : Type → Type) [Monad m] [LawfulMonad m] (roller : Roller m Float),
        (ofText roller s text).run.run journal = pure (result, journal ++ records)) ∧
      TellsFolds text result records) ∧
    (s.mode = .monteCarlo →
      ∀ (m : Type → Type) [Monad m] [LawfulMonad m] (roller : Roller m Float),
        Ensures ((ofText roller s text).run.run journal) fun r =>
          ∃ records, r.2 = journal ++ records ∧ ∀ record ∈ records, record.level ≠ .trace) :=
  ⟨fun hmode => exists_tellsFolds_of_exact hmode text journal,
    fun hmode _ _ _ roller => ensures_traceless_of_monteCarlo hmode text journal roller⟩

/-- Of three two-sided dice the second and the third are folded in. -/
theorem ofText_traces_three_dice :
    ∃ summary records, (∀ (m : Type → Type) [Monad m] [LawfulMonad m] (roller : Roller m Float),
      (ofText roller .initial "3d2").run.run [] = pure (.ok summary, records)) ∧
      (records.filter fun r => r.level = .trace) =
        [.trace .enumeration "folded a d2 into 4 outcomes",
          .trace .enumeration "folded a d2 into 8 outcomes"] := by
  let e : Expr := .roll ⟨⟨3, by decide, by decide⟩, ⟨2, by decide, by decide⟩⟩
  have hparse : Grammar.parse "3d2" = .ok e := by decide +kernel
  have hmode : Settings.initial.mode = .exact := rfl
  obtain ⟨result, records, hrun, htells⟩ := (ofText_traces_folds .initial "3d2" []).1 hmode
  obtain ⟨result', hanswers, journal', hrun'⟩ := exists_unrolled_of_exact hparse hmode []
  let roller : Roller Id Float := fun _ => 1
  obtain ⟨rfl, rfl⟩ := Prod.mk.inj ((hrun Id roller).symm.trans (hrun' Id roller))
  obtain ⟨summary, rfl⟩ := hanswers.exists_summary hparse ⟨by decide, by rintro _ ⟨⟩; decide⟩
  obtain ⟨e', he', hfolds⟩ := htells.folded rfl
  obtain rfl := Except.ok.inj (hparse.symm.trans he')
  refine ⟨summary, records, hrun, hfolds.trans ?_⟩
  decide +kernel

end Distribution

end DiceOdds
