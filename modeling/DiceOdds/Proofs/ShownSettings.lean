import DiceOdds.Proofs.SettingLines

namespace DiceOdds

namespace Text.Numeral

open Grammar

theorem le_ofDigitChars (cs : List Char) (n : Nat) : n ≤ Nat.ofDigitChars 10 cs n := by
  induction cs generalizing n with
  | nil => exact Nat.le_refl n
  | cons c cs ih =>
      rw [Nat.ofDigitChars_cons]
      exact Nat.le_trans (by omega) (ih _)

theorem extend_eq_ok {cs : List Char} {n : Nat} (hcs : ∀ c ∈ cs, c.isDigit = true)
    (h : Nat.ofDigitChars 10 cs n < 2 ^ 64) : extend n cs = .ok (Nat.ofDigitChars 10 cs n) := by
  induction cs generalizing n with
  | nil => rfl
  | cons c cs ih =>
      obtain ⟨hc, hcs⟩ := List.forall_mem_cons.1 hcs
      have hsplit : Nat.ofDigitChars 10 (c :: cs) n =
          Nat.ofDigitChars 10 cs (Nat.ofDigitChars 10 [c] n) := rfl
      rw [hsplit] at h ⊢
      -- More digits never make a value smaller: no value on the way is above the last one.
      have hlt : Nat.ofDigitChars 10 [c] n < 2 ^ 64 := Nat.lt_of_le_of_lt (le_ofDigitChars cs _) h
      rw [extend, if_pos hc]
      exact (if_pos hlt).trans (ih hcs h)

theorem parse_digits {cs : List Char} (h : Digits cs) : parse cs = extend 0 cs := by
  obtain ⟨c, cs, rfl, hc⟩ := h.exists_cons
  unfold parse
  split
  · next heq => cases heq
  · next heq =>
    cases heq
    cases hc
  · next heq =>
    cases heq
    cases hc
  · rfl

/-- The decimal digits of a number of 64 bits are read back to it. -/
theorem parseGrouped_toString {n : Nat} (h : n < 2 ^ 64) : parseGrouped (toString n) = .ok n := by
  have hdigits := digits_toString n
  have hvalue := ofDigitChars_toString n
  have hplain : (toString n).toList.filter (· != '_') = (toString n).toList := by
    apply List.filter_eq_self.2
    intro c hc
    rw [bne_iff_ne]
    rintro rfl
    cases hdigits.2 _ hc
  rw [parseGrouped, hplain, parse_digits hdigits, extend_eq_ok hdigits.2 (hvalue.symm ▸ h), hvalue]

theorem lt_of_extend {cs : List Char} {n k : Nat} (hn : n < 2 ^ 64) (h : extend n cs = .ok k) :
    k < 2 ^ 64 := by
  induction cs generalizing n with
  | nil =>
      cases h
      exact hn
  | cons c cs ih =>
      rw [extend] at h
      split at h
      · dsimp only at h
        split at h
        · next hlt => exact ih hlt h
        · cases h
      · cases h

theorem lt_of_parse {cs : List Char} {k : Nat} (h : parse cs = .ok k) : k < 2 ^ 64 := by
  unfold parse at h
  split at h
  · cases h
  · cases h
  · exact lt_of_extend (by decide) h
  · exact lt_of_extend (by decide) h

theorem not_isAlpha_of_isDigit {c : Char} (h : c.isDigit = true) : c.isAlpha = false := by
  simp only [Char.isDigit, Char.isAlpha, Char.isUpper, Char.isLower, UInt32.le_iff_toNat_le,
    Bool.and_eq_true, decide_eq_true_eq, Bool.or_eq_false_iff, Bool.and_eq_false_iff,
    decide_eq_false_iff_not, Char.reduceVal, UInt32.reduceToNat, ge_iff_le] at h ⊢
  omega

end Text.Numeral

def Cap.IsWord (c : Cap) : Prop := ∀ n, c = some n → n < 2 ^ 64

namespace Session

/-- The settings that can come about, with a cap of 64 bits; commands and variables lead to no
others. -/
structure Attained (s : Settings) : Prop where
  reachable : s.Reachable
  cap_isWord : s.cap.IsWord

def shown (s : Settings) : Variable → String
  | .mode => s.mode.text
  | .simulations => toString s.simulations
  | .maxOutcomes => Command.capText s.cap

theorem trim_toString (n : Nat) : Text.trim (toString n) = toString n := by
  have hblank : ∀ c ∈ (toString n).toList, Text.isBlank c = false := fun c hc =>
    ((Grammar.digits_toString n).graphic c hc).not_blank
  rw [Text.trim, Text.trimChars_of_trimmed (Text.trimmed_of_not_blank hblank),
    String.ofList_toList]

theorem parseMode_text (m : Mode) : Settings.parseMode m.text = .ok m := by
  cases m <;> decide +kernel

theorem parseNumber_toString (v : Variable) {n : Nat} (h : n < 2 ^ 64) :
    Settings.parseNumber v (toString n) = .ok n := by
  rw [Settings.parseNumber, trim_toString, Text.Numeral.parseGrouped_toString h]
  rfl

/-- A number begins with a digit, and the name of no cap with a letter. -/
theorem liftsCap_toString (n : Nat) : Settings.liftsCap (toString n) = false := by
  rw [Settings.liftsCap, trim_toString, beq_eq_false_iff_ne]
  obtain ⟨c, cs, hcs, hc⟩ := (Grammar.digits_toString n).exists_cons
  intro hname
  have hlower : c.toLower :: cs.map Char.toLower = "none".toList := by
    rw [← hname, Text.lower, String.toList_ofList, hcs, List.map_cons]
  have halpha : c.toLower.isAlpha = true := by
    rw [(List.cons.inj hlower).1]
    decide
  rw [Char.isAlpha_toLower_eq_isAlpha, Text.Numeral.not_isAlpha_of_isDigit hc] at halpha
  cases halpha

theorem parseCap_capText {c : Cap} (h : c.IsWord) :
    Settings.parseCap (Command.capText c) = .ok c := by
  cases c with
  | none => decide +kernel
  | some n =>
      change Settings.parseCap (toString n) = _
      rw [Settings.parseCap, liftsCap_toString, if_neg Bool.false_ne_true,
        parseNumber_toString .maxOutcomes (h n rfl)]
      rfl

def assigned (s : Settings) : Variable → Settings.Assignment
  | .mode => .mode s.mode
  | .simulations => .simulations s.simulations
  | .maxOutcomes => .cap s.cap

section Restoring

variable {x : Settings} (hvalid : x.Valid) (hword : x.cap.IsWord)

include hvalid hword

/-- What is printed for one of the settings assigns this one, whatever the others are. -/
theorem change_shown (v : Variable) (s : Settings) :
    Settings.change v s (shown x v) = .ok ((assigned x v).apply s) := by
  cases v with
  | mode =>
      rw [Settings.change, shown, parseMode_text]
      rfl
  | simulations =>
      have hlt : x.simulations < 2 ^ 64 :=
        Nat.lt_of_le_of_lt hvalid.le_maxSimulations (by decide)
      rw [Settings.change, shown, parseNumber_toString .simulations hlt]
      exact if_pos ⟨hvalid.minSimulations_le, hvalid.le_maxSimulations⟩
  | maxOutcomes =>
      rw [Settings.change, shown, parseCap_capText hword]
      exact if_neg hvalid.cap_ne_zero

/-- Nothing is left of the settings from before. -/
theorem changes_shown (s : Settings) :
    s.changes (Settings.given (fun v => some (shown x v)) Variable.all) = .ok x :=
  Settings.changes_cons_eq_ok.2 ⟨_, change_shown hvalid hword .mode s,
    Settings.changes_cons_eq_ok.2 ⟨_, change_shown hvalid hword .simulations _,
      Settings.changes_cons_eq_ok.2 ⟨_, change_shown hvalid hword .maxOutcomes _, rfl⟩⟩⟩

theorem ofVariables_shown : Settings.ofVariables (fun v => some (shown x v)) = .ok x := by
  rw [Settings.ofVariables_eq]
  exact changes_shown hvalid hword .initial

end Restoring

/-- All that the setters let pass, with a cap of 64 bits, can come about. -/
theorem attained_iff {x : Settings} : Attained x ↔ x.Valid ∧ x.cap.IsWord :=
  ⟨fun h => ⟨h.reachable.valid, h.cap_isWord⟩,
    fun h => ⟨.ofVariables (ofVariables_shown h.1 h.2), h.2⟩⟩

section Attaining

variable {s s' : Settings}

theorem Attained.perform {c : Command} {lines : List String} (h : Attained s)
    (hset : c.perform s = .ok (s', lines)) : Attained s' := by
  obtain ⟨r, hr⟩ | ⟨e, he⟩ | ⟨lines', hlines⟩ := Command.cases_perform s c
  · cases hset.symm.trans hr.perform_eq
    refine attained_iff.2 ⟨hr.valid h.reachable.valid, ?_⟩
    cases hr with
    | mode | simulations => exact h.cap_isWord
    | noCap => exact nofun
    | cap hname hn hpos =>
        rintro k ⟨⟩
        exact Text.Numeral.lt_of_parse hn
  · cases hset.symm.trans (he.perform_eq s)
  · cases hset.symm.trans hlines
    exact h

theorem Attained.changes {ps : List (Variable × String)} (h : Attained s)
    (hset : s.changes ps = .ok s') : Attained s' := by
  induction ps generalizing s with
  | nil =>
      cases hset
      exact h
  | cons p ps ih =>
      obtain ⟨r, hr, hrest⟩ := Settings.changes_cons_eq_ok.1 hset
      obtain ⟨r', hr', hperform⟩ | ⟨e, e', he, -⟩ := perform_settingCommand p.1 s p.2
      · cases hr.symm.trans hr'
        exact ih (h.perform hperform) hrest
      · cases hr.symm.trans he

theorem attained_initial : Attained .initial := by
  refine ⟨.initial, ?_⟩
  rintro n ⟨⟩
  decide

theorem attained_of_ofVariables {value : Variable → Option String}
    (h : Settings.ofVariables value = .ok s) : Attained s := by
  rw [Settings.ofVariables_eq] at h
  exact attained_initial.changes h

end Attaining

theorem break_not_mem_shown (s : Settings) (v : Variable) : '\n' ∉ (shown s v).toList := by
  have hnumber (n : Nat) : '\n' ∉ (toString n).toList := fun hmem =>
    absurd ((Grammar.digits_toString n).2 _ hmem) (by decide)
  cases v with
  | mode =>
      rw [shown]
      cases s.mode <;> decide +kernel
  | simulations => exact hnumber _
  | maxOutcomes =>
      rw [shown]
      cases s.cap with
      | none => decide +kernel
      | some n => exact hnumber n

theorem settingLines_given (text : Variable → String) (vs : List Variable) :
    settingLines (Settings.given (fun v => some (text v)) vs) =
      vs.map fun v => settingLine v (text v) := by
  rw [settingLines, Settings.given, List.map_filterMap]
  exact congrFun List.filterMap_eq_map' vs

/-- The values that `:show` prints are read back to the settings that they were printed for, by
commands in any order and whatever the settings are, and as the values of the variables. -/
theorem shown_restores {x : Settings} (h : Attained x) :
    (∀ (m : Type → Type) [Monad m] (roller : Roller m Float),
      respond roller x ":show" = pure (x, ⟨"mode: " ++ shown x .mode ++ ", simulations: " ++
        shown x .simulations ++ ", exact cap: " ++ shown x .maxOutcomes ++ "\n", ""⟩)) ∧
    (∀ y, ∀ order : List Variable, order.Perm Variable.all →
      Leads y (Text.lines (Text.unlines (order.map fun v => settingLine v (shown x v)))) x) ∧
    Settings.ofVariables (fun v => some (shown x v)) = .ok x := by
  obtain ⟨hvalid, hword⟩ := attained_iff.1 h
  refine ⟨fun m _ roller => ?_, fun y order horder => ?_, ofVariables_shown hvalid hword⟩
  · have hrequest : Request.ofLine ":show" = .command .showSettings := by decide +kernel
    exact respond_of_command roller hrequest x
  · have hlines : ∀ l ∈ order.map fun v => settingLine v (shown x v), '\n' ∉ l.toList := by
      intro l hl
      obtain ⟨v, -, rfl⟩ := List.mem_map.1 hl
      exact break_not_mem_settingLine (break_not_mem_shown x v)
    rw [Text.lines_unlines hlines, ← settingLines_given, leads_settingLines_iff]
    exact Settings.changes_given_perm horder.symm (by decide) (changes_shown hvalid hword y)

theorem shown_restores_greatest :
    let x : Settings := ⟨.monteCarlo, 100, some 18446744073709551615⟩
    Attained x ∧ Settings.ofVariables (fun v => some (shown x v)) = .ok x ∧
      Leads .initial
        (Text.lines ":cap 18446744073709551615\n:mode monte-carlo\n:sims 100\n") x := by
  intro x
  have hx : Attained x := by
    have hcap : Cap.IsWord (some 18446744073709551615) := by
      rintro n ⟨⟩
      decide
    have hvalid : x.Valid := ⟨by decide, by decide, by decide⟩
    exact attained_iff.2 ⟨hvalid, hcap⟩
  have horder : [Variable.maxOutcomes, .mode, .simulations].Perm Variable.all := by decide
  have htext : Text.unlines ([Variable.maxOutcomes, .mode, .simulations].map fun v =>
      settingLine v (shown x v)) =
      ":cap 18446744073709551615\n:mode monte-carlo\n:sims 100\n" := by decide +kernel
  obtain ⟨-, hleads, hvariables⟩ := shown_restores hx
  rw [← htext]
  exact ⟨hx, hvariables, hleads .initial _ horder⟩

end Session

end DiceOdds
