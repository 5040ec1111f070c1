import DiceOdds.Proofs.Places
import DiceOdds.Proofs.SettingChanges
import DiceOdds.Proofs.Turns

namespace DiceOdds

namespace Text

open Grammar

theorem trimmed_of_not_blank {cs : List Char} (h : ∀ c ∈ cs, isBlank c = false) : Trimmed cs :=
  ⟨fun c hc => h c (List.mem_of_mem_head? hc), fun c hc => h c (List.mem_of_mem_getLast? hc)⟩

theorem trimmed_trimChars (cs : List Char) : Trimmed (trimChars cs) := by
  obtain ⟨l, r, -, -, -, htrimmed⟩ := exists_trimChars cs
  exact htrimmed

theorem trimChars_of_trimmed {cs : List Char} (h : Trimmed cs) : trimChars cs = cs := by
  have htrim : trimChars ([] ++ cs ++ []) = cs := h.trimChars_eq nofun nofun
  rwa [List.nil_append, List.append_nil] at htrim

theorem trim_trim (s : String) : trim (trim s) = trim s := by
  rw [trim, trim, String.toList_ofList, trimChars_of_trimmed (trimmed_trimChars _)]

/-- A line is split as it was joined, if none of its pieces has a break in it. -/
theorem splitLines_append {cs : List Char} (h : '\n' ∉ cs) (ds : List Char) :
    splitLines (cs ++ '\n' :: ds) = cs :: splitLines ds := by
  induction cs with
  | nil => exact if_pos rfl
  | cons c cs ih =>
      rw [List.mem_cons, not_or] at h
      rw [List.cons_append, splitLines, if_neg (Ne.symm h.1), ih h.2]

def unlines (ls : List String) : String := String.join (ls.map (· ++ "\n"))

theorem lines_unlines {ls : List String} (h : ∀ l ∈ ls, '\n' ∉ l.toList) :
    lines (unlines ls) = ls := by
  induction ls with
  | nil => rfl
  | cons l ls ih =>
      obtain ⟨hl, hls⟩ := List.forall_mem_cons.1 h
      have hjoin : (unlines (l :: ls)).toList = l.toList ++ '\n' :: (unlines ls).toList := by
        simp [unlines]
      rw [lines, hjoin, splitLines_append hl, List.map_cons, String.ofList_toList]
      exact congrArg (l :: ·) (ih hls)

end Text

namespace Session

def commandName : Variable → String
  | .mode => "mode"
  | .simulations => "sims"
  | .maxOutcomes => "cap"

def settingLine (v : Variable) (text : String) : String := ":" ++ commandName v ++ " " ++ text

def settingCommand (v : Variable) (text : String) : Command :=
  match v with
  | .mode => .mode (Text.trim text)
  | .simulations => .simulations (Text.trim text)
  | .maxOutcomes => .cap (Text.trim text)

theorem toList_settingLine (v : Variable) (text : String) :
    (settingLine v text).toList = ':' :: ((commandName v).toList ++ ' ' :: text.toList) := by
  simp [settingLine]

theorem not_blank_commandName (v : Variable) :
    ∀ c ∈ (commandName v).toList, Text.isBlank c = false := by
  have hall : (commandName v).toList.all (fun c => !Text.isBlank c) = true := by
    cases v <;> decide +kernel
  simpa using hall

theorem exists_trimChars_line {name : List Char} (hname : ∀ c ∈ name, Text.isBlank c = false)
    (text : List Char) :
    ∃ cs, Text.trimChars (':' :: (name ++ ' ' :: text)) = ':' :: cs ∧
      cs.takeWhile (· != ' ') = name ∧
      Text.trimChars ((cs.dropWhile (· != ' ')).drop 1) = Text.trimChars text := by
  have hspace : ∀ c ∈ name, (c != ' ') = true := by
    intro c hc
    rw [bne_iff_ne]
    rintro rfl
    exact absurd (hname _ hc) (by decide)
  obtain ⟨l, r, htext, hl, hr, htrimmed⟩ := Grammar.exists_trimChars text
  generalize Text.trimChars text = piece at htext htrimmed ⊢
  subst htext
  -- With nothing but blanks behind the name, the space that ends it is trimmed off as well.
  by_cases hpiece : piece = []
  · subst hpiece
    have hline : Grammar.Trimmed (':' :: name) :=
      Text.trimmed_of_not_blank (List.forall_mem_cons.2 ⟨by decide, hname⟩)
    have hblank : ∀ c ∈ ' ' :: (l ++ [] ++ r), Text.isBlank c = true := by
      rw [List.append_nil, List.forall_mem_cons, List.forall_mem_append]
      exact ⟨by decide, hl, hr⟩
    refine ⟨name, ?_, ?_, ?_⟩
    · exact hline.trimChars_eq (l := []) nofun hblank
    · rw [← List.append_nil name, List.takeWhile_append_of_pos hspace]
      rfl
    · rw [← List.append_nil name, List.dropWhile_append_of_pos hspace]
      rfl
  · have hline : Grammar.Trimmed (':' :: (name ++ ' ' :: (l ++ piece))) := by
      refine ⟨fun c hc => ?_, fun c hc => htrimmed.last c ?_⟩
      · cases hc
        decide
      · rw [← hc, ← List.cons_append, ← List.cons_append, ← List.append_assoc,
          List.getLast?_append_of_ne_nil _ hpiece]
    refine ⟨name ++ ' ' :: (l ++ piece), ?_, ?_, ?_⟩
    · have htrim := hline.trimChars_eq (l := []) nofun hr
      simpa using htrim
    · rw [List.takeWhile_append_of_pos hspace, List.takeWhile_cons_of_neg (by decide),
        List.append_nil]
    · rw [List.dropWhile_append_of_pos hspace, List.dropWhile_cons_of_neg (by decide),
        List.drop_one, List.tail_cons, ← List.append_nil (l ++ piece)]
      exact htrimmed.trimChars_eq hl nofun

theorem ofLine_settingLine (v : Variable) (text : String) :
    Request.ofLine (settingLine v text) = .command (settingCommand v text) := by
  obtain ⟨cs, hline, hname, hargument⟩ :=
    exists_trimChars_line (not_blank_commandName v) text.toList
  rw [Request.ofLine, toList_settingLine, hline]
  simp only [Command.ofChars, hname, String.ofList_toList, Text.trim, String.toList_ofList,
    hargument]
  cases v <;> rfl

def Accepts (s : Settings) (line : String) (s' : Settings) : Prop :=
  ∀ (m : Type → Type) [Monad m] [LawfulMonad m] (roller : Roller m Float),
    respond roller s line = pure (s', ⟨"", ""⟩)

inductive Leads : Settings → List String → Settings → Prop
  | nil (s : Settings) : Leads s [] s
  | cons {s r s' : Settings} {line : String} {lines : List String} (h : Accepts s line r)
      (hlines : Leads r lines s') : Leads s (line :: lines) s'

section Lines

variable {v : Variable} {s s' : Settings} {text : String}

theorem respond_of_command {m : Type → Type} [Monad m] (roller : Roller m Float) {line : String}
    {c : Command} (h : Request.ofLine line = .command c) (s : Settings) :
    respond roller s line = pure (obey s c) := by
  have hrequest : (Turn.mk s line).request = .command c := h
  have hrespond := Turn.respond_eq ⟨s, line⟩ roller
  rwa [hrequest] at hrespond

/-- The argument of a command loses its blanks before it is read, the text of a variable when it is
read; the errors differ, and nothing else does. -/
theorem perform_settingCommand (v : Variable) (s : Settings) (text : String) :
    (∃ s', Settings.change v s text = .ok s' ∧
      (settingCommand v text).perform s = .ok (s', [])) ∨
    ∃ e e', Settings.change v s text = .error e ∧
      (settingCommand v text).perform s = .error e' := by
  cases v with
  | mode =>
      have htrim : Mode.ofText? (Text.trim text) = Mode.ofText? text := by
        rw [Mode.ofText?, Mode.ofText?, Text.trim_trim]
      rw [Settings.change, settingCommand, Command.perform, Settings.parseMode, Settings.parseMode,
        htrim]
      cases Mode.ofText? text with
      | none => exact .inr ⟨_, _, rfl, rfl⟩
      | some m => exact .inl ⟨_, rfl, rfl⟩
  | simulations =>
      rw [Settings.change, settingCommand, Command.perform, Settings.parseNumber, Command.number]
      cases Text.Numeral.parseGrouped (Text.trim text) with
      | error f => exact .inr ⟨_, _, rfl, rfl⟩
      | ok n =>
          simp only [Except.mapError, Except.bind]
          cases s.withSimulations n with
          | error e => exact .inr ⟨_, _, rfl, rfl⟩
          | ok s' => exact .inl ⟨_, rfl, rfl⟩
  | maxOutcomes =>
      have htrim : Settings.liftsCap (Text.trim text) = Settings.liftsCap text := by
        rw [Settings.liftsCap, Settings.liftsCap, Text.trim_trim]
      rw [Settings.change, settingCommand, Command.perform, Settings.parseCap, Command.capOf, htrim]
      cases Settings.liftsCap text with
      | true => exact .inl ⟨_, rfl, rfl⟩
      | false =>
          rw [if_neg Bool.false_ne_true, if_neg Bool.false_ne_true, Settings.parseNumber,
            Command.number]
          cases Text.Numeral.parseGrouped (Text.trim text) with
          | error f => exact .inr ⟨_, _, rfl, rfl⟩
          | ok n =>
              simp only [Except.mapError, Except.map, Except.bind]
              cases s.withCap (some n) with
              | error e => exact .inr ⟨_, _, rfl, rfl⟩
              | ok s' => exact .inl ⟨_, rfl, rfl⟩

theorem accepts_settingLine_iff :
    Accepts s (settingLine v text) s' ↔ Settings.change v s text = .ok s' := by
  -- Any roller in any monad tells the settings and the reply, since no dice are rolled.
  have hId (h : Accepts s (settingLine v text) s') :
      obey s (settingCommand v text) = (s', ⟨"", ""⟩) :=
    (respond_of_command (fun _ => (0 : Float)) (ofLine_settingLine v text) s).symm.trans (h Id _)
  obtain ⟨r, hchange, hperform⟩ | ⟨e, e', hchange, hperform⟩ := perform_settingCommand v s text
  · have hobey : obey s (settingCommand v text) = (r, ⟨"", ""⟩) := by
      rw [obey, hperform]
      rfl
    constructor
    · intro h
      cases hobey.symm.trans (hId h)
      exact hchange
    · intro h m _ _ roller
      cases hchange.symm.trans h
      rw [respond_of_command roller (ofLine_settingLine v text), hobey]
  · have hobey : obey s (settingCommand v text) = (s, .ofError e'.message) := by
      rw [obey, hperform]
    constructor
    · intro h
      have herr := congrArg (fun r => r.2.err.toList) (hobey.symm.trans (hId h))
      simp [Reply.ofError] at herr
    · intro h
      cases hchange.symm.trans h

def settingLines (ps : List (Variable × String)) : List String :=
  ps.map fun p => settingLine p.1 p.2

theorem leads_settingLines_iff {ps : List (Variable × String)} :
    Leads s (settingLines ps) s' ↔ s.changes ps = .ok s' := by
  induction ps generalizing s with
  | nil =>
      constructor
      · intro h
        cases h
        rfl
      · intro h
        cases h
        exact .nil _
  | cons p ps ih =>
      rw [Settings.changes_cons_eq_ok]
      constructor
      · intro h
        cases h with
        | cons hline hlines => exact ⟨_, accepts_settingLine_iff.1 hline, ih.1 hlines⟩
      · rintro ⟨r, hr, hrest⟩
        exact .cons (accepts_settingLine_iff.2 hr) (ih.2 hrest)

theorem break_not_mem_settingLine (h : '\n' ∉ text.toList) :
    '\n' ∉ (settingLine v text).toList := by
  have hname : '\n' ∉ (commandName v).toList := fun hmem =>
    absurd (not_blank_commandName v _ hmem) (by decide)
  simp [toList_settingLine, hname, h]

end Lines

/-- Variables that are set to texts make the same settings as the lines that give these texts to
commands, in whatever order. Where one of the texts is refused, the error is about the first that
is refused as a command by itself. -/
theorem ofVariables_iff_leads {value : Variable → Option String}
    (hbreaks : ∀ v text, value v = some text → '\n' ∉ text.toList) :
    (∀ order : List Variable, order.Perm Variable.all → ∀ s,
      Settings.ofVariables value = .ok s ↔
        Leads .initial (Text.lines (Text.unlines (settingLines (Settings.given value order)))) s) ∧
    ∀ e, Settings.ofVariables value = .error e →
      ∃ before v text after, Settings.given value Variable.all = before ++ (v, text) :: after ∧
        e.source = v ∧ (∀ s, ¬ Accepts .initial (settingLine v text) s) ∧
        ∀ p ∈ before, ∃ s, Accepts .initial (settingLine p.1 p.2) s := by
  rw [Settings.ofVariables_eq]
  constructor
  · intro order horder s
    have hlines : ∀ l ∈ settingLines (Settings.given value order), '\n' ∉ l.toList := by
      intro l hl
      obtain ⟨⟨v, text⟩, hp, rfl⟩ := List.mem_map.1 hl
      exact break_not_mem_settingLine (hbreaks v text (Settings.value_of_mem_given hp))
    rw [Text.lines_unlines hlines, leads_settingLines_iff]
    have hall : Variable.all.Nodup := by decide
    exact ⟨Settings.changes_given_perm horder.symm hall,
      Settings.changes_given_perm horder (horder.nodup_iff.2 hall)⟩
  · intro e h
    obtain ⟨before, p, after, hsplit, hsource, herror, hok⟩ :=
      Settings.exists_first_of_changes h
    refine ⟨before, p.1, p.2, after, hsplit, hsource, fun s hs => ?_, fun q hq => ?_⟩
    · obtain ⟨e', he'⟩ := herror .initial
      cases he'.symm.trans (accepts_settingLine_iff.1 hs)
    · obtain ⟨s, hs⟩ := hok q hq .initial
      exact ⟨s, accepts_settingLine_iff.2 hs⟩

/-- Blanks, case, a sign and underscores do not matter, and one variable is not set. -/
theorem ofVariables_iff_leads_unset :
    let value : Variable → Option String
      | .mode => some "\u3000Mc"
      | .simulations => some " +5_000\t"
      | .maxOutcomes => none
    let s : Settings := ⟨.monteCarlo, 5000, some 1000000⟩
    (∀ v text, value v = some text → '\n' ∉ text.toList) ∧ Settings.ofVariables value = .ok s ∧
      Leads .initial (Text.lines ":sims  +5_000\t\n:mode \u3000Mc\n") s := by
  intro value s
  have hbreaks : ∀ v text, value v = some text → '\n' ∉ text.toList := by
    rintro (_ | _ | _) text h <;> cases h <;> decide +kernel
  have hs : Settings.ofVariables value = .ok s := by decide +kernel
  have horder : [Variable.simulations, .maxOutcomes, .mode].Perm Variable.all := by decide
  refine ⟨hbreaks, hs, ?_⟩
  exact ((ofVariables_iff_leads hbreaks).1 _ horder s).1 hs

end Session

end DiceOdds
