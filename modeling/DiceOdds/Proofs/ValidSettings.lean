import DiceOdds.Settings

namespace DiceOdds.Settings

/-- The settings that the setters lead to from the initial ones or from those of some variables. -/
inductive Reachable : Settings → Prop
  | initial : Reachable initial
  | ofVariables {value : Variable → Option String} {s : Settings} (h : ofVariables value = .ok s) :
      Reachable s
  | withMode {s : Settings} (h : Reachable s) (mode : Mode) : Reachable (s.withMode mode)
  | withSimulations {s s' : Settings} {count : Nat} (h : Reachable s)
      (hset : s.withSimulations count = .ok s') : Reachable s'
  | withCap {s s' : Settings} {cap : Cap} (h : Reachable s) (hset : s.withCap cap = .ok s') :
      Reachable s'

structure Valid (s : Settings) : Prop where
  minSimulations_le : minSimulations ≤ s.simulations
  le_maxSimulations : s.simulations ≤ maxSimulations
  cap_ne_zero : s.cap ≠ some 0

namespace Valid

variable {s s' : Settings}

theorem initial : Valid initial := ⟨by decide, by decide, by decide⟩

theorem withMode (h : s.Valid) (mode : Mode) : (s.withMode mode).Valid :=
  ⟨h.minSimulations_le, h.le_maxSimulations, h.cap_ne_zero⟩

theorem withSimulations (h : s.Valid) {count : Nat} (hset : s.withSimulations count = .ok s') :
    s'.Valid := by
  rw [Settings.withSimulations] at hset
  split at hset
  · next hcount =>
    cases hset
    exact ⟨hcount.1, hcount.2, h.cap_ne_zero⟩
  · cases hset

theorem withCap (h : s.Valid) {cap : Cap} (hset : s.withCap cap = .ok s') : s'.Valid := by
  rw [Settings.withCap] at hset
  split at hset
  · cases hset
  · next hcap =>
    cases hset
    exact ⟨h.minSimulations_le, h.le_maxSimulations, hcap⟩

theorem override (h : s.Valid) {text : Option String}
    {change : Settings → String → Except SettingsError Settings}
    (hchange : ∀ text s', change s text = .ok s' → s'.Valid)
    (hset : Settings.override text change s = .ok s') : s'.Valid := by
  cases text with
  | none =>
      cases hset
      exact h
  | some text => exact hchange text s' hset

end Valid

theorem exists_of_bind {ε α β : Type} {x : Except ε α} {f : α → Except ε β} {b : β}
    (h : x >>= f = .ok b) : ∃ a, x = .ok a ∧ f a = .ok b := by
  cases x with
  | error e => cases h
  | ok a => exact ⟨a, rfl, h⟩

theorem valid_of_ofVariables {value : Variable → Option String} {s : Settings}
    (h : ofVariables value = .ok s) : s.Valid := by
  obtain ⟨s₁, h₁, h⟩ := exists_of_bind h
  obtain ⟨s₂, h₂, h₃⟩ := exists_of_bind h
  have hmode : s₁.Valid := by
    apply Valid.initial.override _ h₁
    intro text s' hset
    cases hmode : parseMode text with
    | error e =>
        rw [hmode] at hset
        cases hset
    | ok mode =>
        rw [hmode] at hset
        cases hset
        exact Valid.initial.withMode mode
  have hsimulations : s₂.Valid := by
    apply hmode.override _ h₂
    intro text s' hset
    obtain ⟨count, -, hset⟩ := exists_of_bind hset
    exact hmode.withSimulations hset
  apply hsimulations.override _ h₃
  intro text s' hset
  obtain ⟨cap, -, hset⟩ := exists_of_bind hset
  exact hsimulations.withCap hset

theorem Reachable.valid {s : Settings} (h : s.Reachable) : s.Valid := by
  induction h with
  | initial => exact .initial
  | ofVariables h => exact valid_of_ofVariables h
  | withMode _ mode ih => exact ih.withMode mode
  | withSimulations _ hset ih => exact ih.withSimulations hset
  | withCap _ hset ih => exact ih.withCap hset

end DiceOdds.Settings
