import DiceOdds.Proofs.ValidSettings

namespace DiceOdds

def Variable.all : List Variable := [.mode, .simulations, .maxOutcomes]

def SettingsError.source : SettingsError → Variable
  | unknownMode _ => .mode
  | simulationCount _ => .simulations
  | invalidNumber source _ => source
  | zeroCap => .maxOutcomes

namespace Settings

def change (v : Variable) (s : Settings) (text : String) : Except SettingsError Settings :=
  match v with
  | .mode => (parseMode text).map s.withMode
  | .simulations => (parseNumber .simulations text).bind s.withSimulations
  | .maxOutcomes => (parseCap text).bind s.withCap

inductive Assignment
  | mode (m : Mode)
  | simulations (n : Nat)
  | cap (c : Cap)

namespace Assignment

def target : Assignment → Variable
  | mode _ => .mode
  | simulations _ => .simulations
  | cap _ => .maxOutcomes

def apply : Assignment → Settings → Settings
  | mode m, s => { s with mode := m }
  | simulations n, s => { s with simulations := n }
  | cap c, s => { s with cap := c }

theorem apply_comm {a b : Assignment} (h : a.target ≠ b.target) (s : Settings) :
    a.apply (b.apply s) = b.apply (a.apply s) := by
  cases a with
  | mode =>
      cases b with
      | mode => exact absurd rfl h
      | simulations | cap => rfl
  | simulations =>
      cases b with
      | simulations => exact absurd rfl h
      | mode | cap => rfl
  | cap =>
      cases b with
      | cap => exact absurd rfl h
      | mode | simulations => rfl

end Assignment

section Texts

variable {v : Variable} {s s' : Settings} {text : String}

/-- A text assigns the same value whatever the settings are. -/
theorem exists_assignment (h : change v s text = .ok s') :
    ∃ a : Assignment, a.target = v ∧ s' = a.apply s ∧ ∀ r, change v r text = .ok (a.apply r) := by
  cases v with
  | mode =>
      cases hm : parseMode text with
      | error e =>
          rw [change, hm] at h
          cases h
      | ok m =>
          rw [change, hm] at h
          cases h
          refine ⟨.mode m, rfl, rfl, fun r => ?_⟩
          rw [change, hm]
          rfl
  | simulations =>
      obtain ⟨n, hn, hset⟩ := exists_of_bind h
      rw [withSimulations] at hset
      split at hset
      · next hrange =>
        cases hset
        refine ⟨.simulations n, rfl, rfl, fun r => ?_⟩
        rw [change, hn]
        exact if_pos hrange
      · cases hset
  | maxOutcomes =>
      obtain ⟨c, hc, hset⟩ := exists_of_bind h
      rw [withCap] at hset
      split at hset
      · cases hset
      · next hzero =>
        cases hset
        refine ⟨.cap c, rfl, rfl, fun r => ?_⟩
        rw [change, hc]
        exact if_neg hzero

theorem change_eq_ok_of_ok (h : change v s text = .ok s') (r : Settings) :
    ∃ r', change v r text = .ok r' := by
  obtain ⟨a, -, -, hchange⟩ := exists_assignment h
  exact ⟨_, hchange r⟩

theorem change_eq_error_of_error {e : SettingsError} (h : change v s text = .error e)
    (r : Settings) : ∃ e', change v r text = .error e' := by
  cases hr : change v r text with
  | error e' => exact ⟨e', rfl⟩
  | ok r' =>
      obtain ⟨s', hs'⟩ := change_eq_ok_of_ok hr s
      cases h.symm.trans hs'

theorem source_of_parseNumber {e : SettingsError} (h : parseNumber v text = .error e) :
    e.source = v := by
  rw [parseNumber] at h
  cases hn : Text.Numeral.parseGrouped (Text.trim text) with
  | error f =>
      rw [hn] at h
      cases h
      rfl
  | ok n =>
      rw [hn] at h
      cases h

theorem source_of_parseCap {e : SettingsError} (h : parseCap text = .error e) :
    e.source = .maxOutcomes := by
  rw [parseCap] at h
  split at h
  · cases h
  · cases hn : parseNumber .maxOutcomes text with
    | error e' =>
        rw [hn] at h
        cases h
        exact source_of_parseNumber hn
    | ok n =>
        rw [hn] at h
        cases h

theorem error_of_bind {ε α β : Type} {x : Except ε α} {f : α → Except ε β} {e : ε}
    (h : x.bind f = .error e) : x = .error e ∨ ∃ a, x = .ok a ∧ f a = .error e := by
  cases x with
  | error e' =>
      cases h
      exact .inl rfl
  | ok a => exact .inr ⟨a, rfl, h⟩

theorem source_of_change {e : SettingsError} (h : change v s text = .error e) : e.source = v := by
  cases v with
  | mode =>
      rw [change, parseMode] at h
      split at h
      · cases h
      · cases h
        rfl
  | simulations =>
      rw [change] at h
      obtain hn | ⟨n, -, hset⟩ := error_of_bind h
      · exact source_of_parseNumber hn
      · rw [withSimulations] at hset
        split at hset
        · cases hset
        · cases hset
          rfl
  | maxOutcomes =>
      rw [change] at h
      obtain hc | ⟨c, -, hset⟩ := error_of_bind h
      · exact source_of_parseCap hc
      · rw [withCap] at hset
        split at hset
        · cases hset
          rfl
        · cases hset

end Texts

def changes (s : Settings) (ps : List (Variable × String)) : Except SettingsError Settings :=
  ps.foldlM (fun s p => change p.1 s p.2) s

def given (value : Variable → Option String) (vs : List Variable) : List (Variable × String) :=
  vs.filterMap fun v => (value v).map fun text => (v, text)

section Changes

variable {s s' : Settings} {p : Variable × String} {ps qs : List (Variable × String)}

theorem changes_cons (s : Settings) (p : Variable × String) (ps : List (Variable × String)) :
    s.changes (p :: ps) = change p.1 s p.2 >>= fun r => r.changes ps :=
  List.foldlM_cons ..

theorem changes_cons_eq_ok :
    s.changes (p :: ps) = .ok s' ↔ ∃ r, change p.1 s p.2 = .ok r ∧ r.changes ps = .ok s' := by
  rw [changes_cons]
  refine ⟨exists_of_bind, ?_⟩
  rintro ⟨r, hr, hrest⟩
  rw [hr]
  exact hrest

theorem foldlM_override (value : Variable → Option String) (vs : List Variable) (s : Settings) :
    vs.foldlM (fun s v => override (value v) (change v) s) s = s.changes (given value vs) := by
  induction vs generalizing s with
  | nil => rfl
  | cons v vs ih =>
      rw [List.foldlM_cons, given, List.filterMap_cons]
      cases hv : value v with
      | none => exact ih s
      | some text =>
          simp only [Option.map_some, changes_cons]
          exact congrArg (change v s text >>= ·) (funext ih)

theorem ofVariables_eq (value : Variable → Option String) :
    ofVariables value = initial.changes (given value Variable.all) := by
  rw [← foldlM_override, Variable.all]
  simp only [List.foldlM_cons, List.foldlM_nil, bind_pure]
  rfl

theorem value_of_mem_given {value : Variable → Option String} {vs : List Variable}
    (h : p ∈ given value vs) : value p.1 = some p.2 := by
  obtain ⟨v, -, hv⟩ := List.mem_filterMap.1 h
  obtain ⟨text, htext, rfl⟩ := Option.map_eq_some_iff.1 hv
  exact htext

theorem map_fst_given (value : Variable → Option String) (vs : List Variable) :
    (given value vs).map Prod.fst = vs.filter fun v => (value v).isSome := by
  induction vs with
  | nil => rfl
  | cons v vs ih =>
      rw [given, List.filterMap_cons, List.filter_cons]
      cases hv : value v with
      | none => exact ih
      | some text => exact congrArg (v :: ·) ih

/-- Texts for different variables have the same effect in any order. -/
theorem changes_perm (hperm : ps.Perm qs) (hps : (ps.map Prod.fst).Nodup)
    (h : s.changes ps = .ok s') : s.changes qs = .ok s' := by
  induction hperm generalizing s with
  | nil => exact h
  | cons p _ ih =>
      obtain ⟨r, hr, hrest⟩ := changes_cons_eq_ok.1 h
      exact changes_cons_eq_ok.2 ⟨r, hr, ih (List.nodup_cons.1 hps).2 hrest⟩
  | swap p q ps =>
      -- Neighbours are for different variables, so that what they assign commutes.
      obtain ⟨r, hq, h⟩ := changes_cons_eq_ok.1 h
      obtain ⟨r', hp, hrest⟩ := changes_cons_eq_ok.1 h
      obtain ⟨a, ha, rfl, hchange⟩ := exists_assignment hq
      obtain ⟨b, hb, rfl, hchange'⟩ := exists_assignment hp
      have hne : b.target ≠ a.target := by
        rw [ha, hb]
        intro heq
        exact (List.nodup_cons.1 hps).1 (heq ▸ List.mem_cons_self)
      rw [Assignment.apply_comm hne] at hrest
      exact changes_cons_eq_ok.2 ⟨_, hchange' s, changes_cons_eq_ok.2 ⟨_, hchange _, hrest⟩⟩
  | trans hperm _ ih ih' =>
      exact ih' ((hperm.map Prod.fst).nodup_iff.1 hps) (ih hps h)

theorem changes_given_perm {value : Variable → Option String} {vs ws : List Variable}
    (hperm : vs.Perm ws) (hvs : vs.Nodup) (h : s.changes (given value vs) = .ok s') :
    s.changes (given value ws) = .ok s' := by
  apply changes_perm (hperm.filterMap _) _ h
  change ((given value vs).map Prod.fst).Nodup
  rw [map_fst_given]
  exact hvs.filter _

/-- The error is that of the first text which is refused by itself. -/
theorem exists_first_of_changes {e : SettingsError} (h : s.changes ps = .error e) :
    ∃ before p after, ps = before ++ p :: after ∧ e.source = p.1 ∧
      (∀ r, ∃ e', change p.1 r p.2 = .error e') ∧
      ∀ q ∈ before, ∀ r, ∃ r', change q.1 r q.2 = .ok r' := by
  induction ps generalizing s with
  | nil => cases h
  | cons p ps ih =>
      cases hp : change p.1 s p.2 with
      | error e' =>
          rw [changes_cons, hp] at h
          cases h
          exact ⟨[], p, ps, rfl, source_of_change hp, change_eq_error_of_error hp, nofun⟩
      | ok r =>
          rw [changes_cons, hp] at h
          obtain ⟨before, q, after, rfl, hq⟩ := ih h
          refine ⟨p :: before, q, after, rfl, hq.1, hq.2.1, List.forall_mem_cons.2 ⟨?_, hq.2.2⟩⟩
          exact change_eq_ok_of_ok hp

end Changes

end Settings

end DiceOdds
