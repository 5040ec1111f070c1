import DiceOdds.Proofs.Replies

namespace DiceOdds.Session

inductive Request
  | nothing
  | command (c : Command)
  | expression (text : String)
  deriving DecidableEq

def Request.ofLine (line : String) : Request :=
  match Text.trimChars line.toList with
  | [] => .nothing
  | ':' :: cs => .command (Command.ofChars cs)
  | text => .expression (String.ofList text)

structure Turn where
  settings : Settings
  line : String
  deriving DecidableEq

namespace Turn

def request (t : Turn) : Request := .ofLine t.line

def next (t : Turn) : Settings :=
  match t.request with
  | .command c => (obey t.settings c).1
  | _ => t.settings

inductive Fails (t : Turn) : String → Prop
  | command {c : Command} {e : Command.Error} (h : t.request = .command c) (hc : c.Refused e) :
      Fails t e.message
  | fault {text : String} {f : Grammar.Fault} (h : t.request = .expression text)
      (hparse : Grammar.parse text = .error f) : Fails t f.message
  | overflow {text : String} {e : Expr} {o : Overflow} (h : t.request = .expression text)
      (hparse : Grammar.parse text = .ok e) (hmode : t.settings.mode = .exact)
      (ho : t.settings.cap.allow e.outcomeCount = .error o) : Fails t o.message

structure Answered (t : Turn) (r : Settings × Reply) : Prop where
  settings_eq : r.1 = t.next
  kept_or_set : r.1 = t.settings ∨ ∃ c, t.request = .command c ∧ c.Sets t.settings r.1
  failure {message : String} (h : t.Fails message) :
    r.1 = t.settings ∧ r.2.out = "" ∧ r.2.err = "Error: " ++ message ++ "\n"
  success (h : ∀ message, ¬ t.Fails message) : r.2.err = ""

def Quiet (t : Turn) : Prop :=
  t.settings.mode = .monteCarlo → ∀ text e, t.request = .expression text →
    Grammar.parse text = .ok e → e.rolls = []

def Settled (t : Turn) : Prop :=
  ∃ reply, t.Answered (t.next, reply) ∧
    ∀ (m : Type → Type) [Monad m] [LawfulMonad m] (roller : Roller m Float),
      respond roller t.settings t.line = pure (t.next, reply)

variable {t : Turn}

theorem next_of_command {c : Command} (h : t.request = .command c) :
    t.next = (obey t.settings c).1 := by
  rw [next, h]

theorem next_of_expression {text : String} (h : t.request = .expression text) :
    t.next = t.settings := by
  rw [next, h]

theorem next_cases (t : Turn) :
    t.next = t.settings ∨ ∃ c, t.request = .command c ∧ c.Sets t.settings t.next := by
  cases h : t.request with
  | nothing =>
      left
      rw [next, h]
  | expression text => exact .inl (next_of_expression h)
  | command c =>
      rw [next_of_command h]
      obtain ⟨s', hs'⟩ | ⟨e, he⟩ | ⟨lines, hlines⟩ := Command.cases_perform t.settings c
      · refine .inr ⟨c, rfl, ?_⟩
        rw [obey, hs'.perform_eq]
        exact hs'
      · left
        rw [obey, he.perform_eq]
      · left
        rw [obey, hlines]

theorem Fails.next_eq {message : String} (h : t.Fails message) : t.next = t.settings := by
  cases h with
  | command h hc => rw [next_of_command h, obey, hc.perform_eq]
  | fault h hparse => exact next_of_expression h
  | overflow h hparse hmode ho => exact next_of_expression h

section Messages

variable {message : String}

theorem not_fails_of_nothing (h : t.request = .nothing) : ¬ t.Fails message := by
  rintro (⟨h'⟩ | ⟨h'⟩ | ⟨h'⟩) <;> cases h.symm.trans h'

theorem fails_iff_of_command {c : Command} (h : t.request = .command c) :
    t.Fails message ↔ ∃ e, c.perform t.settings = .error e ∧ message = e.message := by
  constructor
  · rintro (⟨h', hc⟩ | ⟨h'⟩ | ⟨h'⟩) <;> cases h.symm.trans h'
    exact ⟨_, hc.perform_eq t.settings, rfl⟩
  · rintro ⟨e, he, rfl⟩
    exact .command h (Command.refused_of_perform he)

variable {text : String} (h : t.request = .expression text)

include h

theorem fails_iff_of_parse_error {f : Grammar.Fault} (hparse : Grammar.parse text = .error f) :
    t.Fails message ↔ message = f.message := by
  constructor
  · rintro (⟨h'⟩ | ⟨h', hparse'⟩ | ⟨h', hparse'⟩) <;> cases h.symm.trans h'
    · cases hparse.symm.trans hparse'
      rfl
    · cases hparse.symm.trans hparse'
  · rintro rfl
    exact .fault h hparse

theorem fails_iff_of_parse_ok {e : Expr} (hparse : Grammar.parse text = .ok e) :
    t.Fails message ↔ t.settings.mode = .exact ∧
      ∃ o, t.settings.cap.allow e.outcomeCount = .error o ∧ message = o.message := by
  constructor
  · rintro (⟨h'⟩ | ⟨h', hparse'⟩ | ⟨h', hparse', hmode, ho⟩) <;> cases h.symm.trans h'
    · cases hparse.symm.trans hparse'
    · cases hparse.symm.trans hparse'
      exact ⟨hmode, _, ho, rfl⟩
  · rintro ⟨hmode, o, ho, rfl⟩
    exact .overflow h hparse hmode ho

end Messages

theorem Fails.unique {message message' : String} (h : t.Fails message) (h' : t.Fails message') :
    message = message' := by
  cases hrequest : t.request with
  | nothing => exact absurd h (not_fails_of_nothing hrequest)
  | command c =>
      obtain ⟨e, he, rfl⟩ := (fails_iff_of_command hrequest).1 h
      obtain ⟨e', he', rfl⟩ := (fails_iff_of_command hrequest).1 h'
      rw [Except.error.inj (he.symm.trans he')]
  | expression text =>
      cases hparse : Grammar.parse text with
      | error f =>
          rw [(fails_iff_of_parse_error hrequest hparse).1 h,
            (fails_iff_of_parse_error hrequest hparse).1 h']
      | ok e =>
          obtain ⟨-, o, ho, rfl⟩ := (fails_iff_of_parse_ok hrequest hparse).1 h
          obtain ⟨-, o', ho', rfl⟩ := (fails_iff_of_parse_ok hrequest hparse).1 h'
          rw [Except.error.inj (ho.symm.trans ho')]

theorem Fails.answered {message : String} (h : t.Fails message) :
    t.Answered (t.next, .ofError message) where
  settings_eq := rfl
  kept_or_set := t.next_cases
  failure h' := by
    rw [h'.unique h]
    exact ⟨h.next_eq, rfl, rfl⟩
  success hnot := absurd h (hnot message)

theorem answered_of_not_fails (h : ∀ message, ¬ t.Fails message) (out : String) :
    t.Answered (t.next, ⟨out, ""⟩) where
  settings_eq := rfl
  kept_or_set := t.next_cases
  failure h' := absurd h' (h _)
  success _ := rfl

theorem respond_eq (t : Turn) {m : Type → Type} [Monad m] (roller : Roller m Float) :
    respond roller t.settings t.line =
      match t.request with
      | .nothing => pure (t.settings, ⟨"", ""⟩)
      | .command c => pure (obey t.settings c)
      | .expression text => do return (t.settings, ← evaluate roller t.settings text) := by
  rw [respond, request, Request.ofLine]
  generalize Text.trimChars t.line.toList = cs
  split <;> simp only

theorem not_fails_of_perform {c : Command} {r : Settings × List String}
    (h : t.request = .command c) (hperform : c.perform t.settings = .ok r) (message : String) :
    ¬ t.Fails message := by
  intro hfails
  obtain ⟨e, he, -⟩ := (fails_iff_of_command h).1 hfails
  cases hperform.symm.trans he

theorem settled_of_nothing (h : t.request = .nothing) : t.Settled := by
  refine ⟨⟨"", ""⟩, answered_of_not_fails (fun _ => not_fails_of_nothing h) "",
    fun m _ _ roller => ?_⟩
  rw [respond_eq, h, next, h]

theorem settled_of_command {c : Command} (h : t.request = .command c) : t.Settled := by
  refine ⟨(obey t.settings c).2, ?_, fun m _ _ roller => ?_⟩
  · rw [obey]
    cases hperform : c.perform t.settings with
    | error e => exact (Fails.command h (Command.refused_of_perform hperform)).answered
    | ok r => exact answered_of_not_fails (not_fails_of_perform h hperform) _
  · rw [respond_eq, h, next_of_command h]

section Expressions

variable {text : String} {e : Expr} (h : t.request = .expression text)

include h

theorem respond_of_evaluate {m : Type → Type} [Monad m] [LawfulMonad m] {roller : Roller m Float}
    {reply : Reply} (hreply : evaluate roller t.settings text = pure reply) :
    respond roller t.settings t.line = pure (t.next, reply) := by
  rw [respond_eq, h, next_of_expression h]
  dsimp only
  rw [hreply, pure_bind]

theorem settled_of_parse_error {f : Grammar.Fault} (hparse : Grammar.parse text = .error f) :
    t.Settled :=
  ⟨.ofError f.message, (Fails.fault h hparse).answered, fun _ _ _ roller =>
    respond_of_evaluate h (evaluate_of_parse_error hparse roller)⟩

variable (hparse : Grammar.parse text = .ok e)

include hparse

theorem settled_of_exact (hmode : t.settings.mode = .exact) : t.Settled := by
  by_cases hfits : t.settings.cap.Fits e.dice.prod
  · obtain ⟨lines, hlines⟩ := exists_evaluate_of_fits hparse hmode hfits
    refine ⟨.ofLines lines, answered_of_not_fails ?_ _, fun m _ _ roller =>
      respond_of_evaluate h (hlines m roller)⟩
    rintro message hfails
    obtain ⟨-, o, ho, -⟩ := (fails_iff_of_parse_ok h hparse).1 hfails
    rw [Expr.outcomeCount_eq, Cap.allow_countable hfits] at ho
    cases ho
  · obtain ⟨o, ho⟩ := Cap.allow_of_not_fits hfits
    exact ⟨.ofError o.message, (Fails.overflow h hparse hmode ho).answered, fun m _ _ roller =>
      respond_of_evaluate h (evaluate_of_overflow hparse hmode ho roller)⟩

theorem not_fails_of_monteCarlo (hmode : t.settings.mode = .monteCarlo) (message : String) :
    ¬ t.Fails message := by
  intro hfails
  exact absurd (((fails_iff_of_parse_ok h hparse).1 hfails).1.symm.trans hmode) nofun

theorem answered_of_monteCarlo (hmode : t.settings.mode = .monteCarlo) (xs : List Float) :
    t.Answered (t.next, .ofResult t.settings e (.ok xs)) :=
  answered_of_not_fails (not_fails_of_monteCarlo h hparse hmode) _

theorem settled_of_rolls_eq_nil (hmode : t.settings.mode = .monteCarlo) (hrolls : e.rolls = []) :
    t.Settled := by
  let xs : List Float := List.replicate t.settings.simulations (e.value [])
  refine ⟨_, answered_of_monteCarlo h hparse hmode xs, fun m _ _ roller =>
    respond_of_evaluate h ?_⟩
  rw [evaluate_of_monteCarlo hparse hmode, Sampling.draws_of_rolls_eq_nil hrolls, map_pure]

theorem ensures_of_monteCarlo (hmode : t.settings.mode = .monteCarlo) {m : Type → Type} [Monad m]
    [LawfulMonad m] (roller : Roller m Float) :
    Ensures (respond roller t.settings t.line) t.Answered := by
  rw [respond_eq, h]
  dsimp only
  rw [evaluate_of_monteCarlo hparse hmode, bind_map_left]
  refine (Ensures.trivially _).bind fun xs _ => .of_pure ?_
  have hanswered := answered_of_monteCarlo h hparse hmode xs
  rwa [next_of_expression h] at hanswered

end Expressions

theorem Quiet.settled (h : t.Quiet) : t.Settled := by
  cases hrequest : t.request with
  | nothing => exact settled_of_nothing hrequest
  | command c => exact settled_of_command hrequest
  | expression text =>
      cases hparse : Grammar.parse text with
      | error f => exact settled_of_parse_error hrequest hparse
      | ok e =>
          cases hmode : t.settings.mode with
          | exact => exact settled_of_exact hrequest hparse hmode
          | monteCarlo =>
              exact settled_of_rolls_eq_nil hrequest hparse hmode (h hmode text e hrequest hparse)

theorem ensures_answered (t : Turn) {m : Type → Type} [Monad m] [LawfulMonad m]
    (roller : Roller m Float) : Ensures (respond roller t.settings t.line) t.Answered := by
  by_cases h : t.Quiet
  · obtain ⟨reply, hreply, hrespond⟩ := h.settled
    rw [hrespond m roller]
    exact .of_pure hreply
  · rw [Quiet] at h
    push Not at h
    obtain ⟨hmode, text, e, hrequest, hparse, -⟩ := h
    exact ensures_of_monteCarlo hrequest hparse hmode roller

end Turn

end DiceOdds.Session
