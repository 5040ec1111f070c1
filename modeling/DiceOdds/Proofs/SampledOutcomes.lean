import DiceOdds.Proofs.Results
import DiceOdds.Proofs.SoundBounds
import DiceOdds.Sampling.Basic

namespace DiceOdds

def IsFace (sides face : ℕ) : Prop := 1 ≤ face ∧ face ≤ sides

section Sums

variable {α : Type} [Scalar α]

theorem Roll.sum_eq_faceSum (hneutral : ∀ x : α, Scalar.neutral + x = x) (fs : List ℕ) :
    (Scalar.sum (fs.map Scalar.ofNat) : α) = faceSum fs := by
  cases fs with
  | nil => rfl
  | cons f fs =>
      rw [faceSum, Scalar.sum, List.map_cons, List.foldl_cons, hneutral, List.foldl_map]

theorem Roll.totals_cons_append {r : Roll} {fs : List ℕ} (h : fs.length = r.count.val)
    (rs : List Roll) (gs : List ℕ) :
    (totals (r :: rs) (fs ++ gs) : List α) = faceSum fs :: totals rs gs := by
  rw [totals, List.take_left' h, List.drop_left' h]

end Sums

namespace Sampling

variable {m : Type → Type} [Monad m] [LawfulMonad m] (next : m UInt32) (attempts : ℕ)

/-- However many words are passed over, a word that is accepted stands for a face. -/
theorem ensures_face (sides : Quantity) :
    Ensures (face next sides attempts) (IsFace sides.val) := by
  induction attempts with
  | zero => exact ⟨failure, OptionT.ext (by simp [face])⟩
  | succ attempts ih =>
      refine (Ensures.trivially (next : OptionT m UInt32)).bind fun word _ => ?_
      have hword := word.toNat_lt
      dsimp only
      split
      · refine .of_pure ⟨by omega, ?_⟩
        have hquotient : word.toNat * sides.val / 0x100000000 < sides.val := by
          rw [Nat.div_lt_iff_lt_mul (by decide), Nat.mul_comm]
          exact Nat.mul_lt_mul_of_pos_left hword sides.pos
        omega
      · exact ih

variable {α : Type} [Scalar α]

theorem ensures_uniform (hneutral : ∀ x : α, Scalar.neutral + x = x) (r : Roll) :
    Ensures (uniform next attempts r) fun x : α =>
      ∃ fs, List.Forall₂ IsFace r.dice fs ∧ x = Roll.faceSum fs := by
  have hdice : r.dice = (List.replicate r.count.val r.sides).map Quantity.val :=
    List.map_replicate.symm
  refine (Ensures.mapM (ensures_face next attempts) _).bind fun fs hfs => .of_pure ⟨fs, ?_, ?_⟩
  · rw [hdice]
    exact List.forall₂_map_left_iff.2 hfs
  · exact Roll.sum_eq_faceSum hneutral fs

theorem ensures_totals (hneutral : ∀ x : α, Scalar.neutral + x = x) (rs : List Roll) :
    Ensures (rs.mapM (uniform next attempts)) fun totals : List α =>
      ∃ fs, List.Forall₂ IsFace (rs.flatMap Roll.dice) fs ∧ totals = Roll.totals rs fs := by
  induction rs with
  | nil => exact .of_pure ⟨[], .nil, rfl⟩
  | cons r rs ih =>
      rw [List.mapM_cons]
      refine (ensures_uniform next attempts hneutral r).bind ?_
      rintro _ ⟨fs, hfs, rfl⟩
      refine ih.bind ?_
      rintro _ ⟨gs, hgs, rfl⟩
      refine .of_pure ⟨fs ++ gs, List.rel_append hfs hgs, ?_⟩
      rw [Roll.totals_cons_append]
      rw [← hfs.length_eq, Roll.length_dice]

theorem ensures_one (hneutral : ∀ x : α, Scalar.neutral + x = x) (e : Expr) :
    Ensures (one (uniform next attempts) e) fun x : α =>
      ∃ fs, List.Forall₂ IsFace e.dice fs ∧ x = e.value (Roll.totals e.rolls fs) := by
  rw [one_eq_mapM]
  refine (ensures_totals next attempts hneutral e.rolls).bind ?_
  rintro _ ⟨fs, hfs, rfl⟩
  exact .of_pure ⟨fs, hfs, rfl⟩

end Sampling

namespace Enumeration

variable {α : Type} [Scalar α]

theorem exists_digits_of_faces {bs fs : List ℕ} (h : List.Forall₂ IsFace bs fs) :
    ∃ ds, List.Forall₂ (fun b d => d < b) bs ds ∧ ds.map Nat.succ = fs := by
  induction h with
  | nil => exact ⟨[], .nil, rfl⟩
  | @cons b f bs fs hf _ ih =>
      obtain ⟨ds, hds, rfl⟩ := ih
      exact ⟨(f - 1) :: ds, .cons (Nat.sub_one_lt_of_le hf.1 hf.2) hds,
        congrArg (· :: _) (Nat.sub_add_cancel hf.1)⟩

theorem faces_of_digits {bs ds : List ℕ} (h : List.Forall₂ (fun b d => d < b) bs ds) :
    List.Forall₂ IsFace bs (ds.map Nat.succ) :=
  List.forall₂_map_right_iff.2 (h.imp fun _ d hd => ⟨Nat.succ_pos d, hd⟩)

theorem mem_table {e : Expr} {x : α} : x ∈ e.table ↔
    ∃ fs, List.Forall₂ IsFace e.dice fs ∧ e.value (Roll.totals e.rolls fs) = x := by
  rw [Expr.table, MixedRadix.mem_tabulate]
  constructor
  · rintro ⟨ds, hds, rfl⟩
    exact ⟨_, faces_of_digits hds, rfl⟩
  · rintro ⟨fs, hfs, rfl⟩
    obtain ⟨ds, hds, rfl⟩ := exists_digits_of_faces hfs
    exact ⟨ds, hds, rfl⟩

/-- Whatever faces the dice show, what an expression comes to is among its outcomes. -/
theorem Gives.value_mem {cap : Cap} {e : Expr} {v : List α} (h : Gives (outcomes cap e) v)
    {fs : List ℕ} (hfs : List.Forall₂ IsFace e.dice fs) :
    e.value (Roll.totals e.rolls fs) ∈ v := by
  rw [Gives.of_walk (Gives.of_outcomes h)]
  exact mem_table.2 ⟨fs, hfs, rfl⟩

end Enumeration

section Ranges

open Extended Rounded

variable {α : Type} [ExtendedScalar α] [Rounded α]

theorem value_foldl_add {x : α} {n : ℕ} (hx : value x = number n) {fs : List ℕ}
    (h : n + fs.sum < 2 ^ 53) :
    value (fs.foldl (fun x f => x + Scalar.ofNat f) x) = number (n + fs.sum : ℕ) := by
  induction fs generalizing x n with
  | nil => simpa using hx
  | cons f fs ih =>
      rw [List.sum_cons, ← Nat.add_assoc] at h ⊢
      have hf : value (Scalar.ofNat f : α) = number f := value_ofNat (by omega)
      exact ih (Enumeration.value_add_natCast hx hf (by omega)) h

theorem Roll.value_faceSum {fs : List ℕ} (hne : fs ≠ []) (h : fs.sum < 2 ^ 53) :
    value (faceSum fs : α) = number fs.sum := by
  cases fs with
  | nil => exact absurd rfl hne
  | cons f fs =>
      rw [List.sum_cons] at h ⊢
      exact value_foldl_add (value_ofNat (by omega)) h

theorem sum_faces {bs fs : List ℕ} (h : List.Forall₂ IsFace bs fs) :
    bs.length ≤ fs.sum ∧ fs.sum ≤ bs.sum := by
  induction h with
  | nil => simp
  | cons hf _ ih =>
      obtain ⟨hlo, hhi⟩ := hf
      simp only [List.length_cons, List.sum_cons]
      omega

/-- Every roll of an expression that can be counted can be counted. -/
theorem Expr.exists_outcomeCount_of_mem_rolls {e : Expr} {r : Roll} (hr : r ∈ e.rolls) {n : ℕ}
    (h : e.outcomeCount = some n) : ∃ k, r.outcomeCount = some k := by
  induction e generalizing n with
  | roll r' =>
      cases hconstant : r'.isConstant with
      | true => simp [rolls_constant hconstant] at hr
      | false =>
          rw [rolls_roll hconstant, List.mem_singleton] at hr
          exact ⟨n, hr ▸ h⟩
  | binary l op r' ihl ihr =>
      obtain ⟨a, b, ha, hb, -, -⟩ := outcomeCount_binary.1 h
      rw [rolls_binary, List.mem_append] at hr
      rcases hr with hl | hr
      · exact ihl hl ha
      · exact ihr hr hb

end Ranges

namespace Sampling

/-- What is drawn at random is among the outcomes that are listed, and what a roll of the
expression comes to is a whole number that its dice can show, for every source of words and
however many of them are passed over. -/
theorem samples_mem_outcomes {e : Expr} {cap : Cap} {journal : Journal} {v : List Float}
    (h : ((Enumeration.outcomes cap e).run.run journal).1 = .ok v) {m : Type → Type} [Monad m]
    [LawfulMonad m] (next : m UInt32) (attempts n : ℕ) (journal' : Journal) :
    Ensures ((samples (uniform next attempts) e n).run journal').run
      (fun r => ∀ drawn ∈ r, drawn.1.length = n ∧ ∀ x ∈ drawn.1, x ∈ v) ∧
    ∀ r ∈ e.rolls, Ensures (uniform next attempts r).run fun drawn => ∀ x : Float, x ∈ drawn →
      ∃ k : ℕ, Binary64.value x = .number k ∧ r.count.val ≤ k ∧ k ≤ r.count.val * r.sides.val := by
  have hv : Enumeration.Gives (Enumeration.outcomes cap e) v := ⟨journal, h⟩
  constructor
  · apply Ensures.run_option
    have hone := (ensures_one next attempts Binary64.neutral_add e).mono
      fun x ⟨fs, hfs, hx⟩ => show x ∈ v from hx ▸ hv.value_mem hfs
    rw [run_samples]
    exact (ensures_draws hone n).map fun xs hxs => hxs
  · intro r hr
    apply Ensures.run_option
    refine (ensures_uniform next attempts Binary64.neutral_add r).mono ?_
    rintro _ ⟨fs, hfs, rfl⟩
    obtain ⟨total, htotal⟩ := hv.exists_outcomeCount
    obtain ⟨k, hk⟩ := Expr.exists_outcomeCount_of_mem_rolls hr htotal
    obtain ⟨hlo, hhi⟩ := sum_faces hfs
    rw [Roll.length_dice] at hlo
    rw [Roll.dice, List.sum_replicate, smul_eq_mul] at hhi
    have hne : fs ≠ [] := by
      rintro rfl
      have := r.count.pos
      simp at hlo
      omega
    have hsum : Rounded.value (Roll.faceSum fs : Float) = .number fs.sum :=
      Roll.value_faceSum hne (hhi.trans_lt (Enumeration.total_lt hk))
    exact ⟨fs.sum, hsum, hlo, hhi⟩

/-- Two dice with six sides from the words `0` and `2 ^ 31`, which show a one and a four. -/
theorem samples_mem_outcomes_two_dice :
    let e : Expr := .roll ⟨⟨2, by decide, by decide⟩, ⟨6, by decide, by decide⟩⟩
    let next : StateM (List UInt32) UInt32 := fun words => (words.headD 0, words.tail)
    let x : Float := Scalar.sum [Scalar.ofNat 1, Scalar.ofNat 4]
    ∃ v : List Float, ((Enumeration.outcomes none e).run.run []).1 = .ok v ∧
      (((samples (uniform next 1) e 1).run []).run.run [0, 0x80000000]).1 =
        some ([x], [startRecord e 1]) ∧ x ∈ v := by
  intro e next x
  have hdrawn : (((samples (uniform next 1) e 1).run []).run.run [0, 0x80000000]).1 =
      some ([x], [startRecord e 1]) := rfl
  have hlisted : ∃ v : List Float, ((Enumeration.outcomes none e).run.run []).1 = .ok v := ⟨_, rfl⟩
  obtain ⟨v, hv⟩ := hlisted
  refine ⟨v, hv, hdrawn, ?_⟩
  obtain ⟨hsamples, -⟩ := samples_mem_outcomes hv next 1 1 []
  exact (hsamples.run [0, 0x80000000] _ hdrawn).2 x (List.mem_singleton_self x)

end Sampling

end DiceOdds
