import ProcessLogic.Proofs.Game.Bisimilarity
import ProcessLogic.Proofs.Game.Distinction

/-!
# Distinguishing formulas are as shallow as can be

Each round of the game is worth one modality. A formula that tells two states apart lets the
attacker win within as many rounds as it is deep, and the formula extracted from a game is no deeper
than the game is long. So its depth is half the level of the pair, and no formula without names and
weak modalities that tells the states apart is less deep.
-/

set_option autoImplicit false

namespace ProcessLogic

namespace Formula

/-- Built from constants and junctions by strong modalities. -/
inductive IsModal : Formula → Prop where
  | const (value : Bool) : IsModal (.const value)
  | modal (q : Quantifier) (a : Act) {f : Formula} : IsModal f → IsModal (.modal q .strong a f)
  | junction (q : Quantifier) {fs : List Formula} : (∀ f ∈ fs, IsModal f) →
      IsModal (.junction q fs)

mutual

/-- The greatest number of modalities inside one another. -/
def modalDepth : Formula → Nat
  | .const _ | .var _ => 0
  | .modal _ _ _ f => f.modalDepth + 1
  | .junction _ fs => modalDepths fs
  | .fix _ _ f => f.modalDepth

def modalDepths : List Formula → Nat
  | [] => 0
  | f :: fs => max f.modalDepth (modalDepths fs)

end

variable {f : Formula} {fs : List Formula} {k : Nat}

theorem modalDepths_le_iff : modalDepths fs ≤ k ↔ ∀ f ∈ fs, f.modalDepth ≤ k := by
  induction fs with
  | nil => simp [modalDepths]
  | cons f fs ih => rw [modalDepths, max_le_iff, ih, List.forall_mem_cons]

theorem modalDepth_join (q : Quantifier) : (join q fs).modalDepth = modalDepths fs := by
  match fs with
  | [] => rfl
  | [f] => simp [join, modalDepths]
  | _ :: _ :: _ => rfl

theorem IsModal.join (q : Quantifier) (h : ∀ f ∈ fs, f.IsModal) : (Formula.join q fs).IsModal := by
  match fs with
  | [] => exact .const _
  | [f] => exact h f List.mem_cons_self
  | _ :: _ :: _ => exact .junction q h

theorem IsModal.plain (h : f.IsModal) : f.Plain := by
  induction h with
  | const value => exact fun _ _ => rfl
  | modal q a _ ih => exact ih.modal
  | junction q _ ih => exact Plain.junction ih

end Formula

theorem modalDepth_side_formula (side : Side) (label : String) (fs : List Formula) :
    (side.formula label fs).modalDepth = Formula.modalDepths fs + 1 := by
  cases side with
  | left => rw [Side.formula, Formula.modalDepth, Formula.modalDepth_join]
  | right => rw [Side.formula, Formula.modalDepth, Formula.modalDepth_join]

theorem isModal_side_formula (side : Side) (label : String) {fs : List Formula}
    (h : ∀ f ∈ fs, f.IsModal) : (side.formula label fs).IsModal := by
  cases side with
  | left => exact .modal _ _ (.join _ h)
  | right => exact .modal _ _ (.join _ h)

section

variable {l : Lts} {p q : StateId} {f : Formula} {v : Valuation} {attack defend : Strength}

theorem stage_pair {next : Position} {k : Nat}
    (hnext : [next] ∈ gameEquations (l.generator attack) (l.generator defend) (.pair p q))
    (h : Stage (gameEquations (l.generator attack) (l.generator defend)) k next) :
    Stage (gameEquations (l.generator attack) (l.generator defend)) (k + 1) (.pair p q) := by
  refine ⟨[next], hnext, fun u hu => ?_⟩
  rw [List.mem_singleton.mp hu]
  exact h

theorem stage_move {side : Side} {label : String} {target other : StateId} {k : Nat}
    (hl : l.InRange) (hother : other < l.stateCount)
    (h : ∀ t, l.Move defend other label t →
      Stage (gameEquations (l.generator attack) (l.generator defend)) k (side.answer target t)) :
    Stage (gameEquations (l.generator attack) (l.generator defend)) (k + 1)
      (.move side label target other) := by
  refine ⟨_, List.mem_cons_self, fun next hnext => ?_⟩
  obtain ⟨t, ht, rfl⟩ := mem_answers.mp hnext
  exact h t ((Lts.mem_transitions_generator hl hother).mp ht)

/-- A junction that tells two states apart has a part that does. -/
theorem exists_part_of_junction {quantifier : Quantifier} {fs : List Formula}
    (hleft : (Formula.junction quantifier fs).Holds l.Move v p)
    (hright : ¬ (Formula.junction quantifier fs).Holds l.Move v q) :
    ∃ f ∈ fs, f.Holds l.Move v p ∧ ¬ f.Holds l.Move v q := by
  cases quantifier with
  | any =>
    obtain ⟨f, hf, hholds⟩ := Formula.holdsAny_iff.mp hleft
    exact ⟨f, hf, hholds, fun h => hright (Formula.holdsAny_iff.mpr ⟨f, hf, h⟩)⟩
  | all =>
    by_contra hnone
    apply hright
    apply Formula.holdsAll_iff.mpr
    intro f hf
    by_contra h
    exact hnone ⟨f, hf, Formula.holdsAll_iff.mp hleft f hf, h⟩

theorem exists_move_of_not_box {strength : Strength} {a : Act}
    (h : ¬ (Formula.modal .all strength a f).Holds l.Move v q) :
    ∃ b q', l.Move strength q b q' ∧ a.matches b = true ∧ ¬ f.Holds l.Move v q' := by
  by_contra hnone
  apply h
  intro b q' step hab
  by_contra hq'
  exact hnone ⟨b, q', step, hab, hq'⟩

/-- A formula that tells two states apart wins the game in as many rounds as it is deep. -/
theorem stage_of_holds (hl : l.InRange) (hf : f.IsModal) (hp : p < l.stateCount)
    (hq : q < l.stateCount) (hleft : f.Holds l.Move v p) (hright : ¬ f.Holds l.Move v q) :
    Stage (gameEquations (l.generator .strong) (l.generator .strong)) (2 * f.modalDepth)
      (.pair p q) := by
  induction hf generalizing p q with
  | const value => exact absurd hleft hright
  | @modal quantifier a f _ ih =>
    cases quantifier with
    | any =>
      -- the left side makes the move that the formula speaks about
      obtain ⟨b, p', step, hab, hp'⟩ := hleft
      have hmove : ⟨b, p'⟩ ∈ (l.generator .strong).transitions p :=
        (Lts.mem_transitions_generator hl hp).mpr step
      apply stage_pair (List.mem_append_left _ (mem_attacks.mpr ⟨_, hmove, rfl⟩))
      apply stage_move hl hq
      intro q' answer
      refine ih (hl _ _ _ step) (hl _ _ _ answer) hp' fun hq' => ?_
      exact hright ⟨b, q', answer, hab, hq'⟩
    | all =>
      -- the right side makes a move that the formula forbids
      obtain ⟨b, q', step, hab, hq'⟩ := exists_move_of_not_box hright
      have hmove : ⟨b, q'⟩ ∈ (l.generator .strong).transitions q :=
        (Lts.mem_transitions_generator hl hq).mpr step
      apply stage_pair (List.mem_append_right _ (mem_attacks.mpr ⟨_, hmove, rfl⟩))
      apply stage_move hl hp
      intro p' answer
      exact ih (hl _ _ _ answer) (hl _ _ _ step) (hleft b p' answer hab) hq'
  | @junction quantifier fs hfs ih =>
    obtain ⟨f, hf, hpf, hqf⟩ := exists_part_of_junction hleft hright
    have hdepth : f.modalDepth ≤ Formula.modalDepths fs :=
      Formula.modalDepths_le_iff.mp (Nat.le_refl _) f hf
    exact (ih f hf hp hq hpf hqf).mono (Nat.mul_le_mul_left 2 hdepth)

/-- A move is half a round ahead of a pair. -/
def Position.ahead : Position → Nat
  | .pair .. => 0
  | .move .. => 1

/-- Modal, and at most half as deep as any stage of the position. -/
def Shallow (l : Lts) (attack defend : Strength) (pos : Position) (f : Formula) : Prop :=
  f.IsModal ∧ ∀ k, Stage (gameEquations (l.generator attack) (l.generator defend)) k pos →
    2 * f.modalDepth ≤ k + pos.ahead

theorem ahead_of_attack {next : Position}
    (h : [next] ∈ gameEquations (l.generator attack) (l.generator defend) (.pair p q)) :
    next.ahead = 1 := by
  obtain ⟨_, _, _, _, heq⟩ := exists_move_of_attack h
  rw [List.singleton_injective heq]
  rfl

theorem Side.ahead_answer (side : Side) (target t : StateId) :
    (side.answer target t).ahead = 0 := by
  cases side <;> rfl

theorem extractable_shallow : Extractable l attack defend (Shallow l attack defend) where
  pair := by
    intro p q next f _ _ hnext hlower hf
    refine ⟨hf.1, fun k hk => ?_⟩
    cases k with
    | zero => exact hk.elim
    | succ k =>
      have hdepth := hf.2 k (hlower k hk)
      rw [ahead_of_attack hnext] at hdepth
      exact hdepth
  move := by
    intro side label target other fs _ h
    have hof : ∀ f ∈ fs, ∃ t, Shallow l attack defend (side.answer target t) f ∧
        side.answer target t ∈
          answers side label target ((l.generator defend).transitions other) := by
      intro f hf
      obtain ⟨pos, hpos, hshallow⟩ := exists_left_of_forall₂ h hf
      obtain ⟨t, -, rfl⟩ := mem_answers.mp hpos
      exact ⟨t, hshallow, hpos⟩
    constructor
    · apply isModal_side_formula
      intro f hf
      obtain ⟨t, hshallow, -⟩ := hof f hf
      exact hshallow.1
    · intro k hk
      cases k with
      | zero => exact hk.elim
      | succ k =>
        obtain ⟨us, hus, hstages⟩ := hk
        rw [List.mem_singleton.mp hus] at hstages
        have hdepths : Formula.modalDepths fs ≤ k / 2 := by
          apply Formula.modalDepths_le_iff.mpr
          intro f hf
          obtain ⟨t, hshallow, hanswer⟩ := hof f hf
          have hdepth := hshallow.2 k (hstages _ hanswer)
          rw [Side.ahead_answer] at hdepth
          omega
        rw [modalDepth_side_formula]
        show _ ≤ k + 1 + 1
        omega

/-- Checking finds the formula to hold at the first state and to fail at the second. -/
def Lts.Separates (l : Lts) (f : Formula) (p q : StateId) : Prop :=
  (l.check p f).value = .ok (.ok true) ∧ (l.check q f).value = .ok (.ok false)

theorem separates_iff (hl : l.InRange) (hf : f.IsModal) (hp : p < l.stateCount)
    (hq : q < l.stateCount) (v : Valuation) :
    l.Separates f p q ↔ f.Holds l.Move v p ∧ ¬ f.Holds l.Move v q := by
  classical
  have hdefinitions : f.definitions = .ok [] := hf.plain [] []
  rw [Lts.Separates, check_value hl hdefinitions hp v, check_value hl hdefinitions hq v]
  simp only [Except.ok.injEq, decide_eq_true_iff, decide_eq_false_iff_not]

theorem stage_of_separates (hl : l.InRange) (hf : f.IsModal) (hp : p < l.stateCount)
    (hq : q < l.stateCount) (h : l.Separates f p q) :
    Stage (gameEquations (l.generator .strong) (l.generator .strong)) (2 * f.modalDepth)
      (.pair p q) := by
  obtain ⟨hleft, hright⟩ := (separates_iff hl hf hp hq fun _ _ => False).mp h
  exact stage_of_holds hl hf hp hq hleft hright

/-- The formula for two states is half as deep as the level of their pair, and no modal formula that
tells them apart is less deep. -/
theorem distinguish_least_depth (hl : l.InRange) (hp : p < l.stateCount) (hq : q < l.stateCount)
    (h : ¬ Bisimilar l.Step l.Step p q) :
    ∃ g levels f,
      (solveLevels (Game.ofPair (l.generator .strong) (l.generator .strong) p q)).value =
        .ok (g, levels) ∧
      (distinguish (l.generator .strong) (l.generator .strong) p q).value = .ok (.ok f) ∧
      levels.level root = .finite (2 * f.modalDepth) ∧
      f.IsModal ∧ l.Separates f p q ∧
      ∀ f' : Formula, f'.IsModal → f'.modalDepth < f.modalDepth → ¬ l.Separates f' p q := by
  have hsatisfied : Satisfied (gameEquations (l.generator .strong) (l.generator .strong))
      (.pair p q) :=
    (satisfied_pair_iff hl hp hq).mpr h
  obtain ⟨t, levels, hlevels, hlevelled, hroot, -⟩ := levels_value hl hp hq .strong .strong
  obtain ⟨f, hfound, hmodal, hshallow⟩ :=
    distinguish_extracts hl hp hq extractable_shallow hsatisfied
  obtain ⟨f', hfound', htells⟩ :=
    distinguish_extracts hl hp hq (extractable_tells hl fun _ _ _ => id) hsatisfied
  obtain rfl : f = f' := Except.ok.inj (Except.ok.inj (hfound.symm.trans hfound'))
  have hseparates : l.Separates f p q := (htells.distinguishes hl hp hq).check rfl
  have hstage := stage_of_separates hl hmodal hp hq hseparates
  refine ⟨_, levels, f, hlevels, hfound, ?_, hmodal, hseparates, ?_⟩
  · apply Level.eq_finite_iff.mpr
    constructor
    · exact (hlevelled.level_iff root _ _ hroot).mpr hstage
    · intro k hk
      exact hshallow k ((hlevelled.level_iff root _ k hroot).mp hk)
  · intro g hg hless hseparated
    have hdepth : 2 * f.modalDepth ≤ 2 * g.modalDepth :=
      hshallow _ (stage_of_separates hl hg hp hq hseparated)
    omega

end

theorem distinguish_least_depth_choosing :
    Lts.choosing.InRange ∧ 0 < Lts.choosing.stateCount ∧ 2 < Lts.choosing.stateCount ∧
      ¬ Bisimilar Lts.choosing.Step Lts.choosing.Step 0 2 ∧
      ∃ g levels f,
        (solveLevels (Game.ofPair (Lts.choosing.generator .strong) (Lts.choosing.generator .strong)
          0 2)).value = .ok (g, levels) ∧
        (distinguish (Lts.choosing.generator .strong) (Lts.choosing.generator .strong)
          0 2).value = .ok (.ok f) ∧
        levels.level root = .finite (2 * f.modalDepth) ∧
        f.IsModal ∧ Lts.choosing.Separates f 0 2 ∧
        ∀ f' : Formula, f'.IsModal → f'.modalDepth < f.modalDepth →
          ¬ Lts.choosing.Separates f' 0 2 := by
  have hl : Lts.choosing.InRange := by decide
  have hp : 0 < Lts.choosing.stateCount := by decide
  have hq : 2 < Lts.choosing.stateCount := by decide
  have hverdict : (bisimilar (Lts.choosing.generator .strong) (Lts.choosing.generator .strong)
      0 2).value = .ok false := by decide +kernel
  classical
  rw [bisimilar_value hl hp hq] at hverdict
  have hnot : ¬ Bisimilar Lts.choosing.Step Lts.choosing.Step 0 2 :=
    of_decide_eq_false (Except.ok.inj hverdict)
  exact ⟨hl, hp, hq, hnot, distinguish_least_depth hl hp hq hnot⟩

/-- One label does not tell the two states apart, and the next one does. -/
example : (distinguish (Lts.choosing.generator .strong) (Lts.choosing.generator .strong)
    0 2).value = .ok (.ok (.modal .any .strong (.label "a") (.junction .all
      [.modal .any .strong (.label "c") (.const true),
        .modal .any .strong (.label "b") (.const true)]))) := by
  cbv

end ProcessLogic
