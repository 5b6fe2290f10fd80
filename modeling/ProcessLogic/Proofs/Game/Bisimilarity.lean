import ProcessLogic.Proofs.Game.Bisimulation
import ProcessLogic.Proofs.Game.Simulation

/-!
# Laws of bisimilarity

Bisimilarity by one kind of moves is an equivalence. A relation that answers strong attacks by weak
moves answers weak attacks as well, so the game with strong attacks decides weak bisimilarity.
-/

set_option autoImplicit false

namespace ProcessLogic

section

variable {attack defend moves : Moves} {R S : StateId → StateId → Prop} {p q r : StateId}

theorem IsBisimulation.flip (h : IsBisimulation attack defend R) :
    IsBisimulation attack defend fun p q => R q p where
  left := h.right
  right := h.left

theorem IsBisimulation.comp (hR : IsBisimulation moves moves R)
    (hS : IsBisimulation moves moves S) : IsBisimulation moves moves (Relation.Comp R S) where
  left := by
    intro p r a p' hpr step
    obtain ⟨q, hpq, hqr⟩ := hpr
    obtain ⟨q', hq, hpq'⟩ := hR.left hpq step
    obtain ⟨r', hr, hqr'⟩ := hS.left hqr hq
    exact ⟨r', hr, q', hpq', hqr'⟩
  right := by
    intro p r a r' hpr step
    obtain ⟨q, hpq, hqr⟩ := hpr
    obtain ⟨q', hq, hqr'⟩ := hS.right hqr step
    obtain ⟨p', hp, hpq'⟩ := hR.right hpq hq
    exact ⟨p', hp, q', hpq', hqr'⟩

/-- More answers keep a bisimulation. -/
theorem IsBisimulation.answers {defend' : Moves} (h : IsBisimulation attack defend R)
    (hweaker : ∀ s a t, defend s a t → defend' s a t) : IsBisimulation attack defend' R where
  left := by
    intro p q a p' hpq step
    obtain ⟨q', hq, hpq'⟩ := h.left hpq step
    exact ⟨q', hweaker _ _ _ hq, hpq'⟩
  right := by
    intro p q a q' hpq step
    obtain ⟨p', hp, hpq'⟩ := h.right hpq step
    exact ⟨p', hweaker _ _ _ hp, hpq'⟩

theorem Bisimilar.refl (hweaker : ∀ s a t, attack s a t → defend s a t) (p : StateId) :
    Bisimilar attack defend p p := by
  refine ⟨Eq, ⟨?_, ?_⟩, rfl⟩
  · intro p q a p' hpq step
    exact ⟨p', hweaker _ _ _ (hpq ▸ step), rfl⟩
  · intro p q a q' hpq step
    exact ⟨q', hweaker _ _ _ (hpq ▸ step), rfl⟩

theorem Bisimilar.symm (h : Bisimilar attack defend p q) : Bisimilar attack defend q p := by
  obtain ⟨R, hR, hpq⟩ := h
  exact ⟨fun p q => R q p, hR.flip, hpq⟩

theorem Bisimilar.trans (hpq : Bisimilar moves moves p q) (hqr : Bisimilar moves moves q r) :
    Bisimilar moves moves p r := by
  obtain ⟨R, hR, hpq⟩ := hpq
  obtain ⟨S, hS, hqr⟩ := hqr
  exact ⟨Relation.Comp R S, hR.comp hS, q, hpq, hqr⟩

end

section

variable {l : Lts} {R : StateId → StateId → Prop} {p q : StateId}

theorem isBisimulation_weak_iff :
    IsBisimulation l.Step l.WeakStep R ↔ IsBisimulation l.WeakStep l.WeakStep R := by
  rw [isBisimulation_iff, isBisimulation_iff]
  exact and_congr simulates_weak_iff simulates_weak_iff

/-- A strong bisimulation is one for the moves of either strength. -/
theorem IsBisimulation.move (h : IsBisimulation l.Step l.Step R) (strength : Strength) :
    IsBisimulation (l.Move strength) (l.Move strength) R := by
  obtain ⟨hleft, hright⟩ := isBisimulation_iff.mp h
  exact isBisimulation_iff.mpr ⟨hleft.move strength, hright.move strength⟩

theorem bisimilar_weak_iff :
    Bisimilar l.Step l.WeakStep p q ↔ Bisimilar l.WeakStep l.WeakStep p q :=
  exists_congr fun _ => and_congr_left fun _ => isBisimulation_weak_iff

/-- Answers that are no stronger than the attacks make bisimilarity transitive. -/
theorem Bisimilar.trans_move {attack defend : Strength} {r : StateId}
    (hweaker : attack = .strong ∨ defend = .weak)
    (hpq : Bisimilar (l.Move attack) (l.Move defend) p q)
    (hqr : Bisimilar (l.Move attack) (l.Move defend) q r) :
    Bisimilar (l.Move attack) (l.Move defend) p r := by
  cases attack with
  | strong =>
    cases defend with
    | strong => exact hpq.trans hqr
    | weak =>
      apply bisimilar_weak_iff.mpr
      exact (bisimilar_weak_iff.mp hpq).trans (bisimilar_weak_iff.mp hqr)
  | weak =>
    rcases hweaker with h | rfl
    · cases h
    · exact hpq.trans hqr

/-- Weak attacks do not tell more states apart than strong attacks do, if answers are weak. -/
theorem bisimilar_value_weak_attack (hl : l.InRange) (hp : p < l.stateCount)
    (hq : q < l.stateCount) :
    ∃ verdict, (bisimilar (l.generator .strong) (l.generator .weak) p q).value = .ok verdict ∧
      (bisimilar (l.generator .weak) (l.generator .weak) p q).value = .ok verdict := by
  classical
  refine ⟨_, bisimilar_value hl hp hq .strong .weak, ?_⟩
  rw [bisimilar_value hl hp hq]
  exact congrArg Except.ok (decide_eq_decide.mpr bisimilar_weak_iff.symm)

end

theorem bisimilar_value_weak_attack_hesitant :
    Lts.hesitant.InRange ∧ 0 < Lts.hesitant.stateCount ∧ 2 < Lts.hesitant.stateCount ∧
      ∃ verdict, (bisimilar (Lts.hesitant.generator .strong) (Lts.hesitant.generator .weak)
          0 2).value = .ok verdict ∧
        (bisimilar (Lts.hesitant.generator .weak) (Lts.hesitant.generator .weak) 0 2).value =
          .ok verdict :=
  ⟨by decide, by decide, by decide,
    bisimilar_value_weak_attack (by decide) (by decide) (by decide)⟩

end ProcessLogic
