import ProcessLogic.Game.Bisimilarity

/-!
# Systems that answer each other

A simulation answers the moves of one system by moves of another, label by label. It answers weak
moves as soon as it answers single steps, and so it answers traces of either kind. Where both systems
answer each other, related states have the same traces and the same bisimilarities.
-/

set_option autoImplicit false

namespace ProcessLogic

/-- Every move of a state is answered by the states related to it. -/
def Simulates (moves answers : Moves) (R : StateId → StateId → Prop) : Prop :=
  ∀ ⦃s t a s'⦄, R s t → moves s a s' → ∃ t', answers t a t' ∧ R s' t'

section

variable {l u : Lts} {R : StateId → StateId → Prop} {s s' t : StateId} {a : String}

theorem Lts.WeakStep.tauSteps (h : l.WeakStep s tau s') : l.TauSteps s s' := by
  cases h with
  | silent steps => exact steps
  | visible ha => exact absurd rfl ha

/-- Internal moves are answered one by one, and the answers are chained. -/
theorem Simulates.tauSteps (h : Simulates l.Step u.WeakStep R) (hst : R s t)
    (steps : l.TauSteps s s') : ∃ t', u.TauSteps t t' ∧ R s' t' := by
  induction steps with
  | refl => exact ⟨t, .refl t, hst⟩
  | tail _ step ih =>
    obtain ⟨t₁, before, ht₁⟩ := ih
    obtain ⟨t', answer, ht'⟩ := h ht₁ step
    exact ⟨t', before.trans answer.tauSteps, ht'⟩

/-- Who answers single steps by weak moves answers weak moves as well. -/
theorem simulates_weak_iff :
    Simulates l.Step u.WeakStep R ↔ Simulates l.WeakStep u.WeakStep R := by
  constructor
  · intro h s t a s' hst step
    cases step with
    | silent steps =>
      obtain ⟨t', answer, ht'⟩ := h.tauSteps hst steps
      exact ⟨t', .silent answer, ht'⟩
    | visible _ before step after =>
      -- the three parts of the step are answered in turn
      obtain ⟨t₁, hbefore, ht₁⟩ := h.tauSteps hst before
      obtain ⟨t₂, hstep, ht₂⟩ := h ht₁ step
      obtain ⟨t', hafter, ht'⟩ := h.tauSteps ht₂ after
      exact ⟨t', hstep.extend hbefore hafter, ht'⟩
  · intro h s t a s' hst step
    exact h hst step.weak

theorem Simulates.move (h : Simulates l.Step u.Step R) (strength : Strength) :
    Simulates (l.Move strength) (u.Move strength) R := by
  cases strength with
  | strong => exact h
  | weak =>
    apply simulates_weak_iff.mp
    intro s t a s' hst step
    obtain ⟨t', answer, ht'⟩ := h hst step
    exact ⟨t', answer.weak, ht'⟩

end

section

variable {attack attack' defend defend' moves moves' : Moves} {R S : StateId → StateId → Prop}
  {s t p p' q q' : StateId} {trace : List String}

theorem Simulates.performs (h : Simulates moves moves' R) (hst : R s t)
    (hs : Performs moves s trace) : Performs moves' t trace := by
  induction hs generalizing t with
  | nil => exact .nil t
  | cons step _ ih =>
    obtain ⟨t', answer, hst'⟩ := h hst step
    exact .cons answer (ih hst')

/-- A bisimulation is a simulation from either side. -/
theorem isBisimulation_iff : IsBisimulation attack defend R ↔
    Simulates attack defend R ∧ Simulates attack defend fun q p => R p q := by
  constructor
  · intro h
    exact ⟨fun _ _ _ _ => h.left, fun _ _ _ _ => h.right⟩
  · rintro ⟨hleft, hright⟩
    exact ⟨fun hpq step => hleft hpq step, fun hpq step => hright hpq step⟩

/-- Related states answer each other's moves. -/
structure Couples (moves moves' : Moves) (R : StateId → StateId → Prop) : Prop where
  forth : Simulates moves moves' R
  back : Simulates moves' moves fun t s => R s t

theorem Couples.flip (h : Couples moves moves' R) : Couples moves' moves fun t s => R s t :=
  ⟨h.back, h.forth⟩

theorem IsBisimulation.couples (h : IsBisimulation moves moves R) : Couples moves moves R :=
  ⟨(isBisimulation_iff.mp h).1, (isBisimulation_iff.mp h).2⟩

theorem Couples.move {l u : Lts} (h : Couples l.Step u.Step R) (strength : Strength) :
    Couples (l.Move strength) (u.Move strength) R :=
  ⟨h.forth.move strength, h.back.move strength⟩

theorem Couples.performs_iff (h : Couples moves moves' R) (hst : R s t) :
    Performs moves s trace ↔ Performs moves' t trace :=
  ⟨h.forth.performs hst, h.back.performs hst⟩

theorem Couples.tracesIncluded_iff (hattack : Couples attack attack' R)
    (hdefend : Couples defend defend' R) (hp : R p p') (hq : R q q') :
    TracesIncluded attack defend p q ↔ TracesIncluded attack' defend' p' q' :=
  forall_congr' fun _ => imp_congr (hattack.performs_iff hp) (hdefend.performs_iff hq)

/-- A bisimulation in one system is carried over to the states of the other. -/
theorem Couples.isBisimulation (hattack : Couples attack attack' R)
    (hdefend : Couples defend defend' R) (hS : IsBisimulation attack defend S) :
    IsBisimulation attack' defend' fun p' q' => ∃ p q, R p p' ∧ R q q' ∧ S p q where
  left := by
    intro p' q' a p₁' h step
    obtain ⟨p, q, hp, hq, hpq⟩ := h
    obtain ⟨p₁, attacked, hp₁⟩ := hattack.back hp step
    obtain ⟨q₁, answered, hpq₁⟩ := hS.left hpq attacked
    obtain ⟨q₁', answer, hq₁⟩ := hdefend.forth hq answered
    exact ⟨q₁', answer, p₁, q₁, hp₁, hq₁, hpq₁⟩
  right := by
    intro p' q' a q₁' h step
    obtain ⟨p, q, hp, hq, hpq⟩ := h
    obtain ⟨q₁, attacked, hq₁⟩ := hattack.back hq step
    obtain ⟨p₁, answered, hpq₁⟩ := hS.right hpq attacked
    obtain ⟨p₁', answer, hp₁⟩ := hdefend.forth hp answered
    exact ⟨p₁', answer, p₁, q₁, hp₁, hq₁, hpq₁⟩

theorem Couples.bisimilar (hattack : Couples attack attack' R) (hdefend : Couples defend defend' R)
    (hp : R p p') (hq : R q q') (h : Bisimilar attack defend p q) :
    Bisimilar attack' defend' p' q' := by
  obtain ⟨S, hS, hpq⟩ := h
  exact ⟨_, hattack.isBisimulation hdefend hS, p, q, hp, hq, hpq⟩

theorem Couples.bisimilar_iff (hattack : Couples attack attack' R)
    (hdefend : Couples defend defend' R) (hp : R p p') (hq : R q q') :
    Bisimilar attack defend p q ↔ Bisimilar attack' defend' p' q' :=
  ⟨hattack.bisimilar hdefend hp hq, hattack.flip.bisimilar hdefend.flip hp hq⟩

end

end ProcessLogic
