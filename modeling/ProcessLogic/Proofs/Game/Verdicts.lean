import ProcessLogic.Proofs.Game.Collapse
import ProcessLogic.Proofs.Game.Inclusion

/-!
# What the verdicts say of each other

The comparisons start from an ordered pair of states and build graphs of their own for each. Still
their verdicts make up an equivalence, strong verdicts carry over to weak ones, and bisimilar states
are found to include each other's traces. Where a label never leads to two states, equal traces are
all there is to bisimilarity.
-/

set_option autoImplicit false

namespace ProcessLogic

/-- No state has two moves with the same label to different targets. -/
def Deterministic (moves : Moves) : Prop := ∀ s a t t', moves s a t → moves s a t' → t = t'

section

variable {attack defend moves : Moves} {p p' q q' : StateId} {a : String}

theorem TracesIncluded.exists_answer (h : TracesIncluded attack defend p q)
    (step : attack p a p') : ∃ q', defend q a q' := by
  cases h [a] (.cons step (.nil p')) with
  | cons answer _ => exact ⟨_, answer⟩

/-- There is one way to go on by a label, so what the states include they include after it. -/
theorem TracesIncluded.after (hmoves : Deterministic moves) (h : TracesIncluded moves moves p q)
    (hp : moves p a p') (hq : moves q a q') : TracesIncluded moves moves p' q' := by
  intro trace hp'
  cases h (a :: trace) (.cons hp hp') with
  | cons answer hq₁ =>
    rw [hmoves q a q' _ hq answer]
    exact hq₁

theorem isBisimulation_tracesIncluded (hmoves : Deterministic moves) :
    IsBisimulation moves moves fun p q =>
      TracesIncluded moves moves p q ∧ TracesIncluded moves moves q p where
  left := by
    intro p q a p' h step
    obtain ⟨q', answer⟩ := h.1.exists_answer step
    exact ⟨q', answer, h.1.after hmoves step answer, h.2.after hmoves answer step⟩
  right := by
    intro p q a q' h step
    obtain ⟨p', answer⟩ := h.2.exists_answer step
    exact ⟨p', answer, h.1.after hmoves answer step, h.2.after hmoves step answer⟩

theorem bisimilar_iff_tracesIncluded (hmoves : Deterministic moves) :
    Bisimilar moves moves p q ↔
      TracesIncluded moves moves p q ∧ TracesIncluded moves moves q p :=
  ⟨fun h => ⟨h.tracesIncluded, h.symm.tracesIncluded⟩,
    fun h => ⟨_, isBisimulation_tracesIncluded hmoves, h⟩⟩

end

theorem Lts.deterministic_iff (l : Lts) : Deterministic l.Step ↔
    ∀ row ∈ l.rows.toList, ∀ e ∈ row, ∀ e' ∈ row, e.label = e'.label → e.target = e'.target := by
  constructor
  · intro h row hrow e he e' he' hlabel
    obtain ⟨s, hs⟩ := List.mem_iff_getElem?.mp hrow
    have hs : l.rows[s]? = some row := by simpa using hs
    exact h s e.label e.target e'.target ⟨row, hs, he⟩ ⟨row, hs, hlabel ▸ he'⟩
  · rintro h s a t t' ⟨row, hrow, ht⟩ ⟨row', hrow', ht'⟩
    obtain rfl := Option.some.inj (hrow.symm.trans hrow')
    exact h row (Array.mem_toList_iff.mpr (Array.mem_of_getElem? hrow)) _ ht _ ht' rfl

instance (l : Lts) : Decidable (Deterministic l.Step) := decidable_of_iff _ l.deterministic_iff.symm

section

variable {l : Lts} {p q : StateId}

/-- Being found bisimilar is an equivalence of states, and states found strongly bisimilar are found
weakly bisimilar. -/
theorem bisimilar_value_equivalence (hl : l.InRange) :
    (∀ defend, (∀ p q : Fin l.stateCount, ∃ verdict,
        (bisimilar (l.generator .strong) (l.generator defend) p q).value = .ok verdict) ∧
      Equivalence fun p q : Fin l.stateCount =>
        (bisimilar (l.generator .strong) (l.generator defend) p q).value = .ok true) ∧
    ∀ p q : Fin l.stateCount,
      (bisimilar (l.generator .strong) (l.generator .strong) p q).value = .ok true →
        (bisimilar (l.generator .strong) (l.generator .weak) p q).value = .ok true := by
  classical
  have hiff : ∀ (defend : Strength) (p q : Fin l.stateCount),
      (bisimilar (l.generator .strong) (l.generator defend) p q).value = .ok true ↔
        Bisimilar (l.Move .strong) (l.Move defend) p q := by
    intro defend p q
    rw [bisimilar_value hl p.isLt q.isLt, Except.ok.injEq, decide_eq_true_iff]
  refine ⟨fun defend => ⟨fun p q => ?_, ?_⟩, fun p q h => ?_⟩
  · exact ⟨_, bisimilar_value hl p.isLt q.isLt .strong defend⟩
  · simp only [hiff]
    exact (equivalence_bisimilar (.inl rfl)).comap Fin.val
  · rw [hiff] at h ⊢
    obtain ⟨R, hR, hpq⟩ := h
    exact ⟨R, hR.answers fun _ _ _ step => step.weak, hpq⟩

theorem bisimilar_value_equivalence_hesitant :
    Lts.hesitant.InRange ∧
      (∀ defend, (∀ p q : Fin Lts.hesitant.stateCount, ∃ verdict,
          (bisimilar (Lts.hesitant.generator .strong) (Lts.hesitant.generator defend) p q).value =
            .ok verdict) ∧
        Equivalence fun p q : Fin Lts.hesitant.stateCount =>
          (bisimilar (Lts.hesitant.generator .strong) (Lts.hesitant.generator defend) p q).value =
            .ok true) ∧
      ∀ p q : Fin Lts.hesitant.stateCount,
        (bisimilar (Lts.hesitant.generator .strong) (Lts.hesitant.generator .strong) p q).value =
          .ok true →
        (bisimilar (Lts.hesitant.generator .strong) (Lts.hesitant.generator .weak) p q).value =
          .ok true :=
  ⟨by decide, bisimilar_value_equivalence (by decide)⟩

/-- States found bisimilar are found to include each other's traces. The converse holds if no state
has two transitions with the same label to different targets. -/
theorem bisimilar_value_traceIncluded (hl : l.InRange) (hp : p < l.stateCount)
    (hq : q < l.stateCount) :
    (∀ attack defend, (bisimilar (l.generator attack) (l.generator defend) p q).value = .ok true →
      (traceIncluded (l.generator attack) (l.generator defend) p q).value = .ok true ∧
        (traceIncluded (l.generator attack) (l.generator defend) q p).value = .ok true) ∧
    (Deterministic l.Step →
      ((bisimilar (l.generator .strong) (l.generator .strong) p q).value = .ok true ↔
        (traceIncluded (l.generator .strong) (l.generator .strong) p q).value = .ok true ∧
          (traceIncluded (l.generator .strong) (l.generator .strong) q p).value = .ok true)) := by
  classical
  simp only [bisimilar_value hl hp hq, traceIncluded_value hl hp hq, traceIncluded_value hl hq hp,
    Except.ok.injEq, decide_eq_true_iff]
  exact ⟨fun attack defend h => ⟨h.tracesIncluded, h.symm.tracesIncluded⟩,
    bisimilar_iff_tracesIncluded⟩

theorem bisimilar_value_traceIncluded_hesitant :
    Lts.hesitant.InRange ∧ 1 < Lts.hesitant.stateCount ∧ 2 < Lts.hesitant.stateCount ∧
      (bisimilar (Lts.hesitant.generator .strong) (Lts.hesitant.generator .weak) 1 2).value =
        .ok true ∧
      ((traceIncluded (Lts.hesitant.generator .strong) (Lts.hesitant.generator .weak) 1 2).value =
          .ok true ∧
        (traceIncluded (Lts.hesitant.generator .strong) (Lts.hesitant.generator .weak) 2 1).value =
          .ok true) ∧
      Deterministic Lts.hesitant.Step ∧
      ((bisimilar (Lts.hesitant.generator .strong) (Lts.hesitant.generator .strong) 1 2).value =
          .ok true ↔
        (traceIncluded (Lts.hesitant.generator .strong) (Lts.hesitant.generator .strong) 1 2).value =
            .ok true ∧
          (traceIncluded (Lts.hesitant.generator .strong) (Lts.hesitant.generator .strong)
            2 1).value = .ok true) := by
  have h := bisimilar_value_traceIncluded (l := Lts.hesitant) (p := 1) (q := 2) (by decide)
    (by decide) (by decide)
  exact ⟨by decide, by decide, by decide, by decide +kernel, h.1 .strong .weak (by decide +kernel),
    by decide, h.2 (by decide)⟩

-- without the condition, equal traces are not enough
example : (traceIncluded (Lts.choosing.generator .strong) (Lts.choosing.generator .strong)
      0 2).value = .ok true ∧
    (traceIncluded (Lts.choosing.generator .strong) (Lts.choosing.generator .strong)
      2 0).value = .ok true ∧
    (bisimilar (Lts.choosing.generator .strong) (Lts.choosing.generator .strong)
      0 2).value = .ok false := by
  decide +kernel

end

end ProcessLogic
