import ProcessLogic.Proofs.Formula.Weakening
import ProcessLogic.Proofs.Game.Simulation

/-!
# Formulas along a relation

Where the states of two systems answer each other's moves, related states satisfy the same formulas.
Only the moves that a formula uses have to be answered.
-/

set_option autoImplicit false

namespace ProcessLogic

/-- What the first valuation says of a state, the second says of all states related to it. -/
def Valuation.Carries (R : StateId → StateId → Prop) (v w : Valuation) : Prop :=
  ∀ x s t, R s t → v x s → w x t

variable {R : StateId → StateId → Prop} {moves moves' : Strength → Moves} {v w : Valuation}
  {f : Formula} {s t : StateId}

theorem Valuation.Carries.set (h : Valuation.Carries R v w) {P Q : StateId → Prop} (x : String)
    (hPQ : ∀ s t, R s t → P s → Q t) : Valuation.Carries R (v.set x P) (w.set x Q) := by
  intro y s t hst hs
  by_cases hyx : y = x
  · rw [hyx, Valuation.set_same] at hs ⊢
    exact hPQ s t hst hs
  · rw [Valuation.set_other hyx] at hs ⊢
    exact h y s t hst hs

theorem Formula.Holds.carry
    (hR : ∀ strength, f.uses strength = true → Couples (moves strength) (moves' strength) R)
    (hvw : Valuation.Carries R v w) (hst : R s t) (h : f.Holds moves v s) :
    f.Holds moves' w t := by
  induction f using Formula.induct generalizing v w s t with
  | const value => exact h
  | var x => exact hvw x s t hst h
  | modal q strength a f ih =>
    have hbody : ∀ strength, f.uses strength = true →
        Couples (moves strength) (moves' strength) R := by
      intro other hother
      apply hR
      simp [Formula.uses, hother]
    have hmoves : Couples (moves strength) (moves' strength) R :=
      hR strength (by simp [Formula.uses])
    cases q with
    | any =>
      obtain ⟨b, s', step, hab, hs'⟩ := h
      obtain ⟨t', answer, hst'⟩ := hmoves.forth hst step
      exact ⟨b, t', answer, hab, ih hbody hvw hst' hs'⟩
    | all =>
      intro b t' step hab
      obtain ⟨s', answer, hst'⟩ := hmoves.back hst step
      exact ih hbody hvw hst' (h b s' answer hab)
  | junction q fs ih =>
    have hpart : ∀ f ∈ fs, ∀ strength, f.uses strength = true →
        Couples (moves strength) (moves' strength) R := by
      intro f hf strength hstrength
      exact hR strength (Formula.usesAny_iff.mpr ⟨f, hf, hstrength⟩)
    cases q with
    | any =>
      obtain ⟨f, hf, hs⟩ := Formula.holdsAny_iff.mp h
      exact Formula.holdsAny_iff.mpr ⟨f, hf, ih f hf (hpart f hf) hvw hst hs⟩
    | all =>
      apply Formula.holdsAll_iff.mpr
      intro f hf
      exact ih f hf (hpart f hf) hvw hst (Formula.holdsAll_iff.mp h f hf)
  | fix kind x f ih =>
    cases kind with
    | least =>
      -- the states from which `R` leads into `P` only are closed under the body, as `P` is
      intro P hP
      have hclosed : ∀ u, f.Holds moves (v.set x fun u => ∀ u', R u u' → P u') u →
          ∀ u', R u u' → P u' := by
        intro u hu u' huu'
        apply hP u'
        exact ih hR (hvw.set x fun u u' huu' hu => hu u' huu') huu' hu
      exact h _ hclosed t hst
    | greatest =>
      -- the states to which `R` leads from `P` are contained in what the body makes of them
      obtain ⟨P, hP, hs⟩ := h
      refine ⟨fun u' => ∃ u, R u u' ∧ P u, ?_, s, hst, hs⟩
      intro u' hu'
      obtain ⟨u, huu', hu⟩ := hu'
      exact ih hR (hvw.set x fun u u' huu' hu => ⟨u, huu', hu⟩) huu' (hP u hu)

/-- Related states satisfy the same formulas, if the valuations agree about them. -/
theorem Formula.holds_iff_of_couples
    (hR : ∀ strength, f.uses strength = true → Couples (moves strength) (moves' strength) R)
    (hvw : ∀ x s t, R s t → (v x s ↔ w x t)) (hst : R s t) :
    f.Holds moves v s ↔ f.Holds moves' w t := by
  constructor
  · exact Holds.carry hR (fun x s t hst => (hvw x s t hst).mp) hst
  · exact Holds.carry (R := fun t s => R s t) (fun strength huses => (hR strength huses).flip)
      (fun x t s hst => (hvw x s t hst).mpr) hst

end ProcessLogic
