import ProcessLogic.Lts.Behaviour

/-!
# Bisimilarity

Two states are bisimilar when a relation that contains them answers every attack, from either side.
-/

set_option autoImplicit false

namespace ProcessLogic

variable {attack defend : Moves}

structure IsBisimulation (attack defend : Moves) (R : StateId → StateId → Prop) : Prop where
  left : ∀ {l r a l'}, R l r → attack l a l' → ∃ r', defend r a r' ∧ R l' r'
  right : ∀ {l r a r'}, R l r → attack r a r' → ∃ l', defend l a l' ∧ R l' r'

def Bisimilar (attack defend : Moves) (p q : StateId) : Prop :=
  ∃ R, IsBisimulation attack defend R ∧ R p q

/-- Bisimilarity is itself a bisimulation. -/
theorem isBisimulation_bisimilar : IsBisimulation attack defend (Bisimilar attack defend) where
  left := by
    rintro l r a l' ⟨R, hR, hlr⟩ step
    obtain ⟨r', answer, h⟩ := hR.left hlr step
    exact ⟨r', answer, R, hR, h⟩
  right := by
    rintro l r a r' ⟨R, hR, hlr⟩ step
    obtain ⟨l', answer, h⟩ := hR.right hlr step
    exact ⟨l', answer, R, hR, h⟩

/-- Answering forever includes answering every finite trace. -/
theorem Bisimilar.tracesIncluded {p q : StateId} (h : Bisimilar attack defend p q) :
    TracesIncluded attack defend p q := by
  intro trace performs
  induction performs generalizing q with
  | nil => exact .nil q
  | cons step _ ih =>
    obtain ⟨q', answer, h'⟩ := isBisimulation_bisimilar.left h step
    exact .cons answer (ih h')

end ProcessLogic
