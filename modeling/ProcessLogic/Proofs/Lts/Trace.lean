import ProcessLogic.Lts.Behaviour

/-!
# Traces up to internal moves

Weak steps perform a trace exactly when single steps perform some trace with the same visible
labels: internal labels can be put into a weak trace and left out of it anywhere.
-/

set_option autoImplicit false

namespace ProcessLogic

/-- The labels of a trace that are not internal. -/
def visible (trace : List String) : List String := trace.filter (· ≠ tau)

@[simp] theorem visible_tau (trace : List String) : visible (tau :: trace) = visible trace := by
  simp [visible]

theorem visible_cons {a : String} (ha : a ≠ tau) (trace : List String) :
    visible (a :: trace) = a :: visible trace := by
  simp [visible, ha]

theorem Performs.mono {moves moves' : Moves} {s : StateId} {trace : List String}
    (hmoves : ∀ s a t, moves s a t → moves' s a t) (h : Performs moves s trace) :
    Performs moves' s trace := by
  induction h with
  | nil s => exact .nil s
  | cons step _ ih => exact .cons (hmoves _ _ _ step) ih

section

variable {l : Lts} {s t : StateId} {trace : List String}

/-- The first weak step of a trace absorbs internal moves before it. -/
theorem Performs.weak_of_tauSteps (steps : l.TauSteps s t) (h : Performs l.WeakStep t trace) :
    Performs l.WeakStep s trace := by
  cases h with
  | nil => exact .nil s
  | cons step rest => exact .cons (step.extend steps (.refl _)) rest

theorem performs_weak_visible :
    Performs l.WeakStep s (visible trace) ↔ Performs l.WeakStep s trace := by
  constructor
  · intro h
    induction trace generalizing s with
    | nil => exact h
    | cons a trace ih =>
      by_cases ha : a = tau
      · subst ha
        rw [visible_tau] at h
        exact .cons (.silent (.refl s)) (ih h)
      · rw [visible_cons ha] at h
        cases h with
        | cons step rest => exact .cons step (ih rest)
  · intro h
    induction h with
    | nil s => exact .nil s
    | cons step _ ih =>
      cases step with
      | silent steps =>
        rw [visible_tau]
        exact ih.weak_of_tauSteps steps
      | visible ha before step after =>
        rw [visible_cons ha]
        exact .cons (.visible ha before step after) ih

/-- Single internal moves before a trace do not show. -/
theorem Performs.exists_of_tauSteps (steps : l.TauSteps s t) (h : Performs l.Step t trace) :
    ∃ trace', Performs l.Step s trace' ∧ visible trace' = visible trace := by
  induction steps generalizing trace with
  | refl => exact ⟨trace, h, rfl⟩
  | tail _ step ih =>
    obtain ⟨trace', h', hvisible⟩ := ih (.cons step h)
    rw [visible_tau] at hvisible
    exact ⟨trace', h', hvisible⟩

theorem Performs.exists_of_weak (h : Performs l.WeakStep s trace) :
    ∃ trace', Performs l.Step s trace' ∧ visible trace' = visible trace := by
  induction h with
  | nil s => exact ⟨[], .nil s, rfl⟩
  | cons step _ ih =>
    obtain ⟨rest, hrest, hvisible⟩ := ih
    cases step with
    | silent steps =>
      rw [visible_tau, ← hvisible]
      exact hrest.exists_of_tauSteps steps
    | visible ha before step after =>
      -- the internal moves after the label come before the rest of the trace
      obtain ⟨rest', hrest', hvisible'⟩ := hrest.exists_of_tauSteps after
      have hstep := Performs.cons step hrest'
      rw [visible_cons ha, ← hvisible, ← hvisible', ← visible_cons ha]
      exact hstep.exists_of_tauSteps before

theorem performs_weak_iff : Performs l.WeakStep s trace ↔
    ∃ trace', Performs l.Step s trace' ∧ visible trace' = visible trace := by
  refine ⟨Performs.exists_of_weak, ?_⟩
  rintro ⟨trace', h, hvisible⟩
  rw [← performs_weak_visible, ← hvisible, performs_weak_visible]
  exact h.mono fun _ _ _ step => step.weak

end

end ProcessLogic
