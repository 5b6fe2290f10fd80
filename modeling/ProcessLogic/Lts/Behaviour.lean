import ProcessLogic.Formula.Basic
import ProcessLogic.Lts.Basic

/-!
# Behaviour

The transitions of a system as relations, without rows and their order: single steps, steps up to
internal moves, and the traces they form.
-/

set_option autoImplicit false

namespace ProcessLogic

/-- A family of transitions: source, label, target. -/
abbrev Moves := StateId → String → StateId → Prop

namespace Lts

variable {l : Lts} {s t u : StateId} {a : String}

def Step (l : Lts) : Moves := fun s a t => ∃ row, l.rows[s]? = some row ∧ ⟨a, t⟩ ∈ row

/-- Every transition leads to a state that has a row. -/
def InRange (l : Lts) : Prop := ∀ s a t, l.Step s a t → t < l.stateCount

inductive TauSteps (l : Lts) : StateId → StateId → Prop where
  | refl (s : StateId) : TauSteps l s s
  | tail {s t u : StateId} : TauSteps l s t → l.Step t tau u → TauSteps l s u

inductive WeakStep (l : Lts) : Moves where
  | silent {s t : StateId} : TauSteps l s t → WeakStep l s tau t
  | visible {s t u v : StateId} {a : String} : a ≠ tau → TauSteps l s t → l.Step t a u →
      TauSteps l u v → WeakStep l s a v

def Move (l : Lts) : Strength → Moves
  | .strong => l.Step
  | .weak => l.WeakStep

theorem TauSteps.trans (h : TauSteps l s t) (h' : TauSteps l t u) : TauSteps l s u := by
  induction h' with
  | refl => exact h
  | tail _ step ih => exact .tail ih step

theorem TauSteps.single (h : l.Step s tau t) : TauSteps l s t := .tail (.refl s) h

theorem Step.weak (h : l.Step s a t) : l.WeakStep s a t := by
  by_cases ha : a = tau
  · subst ha
    exact .silent (.single h)
  · exact .visible ha (.refl s) h (.refl t)

/-- Internal moves before and after a weak step change nothing. -/
theorem WeakStep.extend {s' t' : StateId} (before : TauSteps l s' s) (h : l.WeakStep s a t)
    (after : TauSteps l t t') : l.WeakStep s' a t' := by
  cases h with
  | silent hst => exact .silent (before.trans (hst.trans after))
  | visible ha hs step ht => exact .visible ha (before.trans hs) step (ht.trans after)

end Lts

/-- The state can perform the labels in order. -/
inductive Performs (moves : Moves) : StateId → List String → Prop where
  | nil (s : StateId) : Performs moves s []
  | cons {s t : StateId} {a : String} {as : List String} : moves s a t → Performs moves t as →
      Performs moves s (a :: as)

/-- Every trace of `p` by attacks is a trace of `q` by answers. -/
def TracesIncluded (attack defend : Moves) (p q : StateId) : Prop :=
  ∀ trace, Performs attack p trace → Performs defend q trace

end ProcessLogic
