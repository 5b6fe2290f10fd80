import ProcessLogic.Lts.Behaviour

/-!
# The meaning of formulas

A formula denotes a set of states, given the moves of each strength and a set for each free name.
A least fixpoint is the intersection of the sets closed under its body, a greatest one the union of
the sets contained in it.
-/

set_option autoImplicit false

namespace ProcessLogic

abbrev Valuation := String → StateId → Prop

def Valuation.set (v : Valuation) (x : String) (P : StateId → Prop) : Valuation :=
  fun y => if y = x then P else v y

namespace Formula

mutual

def Holds (moves : Strength → Moves) : Formula → Valuation → StateId → Prop
  | .const value, _, _ => value = true
  | .var x, v, s => v x s
  | .modal .any strength a f, v, s =>
    ∃ b t, moves strength s b t ∧ a.matches b = true ∧ f.Holds moves v t
  | .modal .all strength a f, v, s =>
    ∀ b t, moves strength s b t → a.matches b = true → f.Holds moves v t
  | .junction .any fs, v, s => HoldsAny moves fs v s
  | .junction .all fs, v, s => HoldsAll moves fs v s
  | .fix .least x f, v, s => ∀ P, (∀ t, f.Holds moves (v.set x P) t → P t) → P s
  | .fix .greatest x f, v, s => ∃ P, (∀ t, P t → f.Holds moves (v.set x P) t) ∧ P s

def HoldsAny (moves : Strength → Moves) : List Formula → Valuation → StateId → Prop
  | [], _, _ => False
  | f :: fs, v, s => f.Holds moves v s ∨ HoldsAny moves fs v s

def HoldsAll (moves : Strength → Moves) : List Formula → Valuation → StateId → Prop
  | [], _, _ => True
  | f :: fs, v, s => f.Holds moves v s ∧ HoldsAll moves fs v s

end

variable {moves : Strength → Moves} {fs : List Formula} {v : Valuation} {s : StateId}

theorem holdsAny_iff : HoldsAny moves fs v s ↔ ∃ f ∈ fs, f.Holds moves v s := by
  induction fs with
  | nil => simp [HoldsAny]
  | cons f fs ih => simp [HoldsAny, ih]

theorem holdsAll_iff : HoldsAll moves fs v s ↔ ∀ f ∈ fs, f.Holds moves v s := by
  induction fs with
  | nil => simp [HoldsAll]
  | cons f fs ih => simp [HoldsAll, ih]

/-- Dropping the trivial cases of a junction keeps its meaning. -/
theorem holds_join (q : Quantifier) :
    (join q fs).Holds moves v s ↔ (junction q fs).Holds moves v s := by
  match q, fs with
  | .any, [] => simp [join, Holds, HoldsAny]
  | .all, [] => simp [join, Holds, HoldsAll]
  | .any, [f] => simp [join, Holds, HoldsAny]
  | .all, [f] => simp [join, Holds, HoldsAll]
  | .any, _ :: _ :: _ => simp [join]
  | .all, _ :: _ :: _ => simp [join]

end Formula

end ProcessLogic
