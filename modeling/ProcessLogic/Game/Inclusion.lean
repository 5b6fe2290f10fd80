import ProcessLogic.Graph.Unfolding
import ProcessLogic.Lts.Saturation

/-!
# Trace inclusion

A left state is followed by the set of right states that the same trace leads to. The equations
describe a trace that nothing on the right can follow: a pursuit is satisfied when the left state
has a trace that no right state has.
-/

set_option autoImplicit false

namespace ProcessLogic

/-- The right states are in increasing order, each once. -/
structure Pursuit where
  left : StateId
  rights : List StateId
deriving DecidableEq, Repr

def insertState (s : StateId) : List StateId → List StateId
  | [] => [s]
  | t :: ts =>
    if s < t then s :: t :: ts
    else if s = t then t :: ts
    else t :: insertState s ts

def stateSet (states : List StateId) : List StateId := states.foldr insertState []

theorem mem_insertState {s t : StateId} {states : List StateId} :
    t ∈ insertState s states ↔ t = s ∨ t ∈ states := by
  induction states with
  | nil => simp [insertState]
  | cons u us ih =>
    unfold insertState
    split
    · simp
    · split
      · next h => simp [h]
      · simp only [List.mem_cons, ih]
        constructor
        · rintro (h | h | h)
          · exact .inr (.inl h)
          · exact .inl h
          · exact .inr (.inr h)
        · rintro (h | h | h)
          · exact .inr (.inl h)
          · exact .inl h
          · exact .inr (.inr h)

theorem mem_stateSet {t : StateId} {states : List StateId} : t ∈ stateSet states ↔ t ∈ states := by
  induction states with
  | nil => simp [stateSet]
  | cons s states ih =>
    show t ∈ insertState s (stateSet states) ↔ t ∈ s :: states
    rw [mem_insertState, ih, List.mem_cons]

/-- A move that nothing on the right can follow is an empty hyperedge. -/
def pursue (t : Transition) (rights : List (List Transition)) : List Pursuit :=
  match stateSet ((rights.flatten.filter fun u => u.label = t.label).map (·.target)) with
  | [] => []
  | states => [⟨t.target, states⟩]

def pursuitEquation (attack defend : Generator) (p : Pursuit) : Run (List (List Pursuit)) := do
  let row ← attack.successors p.left
  row.mapM fun t => do pure (pursue t (← p.rights.mapM defend.successors))

/-- Left states that have a row, with every set of right states and the one right state of the
beginning. -/
def pursuitCapacity (attack defend : Generator) : Nat :=
  attack.lts.stateCount * (Nat.pow 2 defend.reach + 1)

def pursuitSystem (attack defend : Generator) : System Pursuit where
  key? := fun p => some (key (p.left :: p.rights))
  equation := pursuitEquation attack defend
  announce := fun node p => .including node p.left p.rights
  capacity := pursuitCapacity attack defend
  width := 2 * attack.degree

abbrev Chase := Unfolding Pursuit

namespace Chase

def ofPair (attack defend : Generator) (l r : StateId) : Chase :=
  Unfolding.ofRoot (pursuitSystem attack defend) ⟨l, [r]⟩

def pursuit (c : Chase) (node : NodeId) : Except Fault Pursuit := c.nodes.record node

end Chase

end ProcessLogic
