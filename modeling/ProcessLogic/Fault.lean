/-!
# Faults

What breaks off a computation for good. States and nodes are numbered from zero, below a common
bound.
-/

set_option autoImplicit false

namespace ProcessLogic

abbrev StateId := Nat

abbrev NodeId := Nat

/-- Numbers of states and nodes stay below the greatest machine word. -/
def idBound : Nat := 0xFFFFFFFFFFFFFFFF

inductive Fault where
  | outOfBounds
  | overflow
  | undeclared (name : String)
  | builtTwice (node : NodeId)
  /-- In a game a pair leads to a pair. -/
  | pairAfterPair
  /-- In a game a move leads to a move. -/
  | moveAfterMove
  | noStates
  | tooFewTransitions
  | drawsExhausted
  /-- A table would be larger than memory can address. -/
  | capacity
  /-- A search was given less work than it has; the bounds in use never let this happen. -/
  | exhausted
deriving DecidableEq, Repr

def Fault.message : Fault → String
  | .outOfBounds => "index out of bounds"
  | .overflow => "number out of range"
  | .undeclared name => s!"Variable {name} was not declared"
  | .builtTwice node => s!"node {node} constructed twice"
  | .pairAfterPair =>
    "internal error: entered unreachable code: pair nodes only point to move nodes"
  | .moveAfterMove =>
    "internal error: entered unreachable code: move nodes only point to pair nodes"
  | .noStates => "an LTS needs at least its first state"
  | .tooFewTransitions => "not enough distinct transitions available"
  | .drawsExhausted => "draws exhausted"
  | .capacity => "capacity overflow"
  | .exhausted => "search bound exhausted"

/-- The number `n` as the number of a state or node. -/
def checkedId (n : Nat) : Except Fault Nat :=
  if n < idBound then .ok n else .error .overflow

end ProcessLogic
