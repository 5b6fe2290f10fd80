import ProcessLogic.Formula.Printer
import ProcessLogic.Numbering
import ProcessLogic.Text.Listing

/-!
# Events

What a computation reports while it runs, and the text of each report.
-/

set_option autoImplicit false

namespace ProcessLogic

/-- One of two processes that are compared. -/
inductive Side where
  | left
  | right
deriving DecidableEq, Repr

def Side.name : Side → String
  | .left => "Left"
  | .right => "Right"

def Extremum.name : Extremum → String
  | .least => "Min"
  | .greatest => "Max"

inductive Event where
  | read (states transitions : Nat)
  | saturated (state : StateId) (transitions : Nat)
  | checking (node : NodeId) (state : StateId) (formula : Formula)
  | pairing (node : NodeId) (left right : StateId)
  | moving (node : NodeId) (side : Side) (label : String) (target : StateId)
  | including (node : NodeId) (left : StateId) (rights : List StateId)
  | searched (root : NodeId) (proved : Bool) (explored steps : Nat)
  | gaveUp (root : NodeId) (steps : Nat)
  | propagated (proved nodes steps : Nat)
  | levelled (nodes steps : Nat)
  | nested (kind : Extremum) (formula : Formula) (state : StateId) (nodes : Nat) (verdict : NodeId)
  | collapsed (processes classes : Nat)
  | distinguished (formula : Formula)
deriving DecidableEq

namespace Event

/-- Whether the event reports a result rather than a single step on the way. -/
def isSummary : Event → Bool
  | .saturated .. | .checking .. | .pairing .. | .moving .. | .including .. => false
  | _ => true

def truthName (b : Bool) : String := if b then "True" else "False"

def stateNames (states : List StateId) : String :=
  Text.bracketed (states.map fun s => s!"StateId({s})")

def message : Event → String
  | .read states transitions => s!"parsed LTS with {states} states and {transitions} transitions"
  | .saturated state transitions => s!"state {state} has {transitions} weak transitions"
  | .checking node state formula =>
    s!"constructing node {node}: state {state} against {formula.text}"
  | .pairing node left right => s!"constructing pair node {node}: ({left}, {right})"
  | .moving node side label target =>
    s!"constructing {side.name} move node {node}: {label} to {target}"
  | .including node left rights =>
    s!"constructing trace node {node}: {left} against {stateNames rights}"
  | .searched root proved explored steps =>
    s!"local solve from {root}: {truthName proved} after exploring {explored} nodes in " ++
      s!"{steps} steps"
  | .gaveUp root steps => s!"local solve from {root} inconclusive after {steps} steps"
  | .propagated proved nodes steps =>
    s!"global solve: {proved} of {nodes} nodes true after {steps} steps"
  | .levelled nodes steps => s!"level solve: {nodes} nodes, {steps} steps"
  | .nested kind formula state nodes verdict =>
    s!"nested {kind.name} solve of {formula.text} at state {state}: {nodes} nodes, " ++
      s!"resolved to {verdict}"
  | .collapsed processes classes => s!"collapsed {processes} processes into {classes} classes"
  | .distinguished formula => s!"distinguishing formula: {formula.text}"

def text (e : Event) : String :=
  (if e.isSummary then "DEBUG " else "TRACE ") ++ e.message

/-- A list of events read so far, the latest first, and the states whose saturation it reports. -/
structure Thinned where
  events : List Event := []
  saturated : Numbering StateId := {}

/-- One more event, unless it reports the saturation of a state again. -/
def Thinned.add : Thinned → Event → Thinned
  | ⟨es, states⟩, .saturated s n =>
    if states.contains s then ⟨es, states⟩ else ⟨.saturated s n :: es, states.insert s⟩
  | ⟨es, states⟩, e => ⟨e :: es, states⟩

/-- Keeps the first report on the saturation of each state. -/
def firstSaturations (es : List Event) : List Event := (es.foldl Thinned.add {}).events.reverse

end Event

end ProcessLogic
