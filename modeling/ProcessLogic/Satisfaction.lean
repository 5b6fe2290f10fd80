import ProcessLogic.Formula.Definitions
import ProcessLogic.Graph.Unfolding
import ProcessLogic.Lts.Saturation
import ProcessLogic.Marking.OnDemand

/-!
# Satisfaction

Whether a state satisfies a formula, as a system of equations. Seeking least fixpoints, a query is
satisfied when its formula holds; seeking greatest ones everything is dualised, and a query is
satisfied when its formula fails. A fixpoint of the kind sought is unfolded in place, one of the
other kind is decided by a search of its own.
-/

set_option autoImplicit false

namespace ProcessLogic

inductive Query where
  | verdict (value : Bool)
  | check (state : StateId) (formula : Formula)
  /-- The definition of a name, at a state. -/
  | definition (state : StateId) (name : String) (formula : Formula)
deriving DecidableEq, Repr

namespace Query

/-- A name has one node at a state. -/
def key? : Query → Option Nat
  | .definition s name _ => some (mixedKey (key name) s)
  | _ => none

/-- The state and the formula that is checked there. -/
def question? : Query → Option (StateId × Formula)
  | .verdict _ => none
  | .check s f => some (s, f)
  | .definition s _ f => some (s, f)

def announce (node : NodeId) : Query → Event
  | .verdict value => .checking node 0 (.const value)
  | .check s f => .checking node s f
  | .definition s _ f => .checking node s f

end Query

/-- The equation of a query that is settled. -/
def settled {α : Type} (satisfied : Bool) : List (List α) := if satisfied then [[]] else []

/-- The equation of a query that depends on others. -/
def spread {α : Type} : Quantifier → List α → List (List α)
  | .any, as => as.map fun a => [a]
  | .all, as => [as]

/-- A model and the definitions of the names. -/
structure Model where
  strong : Generator
  weak : Generator
  definitions : Definitions
  /-- Bounds the length of a row. -/
  degree : Nat := strong.degree + weak.degree
  /-- Bounds the number of states that a query can be about. -/
  reach : Nat := strong.reach + weak.reach + 1

namespace Model

def generator (m : Model) : Strength → Generator
  | .strong => m.strong
  | .weak => m.weak

end Model

def Extremum.seeks (kind : Extremum) (q : Quantifier) : Quantifier :=
  match kind with
  | .least => q
  | .greatest => q.dual

/-- The equation of a formula at a state. `settle` decides a fixpoint of the other kind. -/
def Model.equation (m : Model) (kind : Extremum)
    (settle : StateId → Formula → Run (List (List Query))) (s : StateId) :
    Formula → Run (List (List Query))
  | .const value => pure (settled (value = (kind = .least : Bool)))
  | .var x =>
    match m.definitions.find? x with
    | some f => pure [[.definition s x f]]
    | none => Run.fail (.undeclared x)
  | .junction q fs => pure (spread (kind.seeks q) (fs.map (.check s)))
  | .modal q strength a f => do
    let row ← (m.generator strength).successors s
    let targets := (row.filter fun t => a.matches t.label).map (·.target)
    pure (spread (kind.seeks q) (targets.map fun t => .check t f))
  | .fix k x f =>
    if k = kind then Model.equation m kind settle s f else settle s (.fix k x f)

mutual

/-- Bounds the nodes below one check of a formula. -/
def Formula.spreadBound (degree : Nat) : Formula → Nat
  | .const _ | .var _ => 1
  | .modal _ _ _ f => degree * f.spreadBound degree + 1
  | .junction _ fs => Formula.spreadBounds degree fs + 1
  | .fix _ _ f => f.spreadBound degree

def Formula.spreadBounds (degree : Nat) : List Formula → Nat
  | [] => 0
  | f :: fs => f.spreadBound degree + Formula.spreadBounds degree fs

end

namespace Model

def capacity (m : Model) (f : Formula) : Nat :=
  2 + f.spreadBound m.degree +
    m.reach * Formula.spreadBounds m.degree (m.definitions.map (·.2))

def width (m : Model) (f : Formula) : Nat :=
  2 * (m.degree + f.size + m.definitions.size) + 2

/-- The root of an unfolding and, behind it, the two verdicts. -/
def firstNodes (q : Query) : NodeTable Query :=
  let (nodes, _) := (NodeTable.ofRoot q).addBuilt (.verdict true) (settled true)
  (nodes.addBuilt (.verdict false) (settled false)).1

end Model

/-- The node of a settled verdict in every unfolding. -/
def verdictNode (satisfied : Bool) : NodeId := if satisfied then 1 else 2

/-- The unfolding of a query, with `settle` for the fixpoints of the other kind. -/
def Model.unfoldWith (m : Model) (kind : Extremum)
    (settle : StateId → Formula → Run (List (List Query))) (s : StateId) (f : Formula) :
    Unfolding Query where
  system := {
    key? := Query.key?
    equation := fun
      | .verdict value => pure (settled value)
      | .check s f => m.equation kind settle s f
      | .definition s _ f => m.equation kind settle s f
    announce := Query.announce
    capacity := m.capacity f
    width := m.width f }
  nodes := Model.firstNodes (.check s f)

/-- Decides a fixpoint of the other kind than `kind` by a search of its own. The first argument
bounds how deeply searches of different kinds are nested. -/
def Model.settle (m : Model) : Nat → Extremum → StateId → Formula → Run (List (List Query))
  | 0, _, _, _ => Run.fail .exhausted
  | depth + 1, kind, s, f => do
    let (u, marking) ← solve (m.unfoldWith kind.dual (m.settle depth kind.dual) s f) root
    let satisfied := !marking.holds root
    Run.report (.nested kind.dual f s u.size (verdictNode satisfied))
    pure (settled satisfied)

/-- Enough depth for every search that starts with `f`. -/
def Model.depth (m : Model) (f : Formula) : Nat := f.size + m.definitions.size + 1

def Model.unfold (m : Model) (kind : Extremum) (s : StateId) (f : Formula) : Unfolding Query :=
  m.unfoldWith kind (m.settle (m.depth f) kind) s f

/-- Decides a formula at a state. -/
def Model.satisfies (m : Model) (s : StateId) (f : Formula) : Run Bool := do
  let (_, marking) ← solve (m.unfold .least s f) root
  pure (marking.holds root)

def Lts.model (l : Lts) (definitions : Definitions) : Model where
  strong := l.strong
  weak := l.weak
  definitions

/-- Decides a closed formula at a state of a system. -/
def Lts.check (l : Lts) (s : StateId) (f : Formula) : Run (Except ScopeError Bool) :=
  match f.definitions with
  | .error e => pure (.error e)
  | .ok d => Run.withFirstSaturations do
    pure (.ok (← (l.model d).satisfies s f))

end ProcessLogic
