import ProcessLogic.Graph.Unfolding
import ProcessLogic.Lts.Saturation

/-!
# The bisimulation game

The attacker picks a move of either process, the defender answers with the other one by the same
label. The equations describe the attacker's win: a pair is satisfied when the two states are not
bisimilar. Attacks and answers have generators of their own, so that strong attacks may be answered
by weak transitions.
-/

set_option autoImplicit false

namespace ProcessLogic

inductive Position where
  | pair (left right : StateId)
  /-- One side has moved to `target`, the side in `other` has to answer. -/
  | move (side : Side) (label : String) (target other : StateId)
deriving DecidableEq, Repr

namespace Position

/-- A pair has one node. -/
def key? : Position → Option Nat
  | .pair l r => some (mixedKey l r)
  | .move .. => none

def announce (node : NodeId) : Position → Event
  | .pair l r => .pairing node l r
  | .move side label target _ => .moving node side label target

end Position

/-- The pair that an answer leads to. -/
def Side.answer (side : Side) (target answer : StateId) : Position :=
  match side with
  | .left => .pair target answer
  | .right => .pair answer target

def attacks (side : Side) (other : StateId) (row : List Transition) : List (List Position) :=
  row.map fun t => [.move side t.label t.target other]

/-- Each attack is a hyperedge of its own; all answers to an attack make up one hyperedge. -/
def gameEquation (attack defend : Generator) : Position → Run (List (List Position))
  | .pair l r => do
    let left ← attack.successors l
    let right ← attack.successors r
    pure (attacks .left r left ++ attacks .right l right)
  | .move side label target other => do
    let row ← defend.successors other
    pure [(row.filter fun t => t.label = label).map fun t => side.answer target t.target]

/-- Pairs of states that have a row, and the moves from them. -/
def gameCapacity (attack : Generator) : Nat :=
  let n := attack.lts.stateCount
  n * n * (2 * attack.degree + 1)

def gameSystem (attack defend : Generator) : System Position where
  key? := Position.key?
  equation := gameEquation attack defend
  announce := Position.announce
  capacity := gameCapacity attack
  width := 4 * attack.degree + defend.degree + 1

abbrev Game := Unfolding Position

structure AttackerOption where
  side : Side
  label : String
  target : StateId
  next : NodeId
deriving DecidableEq, Repr

structure DefenderOption where
  target : StateId
  next : NodeId
deriving DecidableEq, Repr

/-- Why a question about a game has no answer. -/
inductive Refusal where
  | notPair (node : NodeId)
  | notMove (node : NodeId)
  | noNode (node : NodeId)
  | bisimilar
  | noAttack (node : NodeId)
  | noTarget
  | unknownNode
deriving DecidableEq, Repr

def Refusal.message : Refusal → String
  | .notPair node => s!"Node {node} is not a pair node"
  | .notMove node => s!"Node {node} is not a move node"
  | .noNode node => s!"Node {node} doesn't exist"
  | .bisimilar => "Processes are bisimilar"
  | .noAttack node => s!"Pair node {node} has no attacker move"
  | .noTarget => "Attacker move without target"
  | .unknownNode => "Unknown node"

/-- The first of some items, of which there has to be one. -/
def headOf {α : Type} : List α → Except Fault α
  | [] => .error .outOfBounds
  | a :: _ => .ok a

namespace Game

def ofPair (attack defend : Generator) (l r : StateId) : Game :=
  Unfolding.ofRoot (gameSystem attack defend) (.pair l r)

/-- The node of a pair. -/
def addPair (g : Game) (l r : StateId) : Game × NodeId := g.intern (.pair l r)

def pairOf? (g : Game) (node : NodeId) : Option (StateId × StateId) :=
  match g.record? node with
  | some (.pair l r) => some (l, r)
  | _ => none

/-- Every pair node, with its states. -/
def pairs (g : Game) : List (NodeId × StateId × StateId) :=
  g.nodes.records.filterMap fun (node, record) =>
    match record with
    | .pair l r => some (node, l, r)
    | .move .. => none

/-- The attack that a hyperedge of a pair stands for. -/
def attackerOption (g : Game) (edge : Hyperedge) : Except Fault AttackerOption := do
  let next ← headOf edge
  match ← g.nodes.record next with
  | .move side label target _ => pure ⟨side, label, target, next⟩
  | .pair .. => throw .pairAfterPair

def attackerOptions (g : Game) (node : NodeId) :
    Run (Game × Except Refusal (List AttackerOption)) :=
  match g.record? node with
  | none => pure (g, .error (.noNode node))
  | some (.move ..) => pure (g, .error (.notPair node))
  | some (.pair ..) => do
    let (g, edges) ← g.hyperedges node
    let options ← (edges.mapM (attackerOption g) : Except Fault _)
    pure (g, .ok options)

/-- The defender moves the side that the attacker left alone. -/
def defenderOption (g : Game) (side : Side) (next : NodeId) : Except Fault DefenderOption := do
  match side, ← g.nodes.record next with
  | .left, .pair _ r => pure ⟨r, next⟩
  | .right, .pair l _ => pure ⟨l, next⟩
  | _, .move .. => throw .moveAfterMove

def defenderOptions (g : Game) (node : NodeId) :
    Run (Game × Except Refusal (List DefenderOption)) :=
  match g.record? node with
  | none => pure (g, .error (.noNode node))
  | some (.pair ..) => pure (g, .error (.notMove node))
  | some (.move side ..) => do
    let (g, edges) ← g.hyperedges node
    let edge ← headOf edges
    let options ← (edge.mapM (defenderOption g side) : Except Fault _)
    pure (g, .ok options)

end Game

end ProcessLogic
