import ProcessLogic.Game.Bisimulation
import ProcessLogic.Game.Forest
import ProcessLogic.Marking.Status
import ProcessLogic.Numbering

/-!
# Partitions

The states of a game, in classes: a pair that is not satisfied puts its two states into one class.
-/

set_option autoImplicit false

namespace ProcessLogic

/-- States in the order of their first appearance, each with the one that stands for its class. -/
structure Partition where
  states : Numbering StateId
  leaders : Array StateId

structure Gathering where
  states : Numbering StateId := {}
  forest : Forest := {}

namespace Gathering

/-- The slot of a state. -/
def see : Gathering → StateId → Gathering × Nat
  | ⟨states, forest⟩, s =>
    match states.index? s with
    | some slot => (⟨states, forest⟩, slot)
    | none =>
      let slot := states.size
      (⟨states.insert s, forest.add⟩, slot)

def addPair (g : Gathering) (united : Bool) (l r : StateId) : Gathering :=
  let (g, l) := g.see l
  let (⟨states, forest⟩, r) := g.see r
  if united then ⟨states, forest.union l r⟩ else ⟨states, forest⟩

/-- The roots of all slots. Finding one shortens the paths for those after it. -/
def roots (g : Gathering) : List Nat :=
  (thread (fun f slot => (f.find slot).swap) g.forest (List.range g.states.size)).2

def partition (g : Gathering) : Partition where
  states := g.states
  leaders := (g.roots.map fun root => g.states.items[root]?.getD 0).toArray

end Gathering

namespace Partition

/-- The classes generated by the pairs whose node is marked unproved. -/
def ofPairs (pairs : List (NodeId × StateId × StateId)) (status : NodeId → Status) : Partition :=
  (pairs.foldl (fun g (node, l, r) => g.addPair (status node = .unproved) l r)
    ({} : Gathering)).partition

def stateCount (p : Partition) : Nat := p.states.size

/-- A state that does not occur stands for itself. -/
def representative (p : Partition) (s : StateId) : StateId :=
  match p.states.index? s with
  | some slot => p.leaders[slot]?.getD s
  | none => s

def members (p : Partition) (leader : StateId) : List StateId :=
  ((p.states.toList.zip p.leaders.toList).filter fun (_, r) => r = leader).map (·.1)

def classOf (p : Partition) (s : StateId) : List StateId :=
  if p.states.contains s then p.members (p.representative s) else [s]

/-- Every class once, with its representative. -/
def classes (p : Partition) : List (StateId × List StateId) :=
  (Numbering.ofList p.leaders.toList).toList.map fun leader => (leader, p.members leader)

end Partition

def Game.partition (g : Game) (status : NodeId → Status) : Run Partition := do
  let p := Partition.ofPairs g.pairs status
  Run.report (.collapsed p.stateCount p.classes.length)
  pure p

end ProcessLogic
