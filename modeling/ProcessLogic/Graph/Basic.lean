import ProcessLogic.Run
import ProcessLogic.Table

/-!
# Dependency graphs

A hypergraph encodes boolean equations: a node is satisfied when all targets of one of its
hyperedges are. The graph may grow while it is looked at.
-/

set_option autoImplicit false

namespace ProcessLogic

abbrev Hyperedge := List NodeId

/-- The hyperedges of every node. -/
abbrev Snapshot := Table (List Hyperedge)

/-- A graph that builds the hyperedges of a node when asked for them. -/
class Hypergraph (γ : Type) where
  /-- The number of nodes so far. -/
  size : γ → Nat
  hyperedges : γ → NodeId → Run (γ × List Hyperedge)
  /-- Builds every node, also those added on the way. -/
  snapshot : γ → Run (γ × Snapshot)
  /-- Bounds the number of steps of a search on demand. -/
  searchBound : γ → Nat

/-- The root of a graph that was built for one question. -/
def root : NodeId := 0

/-- One for each hyperedge and one for each of its targets. -/
def weight {α : Type} : List (List α) → Nat
  | [] => 0
  | edge :: edges => edge.length + 1 + weight edges

def Snapshot.weight (s : Snapshot) : Nat := Table.total ProcessLogic.weight s

/-- A graph given in full. -/
structure Graph where
  nodes : Snapshot
deriving DecidableEq, Repr

namespace Graph

def size (g : Graph) : Nat := g.nodes.size

def hyperedges (g : Graph) (node : NodeId) : Except Fault (List Hyperedge) := g.nodes.fetch node

/-- The graph with one more node, and its number. -/
def add (g : Graph) (edges : List Hyperedge) : Graph × NodeId :=
  let node := g.size
  (⟨g.nodes.push edges⟩, node)

instance : Hypergraph Graph where
  size := size
  hyperedges g node := do pure (g, ← g.hyperedges node)
  snapshot g := pure (g, g.nodes)
  searchBound g := g.nodes.weight

end Graph

end ProcessLogic
