import ProcessLogic.Table

/-!
# Markings

What a solver has found out about each node.
-/

set_option autoImplicit false

namespace ProcessLogic

inductive Status where
  | unexplored
  /-- Not proved; while a search runs this may still change. -/
  | unproved
  | proved
deriving DecidableEq, Repr

/-- Nodes beyond the table are unexplored. -/
structure Marking where
  table : Table Status := #[]
deriving DecidableEq, Repr

namespace Marking

def status (m : Marking) (node : NodeId) : Status := m.table[node]?.getD .unexplored

def holds (m : Marking) (node : NodeId) : Bool := m.status node = .proved

def set (m : Marking) (node : NodeId) (s : Status) : Marking := ⟨m.table.put node s .unexplored⟩

def exploredCount (m : Marking) : Nat := m.table.toList.countP (· ≠ .unexplored)

def provedCount (m : Marking) : Nat := m.table.toList.countP (· = .proved)

end Marking

/-- A hyperedge of `source` with the targets that are still to be proved. They are taken in order,
the last target of the hyperedge first. -/
structure Obligation where
  source : NodeId
  pending : List NodeId
deriving DecidableEq, Repr

def obligations (node : NodeId) (edges : List (List NodeId)) : List Obligation :=
  edges.map fun edge => ⟨node, edge.reverse⟩

end ProcessLogic
