import ProcessLogic.Graph.Basic
import ProcessLogic.Marking.Status

/-!
# Levels

The level of a node is the least depth of a derivation that satisfies it: one more than the least,
over its hyperedges, of the highest level among the targets. A node that is not satisfied is at
infinity.
-/

set_option autoImplicit false

namespace ProcessLogic

inductive Level where
  | finite (depth : Nat)
  | infinite
deriving DecidableEq, Repr

namespace Level

def succ : Level → Level
  | .finite n => .finite (n + 1)
  | .infinite => .infinite

def lt : Level → Level → Bool
  | .finite m, .finite n => m < n
  | .finite _, .infinite => true
  | .infinite, _ => false

def max (a b : Level) : Level := if a.lt b then b else a

def isFinite : Level → Bool
  | .finite _ => true
  | .infinite => false

end Level

/-- The highest level of the nodes of a hyperedge; an empty one is at zero. -/
@[specialize] def highest (level : NodeId → Level) (edge : Hyperedge) : Level :=
  edge.foldl (fun h node => h.max (level node)) (.finite 0)

/-- Nodes beyond the table are at infinity. -/
structure LevelMarking where
  table : Table Level := #[]
deriving DecidableEq, Repr

/-- Whether a player wants low or high levels. -/
inductive Goal where
  | minimize
  | maximize
deriving DecidableEq, Repr

def Goal.improves : Goal → Level → Level → Bool
  | .minimize, new, old => new.lt old
  | .maximize, new, old => old.lt new

/-- The first of the items whose value no other improves. -/
def firstBest {α β : Type} (improves : β → β → Bool) (value : α → β) : List α → Option α
  | [] => none
  | a :: as =>
    match firstBest improves value as with
    | none => some a
    | some b => if improves (value b) (value a) then some b else some a

structure Choice where
  edge : Nat
  /-- There is none in an empty hyperedge. -/
  target : Option NodeId
deriving DecidableEq, Repr

namespace LevelMarking

def level (m : LevelMarking) (node : NodeId) : Level := m.table[node]?.getD .infinite

def edgeLevel (m : LevelMarking) (edge : Hyperedge) : Level := highest m.level edge

def status (m : LevelMarking) (node : NodeId) : Status :=
  if (m.level node).isFinite then .proved else .unproved

/-- Lower level first, then fewer targets. -/
def shorter (a b : Level × Nat) : Bool := a.1.lt b.1 || (a.1 = b.1 && a.2 < b.2)

def numbered (edges : List Hyperedge) : List (Nat × Hyperedge) :=
  (List.range edges.length).zip edges

/-- The first hyperedge of least level and, among those, least length. -/
def minimaxEdge (m : LevelMarking) (edges : List Hyperedge) : Option Nat :=
  (firstBest shorter (fun (_, e) => (m.edgeLevel e, e.length)) (numbered edges)).map (·.1)

/-- The best hyperedge and then its best target, the first of equals. -/
def bestChoice (m : LevelMarking) (goal : Goal) (edges : List Hyperedge) : Option Choice :=
  (firstBest goal.improves (fun (_, e) => m.edgeLevel e) (numbered edges)).map fun (i, e) =>
    ⟨i, firstBest goal.improves m.level e⟩

end LevelMarking

/-- A hyperedge of `source`, to be looked at again. -/
structure Relaxation where
  source : NodeId
  edge : Hyperedge
deriving DecidableEq, Repr

structure Levelling where
  levels : Table Level
  mentions : Table (List Relaxation)
  work : List Relaxation
  steps : Nat := 0
deriving DecidableEq, Repr

namespace Levelling

def empty (size : Nat) : Levelling where
  levels := Array.replicate size .infinite
  mentions := Array.replicate size []
  work := []

/-- Records that a hyperedge mentions `target`. -/
def mention (r : Relaxation) (mentions : Table (List Relaxation)) (target : NodeId) :
    Except Fault (Table (List Relaxation)) := do
  let rs ← mentions.fetch target
  mentions.assign target (r :: rs)

def schedule : Levelling → Relaxation → Except Fault Levelling
  | ⟨levels, mentions, work, steps⟩, r => do
    pure ⟨levels, ← r.edge.foldlM (mention r) mentions, r :: work, steps⟩

def relaxations (s : Snapshot) : List Relaxation :=
  s.enumerate.flatMap fun (node, edges) => edges.map fun edge => ⟨node, edge⟩

/-- Every hyperedge is at work, the last one on top; each of its targets has to exist. -/
def start (s : Snapshot) : Except Fault Levelling :=
  (relaxations s).foldlM schedule (empty s.size)

def levelAt (levels : Table Level) (node : NodeId) : Level := levels[node]?.getD .infinite

/-- Lowers the source's level if the hyperedge allows it, and then looks again at all that
mentions the source. -/
def relax : Levelling → Relaxation → Levelling
  | ⟨levels, mentions, work, steps⟩, r =>
    let candidate := (highest (levelAt levels) r.edge).succ
    if candidate.lt (levelAt levels r.source) then
      ⟨levels.setIfInBounds r.source candidate, mentions, mentions[r.source]?.getD [] ++ work, steps⟩
    else ⟨levels, mentions, work, steps⟩

def run : Nat → Levelling → Except Fault Levelling
  | 0, l => if l.work.isEmpty then .ok l else .error .exhausted
  | _ + 1, ⟨levels, mentions, [], steps⟩ => .ok ⟨levels, mentions, [], steps⟩
  | n + 1, ⟨levels, mentions, r :: work, steps⟩ =>
    run n (relax ⟨levels, mentions, work, steps + 1⟩ r)

/-- A level is finite within the number of nodes, so a node is lowered at most that often and once
from infinity. -/
def stepBound (s : Snapshot) : Nat := (s.size + 1) * s.weight

end Levelling

def solveLevels {γ : Type} [Hypergraph γ] (graph : γ) : Run (γ × LevelMarking) := do
  let (graph, s) ← Hypergraph.snapshot graph
  let l ← (← Levelling.start s).run (Levelling.stepBound s)
  Run.report (.levelled l.levels.size l.steps)
  pure (graph, ⟨l.levels⟩)

end ProcessLogic
