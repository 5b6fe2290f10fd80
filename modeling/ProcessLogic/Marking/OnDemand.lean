import ProcessLogic.Graph.Basic
import ProcessLogic.Marking.Status

/-!
# Solving on demand

Decides one node and explores only what that takes. An explored node counts as unproved until all
targets of one of its hyperedges are proved. An obligation whose next target is unproved waits at
that target, and comes back to work when the target is proved.
-/

set_option autoImplicit false

namespace ProcessLogic

structure Search (γ : Type) where
  graph : γ
  marking : Marking := {}
  waiting : Table (List Obligation) := #[]
  work : List Obligation := []
  explored : Nat := 0
  steps : Nat := 0

/-- The search ended before it had an answer. -/
structure Inconclusive where
  steps : Nat
deriving DecidableEq, Repr

def Inconclusive.message (i : Inconclusive) : String := s!"no verdict after {i.steps} solver steps"

namespace Search

variable {γ : Type}

/-- Marks a node proved and takes up what was waiting for it, the latest first. -/
def prove : Search γ → NodeId → Search γ
  | ⟨graph, marking, waiting, work, explored, steps⟩, node =>
    let os := waiting[node]?.getD []
    ⟨graph, marking.set node .proved, waiting.put node [] [], os ++ work, explored, steps⟩

/-- Lets an obligation wait at a node. -/
def wait : Search γ → NodeId → Obligation → Search γ
  | ⟨graph, marking, waiting, work, explored, steps⟩, node, o =>
    let os := waiting[node]?.getD []
    ⟨graph, marking, waiting.put node (o :: os) [], work, explored, steps⟩

variable [Hypergraph γ]

/-- Marks a node unproved and puts its hyperedges to work, the first one on top. For a node that
does not exist there may not even be room. -/
def explore : Search γ → NodeId → List Obligation → Run (Search γ)
  | ⟨graph, marking, waiting, work, explored, steps⟩, node, os =>
    if node < Hypergraph.size graph then do
      let (graph, edges) ← Hypergraph.hyperedges graph node
      pure ⟨graph, marking.set node .unproved, waiting.put node os [],
        obligations node edges ++ work, explored + 1, steps⟩
    else do
      Table.checkedRows (node + 1)
      Run.fail .outOfBounds

/-- Treats one obligation, which has been taken from the work. -/
def treat (s : Search γ) (o : Obligation) : Run (Search γ) :=
  if s.marking.status o.source ≠ .unproved then pure s
  else
    match o.pending.dropWhile s.marking.holds with
    | [] => pure (s.prove o.source)
    | next :: rest =>
      let o := { o with pending := next :: rest }
      match s.marking.status next with
      | .unproved => pure (s.wait next o)
      | _ => s.explore next [o]

def isDone (s : Search γ) : Bool := s.work.isEmpty

def step : Search γ → Run (Search γ)
  | ⟨graph, marking, waiting, [], explored, steps⟩ =>
    pure ⟨graph, marking, waiting, [], explored, steps⟩
  | ⟨graph, marking, waiting, o :: work, explored, steps⟩ =>
    treat ⟨graph, marking, waiting, work, explored, steps + 1⟩ o

/-- Takes at most the given number of steps. -/
def advance (limit : Nat) (s : Search γ) : Run (Search γ) := Run.iterate isDone step limit s

def start (graph : γ) (root : NodeId) : Run (Search γ) := ({ graph } : Search γ).explore root []

/-- The search from `root` at its end. -/
def complete (graph : γ) (root : NodeId) : Run (Search γ) := do
  let bound := Hypergraph.searchBound graph
  let s ← start graph root
  let s ← s.advance bound
  if s.isDone then pure s else Run.fail .exhausted

def finish (s : Search γ) (root : NodeId) : Run (γ × Marking) := do
  Run.report (.searched root (s.marking.holds root) s.explored s.steps)
  pure (s.graph, s.marking)

end Search

section

variable {γ : Type} [Hypergraph γ]

/-- Decides `root`: it is proved if it is satisfied, and unproved otherwise. -/
def solve (graph : γ) (root : NodeId) : Run (γ × Marking) := do
  (← Search.complete graph root).finish root

/-- Decides `root` in at most `limit` steps, or gives up. -/
def solveWithin (limit : Nat) (graph : γ) (root : NodeId) :
    Run (γ × Except Inconclusive Marking) := do
  let s ← Search.start graph root
  let s ← s.advance limit
  if s.isDone then
    let (graph, marking) ← s.finish root
    pure (graph, .ok marking)
  else
    Run.report (.gaveUp root s.steps)
    pure (s.graph, .error ⟨s.steps⟩)

end

end ProcessLogic
