import ProcessLogic.Graph.Basic
import ProcessLogic.Marking.Status

/-!
# Solving every node

Starts with every node unproved and every hyperedge at work, the last one on top. A proved node
puts back to work what was waiting for it.
-/

set_option autoImplicit false

namespace ProcessLogic

structure Propagation where
  status : Table Status
  waiting : Table (List Obligation)
  work : List Obligation
  steps : Nat := 0
deriving DecidableEq, Repr

namespace Propagation

def start (s : Snapshot) : Propagation where
  status := Array.replicate s.size .unproved
  waiting := Array.replicate s.size []
  work := (s.enumerate.flatMap fun (node, edges) => obligations node edges).reverse

/-- Drops targets up to the first that is not proved; only those looked at have to exist. -/
def dropProved (status : Table Status) : List NodeId → Except Fault (List NodeId)
  | [] => .ok []
  | node :: nodes => do
    if (← status.fetch node) = .proved then dropProved status nodes else pure (node :: nodes)

/-- Marks a node proved and takes up what was waiting for it, the latest first. -/
def prove : Propagation → NodeId → Propagation
  | ⟨status, waiting, work, steps⟩, node =>
    let os := waiting[node]?.getD []
    ⟨status.setIfInBounds node .proved, waiting.setIfInBounds node [], os ++ work, steps⟩

/-- Lets an obligation wait at a node. -/
def wait : Propagation → NodeId → Obligation → Propagation
  | ⟨status, waiting, work, steps⟩, node, o => ⟨status, waiting.modify node (o :: ·), work, steps⟩

def treat (p : Propagation) (o : Obligation) : Except Fault Propagation := do
  if (← p.status.fetch o.source) ≠ .unproved then pure p
  else
    match ← dropProved p.status o.pending with
    | [] => pure (p.prove o.source)
    | next :: rest => pure (p.wait next { o with pending := next :: rest })

def run : Nat → Propagation → Except Fault Propagation
  | 0, p => if p.work.isEmpty then .ok p else .error .exhausted
  | _ + 1, ⟨status, waiting, [], steps⟩ => .ok ⟨status, waiting, [], steps⟩
  | n + 1, ⟨status, waiting, o :: work, steps⟩ => do
    run n (← treat ⟨status, waiting, work, steps + 1⟩ o)

end Propagation

/-- Decides every node. An obligation is taken up once, and once more for each of its targets at
most, so the weight of the graph bounds the steps. -/
def solveAll {γ : Type} [Hypergraph γ] (graph : γ) : Run (γ × Marking) := do
  let (graph, s) ← Hypergraph.snapshot graph
  let p ← (Propagation.start s).run s.weight
  let marking : Marking := ⟨p.status⟩
  Run.report (.propagated marking.provedCount p.status.size p.steps)
  pure (graph, marking)

end ProcessLogic
