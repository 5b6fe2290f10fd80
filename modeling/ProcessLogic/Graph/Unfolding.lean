import ProcessLogic.Graph.NodeTable

/-!
# Unfoldings

A system of equations names its unknowns by records: the right side of a record lists hyperedges of
records. Its unfolding numbers the records as they appear, and builds a node when it is asked for.
-/

set_option autoImplicit false

namespace ProcessLogic

structure System (ρ : Type) where
  /-- The key of a record that has a single node. -/
  key? : ρ → Option Nat
  equation : ρ → Run (List (List ρ))
  announce : NodeId → ρ → Event
  /-- Bounds the number of nodes that can be built. -/
  capacity : Nat
  /-- Bounds the weight of one equation. -/
  width : Nat

structure Unfolding (ρ : Type) where
  system : System ρ
  nodes : NodeTable ρ

namespace Unfolding

variable {ρ : Type}

def size (u : Unfolding ρ) : Nat := u.nodes.size

def record? (u : Unfolding ρ) (node : NodeId) : Option ρ := u.nodes.name node

variable [DecidableEq ρ]

/-- The node of a record that may be new. -/
def intern : Unfolding ρ → ρ → Unfolding ρ × NodeId
  | ⟨system, nodes⟩, record =>
    let (nodes, node) := nodes.intern (system.key? record) record
    (⟨system, nodes⟩, node)

def ofRoot (system : System ρ) (record : ρ) : Unfolding ρ :=
  ((⟨system, {}⟩ : Unfolding ρ).intern record).1

/-- The hyperedges of a node, built when they are asked for first. -/
def hyperedges : Unfolding ρ → NodeId → Run (Unfolding ρ × List Hyperedge)
  | ⟨system, nodes⟩, node => do
    match ← nodes.rows.fetch node with
    | ⟨_, some edges⟩ => pure (⟨system, nodes⟩, edges)
    | ⟨record, none⟩ =>
      Run.report (system.announce node record)
      let equation ← system.equation record
      let (nodes, edges) := nodes.internEdges system.key? equation
      pure (⟨system, ← nodes.store node edges⟩, edges)

/-- An unfolding on the way to be built in full: the nodes before `next` are built. -/
structure Construction (ρ : Type) where
  next : NodeId := 0
  unfolding : Unfolding ρ

namespace Construction

def isDone (c : Construction ρ) : Bool := c.unfolding.size ≤ c.next

def step : Construction ρ → Run (Construction ρ)
  | ⟨next, u⟩ => do
    let (u, _) ← u.hyperedges next
    pure ⟨next + 1, u⟩

end Construction

/-- Builds every node. Building adds nodes, but only `capacity` of them can be built. -/
def build (u : Unfolding ρ) : Run (Unfolding ρ) := do
  let c ← Run.iterate Construction.isDone Construction.step (u.system.capacity + 1)
    ({ unfolding := u } : Construction ρ)
  if c.isDone then pure c.unfolding else Run.fail .exhausted

def snapshot (u : Unfolding ρ) : Run (Unfolding ρ × Snapshot) := do
  let u ← u.build
  pure (u, u.nodes.rows.map fun n => n.edges.getD [])

instance : Hypergraph (Unfolding ρ) where
  size := size
  hyperedges := hyperedges
  snapshot := snapshot
  searchBound u := u.system.capacity * u.system.width

end Unfolding

end ProcessLogic
