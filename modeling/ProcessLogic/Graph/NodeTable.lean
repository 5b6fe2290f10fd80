import ProcessLogic.Graph.Basic
import ProcessLogic.Index

/-!
# Node tables

Nodes in the order of their creation. Each carries a record that says how to build it, and its
hyperedges once it is built. Records that have a single node are filed in an index.
-/

set_option autoImplicit false

namespace ProcessLogic

section

variable {σ α β : Type} (f : σ → α → σ × β)

@[specialize] def threadFrom : List α → σ → List β → σ × List β
  | [], s, bs => (s, bs.reverse)
  | a :: as, s, bs =>
    let (s, b) := f s a
    threadFrom as s (b :: bs)

/-- Maps a list from left to right, each item in the state that the ones before it left behind. -/
@[inline] def thread (s : σ) (as : List α) : σ × List β := threadFrom f as s []

theorem threadFrom_eq (as : List α) (s : σ) (bs : List β) :
    threadFrom f as s bs = ((thread f s as).1, bs.reverse ++ (thread f s as).2) := by
  induction as generalizing s bs with
  | nil => simp [thread, threadFrom]
  | cons a as ih =>
    simp only [thread, threadFrom]
    rw [ih, ih (f s a).1 [(f s a).2]]
    simp

@[simp] theorem thread_nil (s : σ) : thread f s [] = (s, []) := rfl

@[simp] theorem thread_cons (s : σ) (a : α) (as : List α) :
    thread f s (a :: as) =
      ((thread f (f s a).1 as).1, (f s a).2 :: (thread f (f s a).1 as).2) := by
  simp only [thread, threadFrom]
  rw [threadFrom_eq]
  simp [thread]

end

structure Node (ρ : Type) where
  record : ρ
  edges : Option (List Hyperedge)
deriving DecidableEq, Repr

structure NodeTable (ρ : Type) where
  rows : Table (Node ρ) := #[]
  index : Index := {}

namespace NodeTable

variable {ρ : Type}

def size (t : NodeTable ρ) : Nat := t.rows.size

/-- A node to be built later, and its number. -/
def add : NodeTable ρ → ρ → NodeTable ρ × NodeId
  | ⟨rows, index⟩, record =>
    let node := rows.size
    (⟨rows.push ⟨record, none⟩, index⟩, node)

def addBuilt : NodeTable ρ → ρ → List Hyperedge → NodeTable ρ × NodeId
  | ⟨rows, index⟩, record, edges =>
    let node := rows.size
    (⟨rows.push ⟨record, some edges⟩, index⟩, node)

def ofRoot (record : ρ) : NodeTable ρ := (({} : NodeTable ρ).add record).1

def record (t : NodeTable ρ) (node : NodeId) : Except Fault ρ := do
  pure (← t.rows.fetch node).record

/-- The record of a node that may not exist. -/
def name (t : NodeTable ρ) (node : NodeId) : Option ρ := t.rows[node]?.map (·.record)

def built (t : NodeTable ρ) (node : NodeId) : Except Fault (Option (List Hyperedge)) := do
  pure (← t.rows.fetch node).edges

/-- Fixes the hyperedges of a node, once and for all. -/
def store : NodeTable ρ → NodeId → List Hyperedge → Except Fault (NodeTable ρ)
  | ⟨rows, index⟩, node, edges => do
    let n ← rows.fetch node
    if n.edges.isSome then throw (.builtTwice node)
    pure ⟨← rows.assign node { n with edges := some edges }, index⟩

def records (t : NodeTable ρ) : List (NodeId × ρ) :=
  t.rows.enumerate.map fun (node, n) => (node, n.record)

/-- A node to be built later, which is found again under a key. -/
def file (t : NodeTable ρ) (key : Nat) (record : ρ) : NodeTable ρ × NodeId :=
  match t.add record with
  | (⟨rows, index⟩, node) => (⟨rows, index.file key node⟩, node)

variable [DecidableEq ρ]

def find? (t : NodeTable ρ) (key : Nat) (record : ρ) : Option NodeId :=
  (t.index.under key).find? fun node => t.rows[node]?.any fun n => n.record = record

/-- What is found carries the record. -/
theorem name_of_find? {t : NodeTable ρ} {key : Nat} {r : ρ} {node : NodeId}
    (h : t.find? key r = some node) : t.name node = some r := by
  have found := List.find?_some h
  cases hn : t.rows[node]? with
  | none => simp [hn] at found
  | some n => simpa [name, hn] using found

/-- The node of a record. A record with a key has one node, any other gets a new node each time. -/
def intern (t : NodeTable ρ) (key? : Option Nat) (record : ρ) : NodeTable ρ × NodeId :=
  match key? with
  | none => t.add record
  | some key =>
    match t.find? key record with
    | some node => (t, node)
    | none => t.file key record

/-- The nodes of a list of records, taken in order. -/
def internEdge (key? : ρ → Option Nat) (t : NodeTable ρ) (records : List ρ) :
    NodeTable ρ × Hyperedge :=
  thread (fun t r => intern t (key? r) r) t records

def internEdges (key? : ρ → Option Nat) (t : NodeTable ρ) (equation : List (List ρ)) :
    NodeTable ρ × List Hyperedge :=
  thread (internEdge key?) t equation

end NodeTable

end ProcessLogic
