import ProcessLogic.Index
import ProcessLogic.Table

/-!
# Labelled transition systems

Row `s` of a system lists the transitions that leave state `s`, in order. Targets and the first
state need not have a row of their own; asking for a missing row is a fault.
-/

set_option autoImplicit false

namespace ProcessLogic

structure Transition where
  label : String
  target : StateId
deriving DecidableEq, Repr

structure Edge where
  source : StateId
  label : String
  target : StateId
deriving DecidableEq, Repr

instance : Keyed Transition := ⟨fun t => mixedKey (key t.label) t.target⟩

/-- The label of internal moves. -/
def tau : String := "tau"

def Transition.isTau (t : Transition) : Bool := t.label == tau

structure Lts where
  first : StateId
  rows : Table (List Transition)
deriving DecidableEq, Repr

namespace Lts

def stateCount (l : Lts) : Nat := l.rows.size

def transitionCount (l : Lts) : Nat := l.rows.total List.length

def row (l : Lts) (s : StateId) : Except Fault (List Transition) := l.rows.fetch s

def edges (l : Lts) : List Edge :=
  l.rows.enumerate.flatMap fun (s, row) => row.map fun t => ⟨s, t.label, t.target⟩

def tauCount (l : Lts) : Nat := (l.edges.filter fun e => e.label == tau).length

/-- An edge in front of those that follow it. -/
def addEdge (e : Edge) (rows : Table (List Transition)) : Table (List Transition) :=
  rows.modify e.source (⟨e.label, e.target⟩ :: ·)

/-- The system with `count` rows, which keep the order of the edges. -/
def collect (first : StateId) (count : Nat) (edges : List Edge) : Lts :=
  ⟨first, edges.foldr addEdge (Array.replicate count [])⟩

def checkEdge (count : Nat) (e : Edge) : Except Fault Unit := do
  let source ← checkedId e.source
  if source < count then discard (checkedId e.target) else throw .outOfBounds

def ofEdges (first : StateId) (count : Nat) (edges : List Edge) : Except Fault Lts := do
  Table.checkedRows count
  edges.forM (checkEdge count)
  pure (collect first count edges)

def shift (offset : Nat) (t : Transition) : Except Fault Transition := do
  pure { t with target := ← checkedId (t.target + offset) }

/-- The rows of `r` behind those of `l`, with the new number of the first state of `r`. -/
def union (l r : Lts) : Except Fault (Lts × StateId) := do
  let rows ← r.rows.toList.mapM fun row => row.mapM (shift l.stateCount)
  let first ← checkedId (r.first + l.stateCount)
  pure (⟨l.first, l.rows ++ rows⟩, first)

end Lts

end ProcessLogic
