import ProcessLogic.Table

/-!
# Disjoint sets

Slots in trees; a tree is a set and its root stands for it. Sets are united by rank, and finding a
root shortens the path to it.
-/

set_option autoImplicit false

namespace ProcessLogic

structure Forest where
  parents : Table Nat := #[]
  ranks : Table Nat := #[]
deriving DecidableEq, Repr

namespace Forest

def size (f : Forest) : Nat := f.parents.size

def parent (f : Forest) (slot : Nat) : Nat := f.parents[slot]?.getD slot

def rank (f : Forest) (slot : Nat) : Nat := f.ranks[slot]?.getD 0

/-- One more slot, alone in its set. -/
def add (f : Forest) : Forest := ⟨f.parents.push f.size, f.ranks.push 0⟩

/-- Climbs to the root; a path is shorter than the number of slots. -/
def climb (f : Forest) : Nat → Nat → Nat
  | 0, slot => slot
  | fuel + 1, slot => if f.parent slot = slot then slot else f.climb fuel (f.parent slot)

def rootOf (f : Forest) (slot : Nat) : Nat := f.climb f.size slot

/-- Hangs every slot on the way from `slot` directly below the root. -/
def compress (root : Nat) : Nat → Nat → Forest → Forest
  | 0, _, f => f
  | fuel + 1, slot, f =>
    if f.parent slot = root then f
    else compress root fuel (f.parent slot) { f with parents := f.parents.setIfInBounds slot root }

def find (f : Forest) (slot : Nat) : Nat × Forest :=
  let root := f.rootOf slot
  (root, compress root f.size slot f)

/-- Joins two roots, the lower tree below the higher one. -/
def link (f : Forest) (a b : Nat) : Forest :=
  if a = b then f
  else if f.rank a < f.rank b then { f with parents := f.parents.setIfInBounds a b }
  else if f.rank b < f.rank a then { f with parents := f.parents.setIfInBounds b a }
  else
    { parents := f.parents.setIfInBounds b a
      ranks := f.ranks.setIfInBounds a (f.rank a + 1) }

def union (f : Forest) (a b : Nat) : Forest :=
  let (a, f) := f.find a
  let (b, f) := f.find b
  f.link a b

end Forest

end ProcessLogic
