import Std.Data.TreeMap

/-!
# Indexes

Numbers filed under keys, so that an item is found again without a look at all the others. Equal
items have equal keys; what is filed under a key still has to be compared.
-/

set_option autoImplicit false

namespace ProcessLogic

/-- Items with a key, which few different items share. -/
class Keyed (α : Type) where
  key : α → Nat

export Keyed (key)

/-- One key of two. -/
def mixedKey (j k : Nat) : Nat := (j * 0xF4243 + k) % 0xFFFFFFFFFB

instance : Keyed Nat := ⟨fun n => n⟩

instance {α β : Type} [Keyed α] [Keyed β] : Keyed (α × β) := ⟨fun p => mixedKey (key p.1) (key p.2)⟩

instance {α : Type} [Keyed α] : Keyed (List α) :=
  ⟨fun as => as.foldl (fun k a => mixedKey k (key a)) 0⟩

instance : Keyed String := ⟨fun s => key (s.toList.map Char.toNat)⟩

structure Index where
  drawers : Std.TreeMap Nat (List Nat) := ∅

namespace Index

/-- The numbers filed under a key, the latest first. -/
def under (x : Index) (key : Nat) : List Nat := x.drawers.getD key []

def file (x : Index) (key number : Nat) : Index :=
  ⟨x.drawers.insert key (number :: x.under key)⟩

@[simp] theorem under_empty (key : Nat) : ({} : Index).under key = [] := by
  simp [under]

theorem under_file (x : Index) (key number other : Nat) :
    (x.file key number).under other =
      if key = other then number :: x.under key else x.under other := by
  simp [under, file, Std.TreeMap.getD_insert]

end Index

end ProcessLogic
