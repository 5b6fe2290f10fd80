import ProcessLogic.Index
import ProcessLogic.Table

/-!
# Numberings

Distinct items numbered in the order of their first insertion. An index leads from an item to its
number.
-/

set_option autoImplicit false

namespace ProcessLogic

structure Numbering (α : Type) where
  items : Array α := #[]
  index : Index := {}

namespace Numbering

variable {α : Type}

def size (n : Numbering α) : Nat := n.items.size

def toList (n : Numbering α) : List α := n.items.toList

def item (n : Numbering α) (i : Nat) : Except Fault α := Table.fetch n.items i

variable [Keyed α] [DecidableEq α]

def index? (n : Numbering α) (a : α) : Option Nat :=
  (n.index.under (key a)).find? fun i => n.items[i]? = some a

def contains (n : Numbering α) (a : α) : Bool := (n.index? a).isSome

def insert (n : Numbering α) (a : α) : Numbering α :=
  if n.contains a then n
  else
    match n with
    | ⟨items, index⟩ =>
      let number := items.size
      ⟨items.push a, index.file (key a) number⟩

def insertAll (n : Numbering α) (as : List α) : Numbering α := as.foldl insert n

def ofList (as : List α) : Numbering α := insertAll {} as

/-- Every number is filed under the key of its item. -/
def Filed (n : Numbering α) : Prop :=
  ∀ (i : Nat) (a : α), n.items[i]? = some a → i ∈ n.index.under (key a)

theorem getElem?_of_index? {n : Numbering α} {a : α} {i : Nat} (h : n.index? a = some i) :
    n.items[i]? = some a := by
  simpa using List.find?_some h

theorem mem_of_contains {n : Numbering α} {a : α} (h : n.contains a = true) : a ∈ n.items := by
  obtain ⟨i, hi⟩ := Option.isSome_iff_exists.mp h
  exact Array.mem_of_getElem? (getElem?_of_index? hi)

theorem contains_iff {n : Numbering α} (hn : n.Filed) {a : α} :
    n.contains a = true ↔ a ∈ n.items := by
  refine ⟨mem_of_contains, fun h => ?_⟩
  obtain ⟨i, hi⟩ := Array.getElem?_of_mem h
  rw [contains, index?, List.find?_isSome]
  exact ⟨i, hn i a hi, by simpa using hi⟩

theorem index?_eq_some_iff {n : Numbering α} (hf : n.Filed) (hn : n.toList.Nodup) {a : α}
    {i : Nat} : n.index? a = some i ↔ n.items[i]? = some a := by
  refine ⟨getElem?_of_index?, fun h => ?_⟩
  obtain ⟨j, hj⟩ := Option.isSome_iff_exists.mp ((contains_iff hf).mpr (Array.mem_of_getElem? h))
  have hi : i < n.toList.length := (Array.getElem?_eq_some_iff.mp h).1
  have heq : n.toList[i]? = n.toList[j]? := by
    simpa [toList] using h.trans (getElem?_of_index? hj).symm
  rw [hj, (List.getElem?_inj hi hn).mp heq]

theorem insert_of_contains {n : Numbering α} {a : α} (h : n.contains a = true) :
    n.insert a = n := by
  unfold insert
  rw [if_pos h]

theorem toList_insert (n : Numbering α) (a : α) :
    (n.insert a).toList = if n.contains a then n.toList else n.toList ++ [a] := by
  unfold insert
  split
  · rfl
  · simp [toList]

theorem size_insert_le (n : Numbering α) (a : α) : (n.insert a).size ≤ n.size + 1 := by
  unfold insert
  split
  · exact Nat.le_succ _
  · simp [size]

theorem mem_insert {n : Numbering α} {a b : α} : b ∈ (n.insert a).items ↔ b ∈ n.items ∨ b = a := by
  unfold insert
  split
  · next h =>
    refine ⟨.inl, ?_⟩
    rintro (hb | rfl)
    · exact hb
    · exact mem_of_contains h
  · simp

omit [DecidableEq α] in
theorem filed_empty : ({} : Numbering α).Filed := by
  intro i a h
  simp at h

theorem filed_insert {n : Numbering α} (hn : n.Filed) (a : α) : (n.insert a).Filed := by
  unfold insert
  split
  · exact hn
  · intro i b h
    rw [Index.under_file]
    rw [Array.getElem?_push] at h
    split at h
    · next hi =>
      obtain rfl := Option.some.inj h
      simp [hi]
    · have hb := hn i b h
      split
      · next hk => exact List.mem_cons_of_mem _ (hk ▸ hb)
      · exact hb

theorem nodup_insert {n : Numbering α} {a : α} (hf : n.Filed) (hn : n.toList.Nodup) :
    (n.insert a).toList.Nodup := by
  rw [toList_insert]
  split
  · exact hn
  · next h =>
    have ha : a ∉ n.items := fun ha => h ((contains_iff hf).mpr ha)
    rw [List.nodup_append]
    refine ⟨hn, by simp, ?_⟩
    intro b hb c hc
    rw [List.mem_singleton.mp hc]
    rintro rfl
    exact ha (Array.mem_toList_iff.mp hb)

theorem mem_insertAll {n : Numbering α} {as : List α} {b : α} :
    b ∈ (n.insertAll as).items ↔ b ∈ n.items ∨ b ∈ as := by
  induction as generalizing n with
  | nil => simp [insertAll]
  | cons a as ih =>
    have h := ih (n := n.insert a)
    simp only [insertAll, List.foldl_cons] at h ⊢
    rw [h, mem_insert, List.mem_cons, or_assoc]

theorem filed_insertAll {n : Numbering α} {as : List α} (hf : n.Filed) : (n.insertAll as).Filed := by
  induction as generalizing n with
  | nil => exact hf
  | cons a as ih => exact ih (filed_insert hf a)

theorem nodup_insertAll {n : Numbering α} {as : List α} (hf : n.Filed) (hn : n.toList.Nodup) :
    (n.insertAll as).toList.Nodup := by
  induction as generalizing n with
  | nil => exact hn
  | cons a as ih => exact ih (filed_insert hf a) (nodup_insert hf hn)

theorem filed_ofList (as : List α) : (ofList as).Filed := filed_insertAll filed_empty

theorem mem_ofList {as : List α} {b : α} : b ∈ (ofList as).items ↔ b ∈ as := by
  simp [ofList, mem_insertAll]

theorem nodup_ofList (as : List α) : (ofList as).toList.Nodup :=
  nodup_insertAll filed_empty List.nodup_nil

end Numbering

end ProcessLogic
