import ProcessLogic.Fault

/-!
# Tables

Rows addressed by number. Reading or writing past the end is a fault; `ensure` and `put` grow the
table instead. A row takes three words, and half of the address space bounds the number of rows.
-/

set_option autoImplicit false

namespace ProcessLogic

abbrev Table (α : Type) := Array α

namespace Table

variable {α : Type}

def fetch (t : Table α) (i : Nat) : Except Fault α :=
  match t[i]? with
  | some a => .ok a
  | none => .error .outOfBounds

def assign (t : Table α) (i : Nat) (a : α) : Except Fault (Table α) :=
  if i < t.size then .ok (t.setIfInBounds i a) else .error .outOfBounds

/-- The number of rows missing before row `i` exists. -/
def missing (t : Table α) (i : Nat) : Nat := i + 1 - t.size

/-- The greatest number of rows. -/
def rowBound : Nat := 0x555555555555555

def checkedRows (count : Nat) : Except Fault Unit :=
  if count ≤ rowBound then .ok () else .error .capacity

/-- Grows the table until row `i` exists; the `k`-th row added, counted from one, is `fill k`. -/
def ensure (t : Table α) (i : Nat) (fill : Nat → α) : Except Fault (Table α) := do
  if i < t.size then pure t
  else
    checkedRows (i + 1)
    pure (t ++ ((List.range (t.missing i)).map fun k => fill (k + 1)).toArray)

/-- Writes row `i`, with `filler` in every row that has to be added before it. -/
def put (t : Table α) (i : Nat) (a filler : α) : Table α :=
  if i < t.size then t.setIfInBounds i a
  else (t ++ Array.replicate (i - t.size) filler).push a

/-- The sum of a measure over all rows. -/
def total (measure : α → Nat) (t : Table α) : Nat := t.toList.foldr (fun a n => measure a + n) 0

def indexes (t : Table α) : List Nat := List.range t.size

def enumerate (t : Table α) : List (Nat × α) := t.indexes.zip t.toList

theorem fetch_eq_ok_iff {t : Table α} {i : Nat} {a : α} : t.fetch i = .ok a ↔ t[i]? = some a := by
  unfold fetch
  cases t[i]? <;> simp

theorem checkedRows_eq_ok_iff {n : Nat} : checkedRows n = .ok () ↔ n ≤ rowBound := by
  unfold checkedRows
  split <;> simp_all

theorem getElem?_put (t : Table α) (i j : Nat) (a filler : α) :
    (t.put i a filler)[j]? =
      if j = i then some a
      else if j < t.size then t[j]?
      else if j < i then some filler
      else none := by
  unfold put
  split
  · next hi =>
    rw [Array.getElem?_setIfInBounds]
    by_cases hj : j = i
    · subst hj
      simp [hi]
    · have hij : i ≠ j := fun h => hj h.symm
      by_cases hs : j < t.size
      · simp [hj, hij, hs]
      · have hlt : ¬ j < i := by omega
        simp [hj, hij, hs, hlt]
  · next hi =>
    rw [Array.getElem?_push, Array.getElem?_append]
    simp only [Array.size_append, Array.size_replicate, Array.getElem?_replicate]
    have hsize : t.size + (i - t.size) = i := by omega
    rw [hsize]
    by_cases hj : j = i
    · simp [hj]
    · by_cases hs : j < t.size
      · simp [hj, hs]
      · by_cases hlt : j < i
        · have : j - t.size < i - t.size := by omega
          simp [hj, hs, hlt, this]
        · have : ¬ j - t.size < i - t.size := by omega
          simp [hj, hs, hlt, this]

end Table

end ProcessLogic
