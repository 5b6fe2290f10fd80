import Mathlib
import ProcessLogic.Graph.Basic
import ProcessLogic.Proofs.Run

/-!
# Counting work

Sums over lists and tables, and the rule that a loop ends: each round makes a measure smaller, and
the limit on the rounds is at least the measure at the start.
-/

set_option autoImplicit false

namespace ProcessLogic

section

variable {α : Type} (f : α → Nat)

theorem sum_map_le_of_subset {as bs : List α} (has : as.Nodup) (h : as ⊆ bs) :
    (as.map f).sum ≤ (bs.map f).sum := by
  obtain ⟨cs, hperm, hsub⟩ := has.subperm h
  have heq : (as.map f).sum = (cs.map f).sum := (hperm.map f).symm.sum_eq
  have hle : (cs.map f).sum ≤ (bs.map f).sum :=
    (hsub.map f).sum_le_sum fun _ _ => Nat.zero_le _
  omega

theorem sum_map_set (as : List α) {i : Nat} (hi : i < as.length) (a : α) :
    ((as.set i a).map f).sum + f as[i] = (as.map f).sum + f a := by
  induction as generalizing i with
  | nil => simp at hi
  | cons b as ih =>
    cases i with
    | zero =>
      simp only [List.set_cons_zero, List.map_cons, List.sum_cons, List.getElem_cons_zero]
      omega
    | succ i =>
      have h := ih (i := i) (by simpa using hi)
      simp only [List.set_cons_succ, List.map_cons, List.sum_cons, List.getElem_cons_succ]
      omega

end

/-- One summand pays for `c`, and no other grows. -/
theorem sum_map_range_add_le {f g : Nat → Nat} {n i c : Nat} (hi : i < n)
    (hother : ∀ j, j ≠ i → f j ≤ g j) (hself : f i + c ≤ g i) :
    ((List.range n).map f).sum + c ≤ ((List.range n).map g).sum := by
  have hle : ∀ j, f j ≤ g j := by
    intro j
    by_cases hj : j = i
    · subst hj
      omega
    · exact hother j hj
  induction n with
  | zero => omega
  | succ n ih =>
    rw [List.range_succ, List.map_append, List.map_append, List.sum_append, List.sum_append]
    simp only [List.map_cons, List.map_nil, List.sum_cons, List.sum_nil]
    by_cases hin : i = n
    · subst hin
      have hrest := List.sum_le_sum (l := List.range i) fun j _ => hle j
      omega
    · have hrest := ih (by omega)
      have hn := hle n
      omega

namespace Table

variable {α : Type} (f : α → Nat)

theorem total_eq_sum (t : Table α) : t.total f = (t.toList.map f).sum := by
  unfold total
  induction t.toList with
  | nil => rfl
  | cons a as ih => simp [ih]

@[simp] theorem total_empty : Table.total f (#[] : Table α) = 0 := rfl

theorem total_push (t : Table α) (a : α) : Table.total f (t.push a) = t.total f + f a := by
  simp [total_eq_sum]

theorem total_setIfInBounds (t : Table α) {i : Nat} {b : α} (hb : t[i]? = some b) (a : α) :
    Table.total f (t.setIfInBounds i a) + f b = t.total f + f a := by
  obtain ⟨hi, rfl⟩ := Array.getElem?_eq_some_iff.mp hb
  have h := sum_map_set f t.toList (i := i) (by simpa using hi) a
  simpa [total_eq_sum] using h

/-- Rows that are added weigh nothing. -/
theorem total_put (t : Table α) (i : Nat) (a filler : α) (hf : f filler = 0) :
    (t.put i a filler).total f + f (t[i]?.getD filler) = t.total f + f a := by
  unfold put
  split
  · next hi =>
    have hb : t[i]? = some t[i] := Array.getElem?_eq_getElem hi
    rw [hb]
    exact total_setIfInBounds f t hb a
  · next hi =>
    have hnone : t[i]? = none := Array.getElem?_eq_none (by omega)
    simp [total_eq_sum, hnone, hf]

theorem total_eq_sum_range (t : Table α) (filler : α) :
    t.total f = ((List.range t.size).map fun i => f (t[i]?.getD filler)).sum := by
  rw [total_eq_sum]
  congr 1
  apply List.ext_getElem
  · simp
  · intro i h₁ h₂
    have hi : i < t.size := by simpa using h₁
    simp [hi]

theorem mem_enumerate {t : Table α} {i : Nat} {a : α} :
    (i, a) ∈ t.enumerate ↔ t[i]? = some a := by
  rw [enumerate, List.mem_iff_getElem?]
  constructor
  · rintro ⟨j, hj⟩
    obtain ⟨hindex, hrow⟩ := List.getElem?_zip_eq_some.mp hj
    have hij : j = i := by
      obtain ⟨hlt, heq⟩ := List.getElem?_eq_some_iff.mp hindex
      simpa [indexes] using heq
    rw [← hij]
    simpa using hrow
  · intro h
    have hi : i < t.size := (Array.getElem?_eq_some_iff.mp h).1
    exact ⟨i, List.getElem?_zip_eq_some.mpr ⟨by simp [indexes, hi], by simpa using h⟩⟩

end Table

theorem weight_eq_sum {α : Type} (edges : List (List α)) :
    weight edges = (edges.map fun edge => edge.length + 1).sum := by
  induction edges with
  | nil => rfl
  | cons edge edges ih => simp [weight, ih]

theorem weight_append {α : Type} (as bs : List (List α)) :
    weight (as ++ bs) = weight as + weight bs := by
  simp [weight_eq_sum]

theorem weight_map_singleton {α β : Type} (f : α → β) (as : List α) :
    weight (as.map fun a => [f a]) = 2 * as.length := by
  induction as with
  | nil => rfl
  | cons a as ih =>
    simp only [List.map_cons, weight, List.length_cons, List.length_nil, ih]
    omega

namespace Run

variable {σ : Type}

/-- A loop whose rounds keep an invariant and lower a measure ends with the invariant. -/
theorem iterate_ends {done : σ → Bool} {step : σ → Run σ} (Inv : σ → Prop) (measure : σ → Nat)
    (round : ∀ s, Inv s → done s = false →
      ∃ t, (step s).value = .ok t ∧ Inv t ∧ measure t < measure s)
    {limit : Nat} {s : σ} (hs : Inv s) (hlimit : measure s ≤ limit) :
    ∃ t, (iterate done step limit s).value = .ok t ∧ Inv t ∧ done t = true := by
  induction limit generalizing s with
  | zero =>
    refine ⟨s, rfl, hs, ?_⟩
    by_contra hdone
    obtain ⟨t, _, _, hlt⟩ := round s hs (by simpa using hdone)
    omega
  | succ n ih =>
    rw [iterate_succ]
    split
    · next hdone => exact ⟨s, rfl, hs, hdone⟩
    · next hdone =>
      obtain ⟨t, hstep, ht, hlt⟩ := round s hs (by simpa using hdone)
      rw [value_bind_of_ok hstep]
      exact ih ht (by omega)

end Run

end ProcessLogic
