import ProcessLogic.Proofs.Lts.Union
import ProcessLogic.Proofs.Run

/-!
# Systems with idle states

A system may get more states that have no transitions. No step comes or goes by that, and every row
that a generator of the system has, strong or weak, its generator has with the idle states too.
-/

set_option autoImplicit false

namespace ProcessLogic

namespace Lts

variable {l : Lts} {k : Nat} {s t : StateId} {a : String} {strength : Strength}

def idle (k : Nat) : Lts := ⟨0, Array.replicate k []⟩

theorem transitions_idle (k : Nat) (s : StateId) : (idle k).transitions s = [] := by
  rw [transitions, idle, Array.getElem?_replicate]
  split <;> rfl

/-- The system with `k` more states. -/
def padded (l : Lts) (k : Nat) : Lts := l.beside (idle k)

theorem stateCount_padded (l : Lts) (k : Nat) : (l.padded k).stateCount = l.stateCount + k := by
  rw [padded, stateCount_beside]
  simp [idle, stateCount]

theorem lt_stateCount_padded (l : Lts) (h : s < k) : s < (l.padded k).stateCount := by
  rw [stateCount_padded]
  exact Nat.lt_of_lt_of_le h (Nat.le_add_left k _)

theorem transitions_padded (l : Lts) (k : Nat) (s : StateId) :
    (l.padded k).transitions s = l.transitions s := by
  by_cases hs : s < l.stateCount
  · exact transitions_beside_left hs
  · obtain ⟨s', rfl⟩ := Nat.exists_eq_add_of_le' (Nat.le_of_not_lt hs)
    rw [padded, transitions_beside_right, transitions_idle, transitions,
      Array.getElem?_eq_none (Nat.le_of_not_lt hs)]
    rfl

theorem step_padded_iff : (l.padded k).Step s a t ↔ l.Step s a t := by
  rw [step_iff, step_iff, transitions_padded]

theorem inRange_padded (hl : l.InRange) (k : Nat) : (l.padded k).InRange := by
  intro s a t step
  rw [stateCount_padded]
  exact Nat.lt_add_right _ (hl s a t (step_padded_iff.mp step))

theorem couples_padded (l : Lts) (k : Nat) : Couples (l.padded k).Step l.Step Eq where
  forth := by
    rintro s _ a t rfl step
    exact ⟨t, step_padded_iff.mp step, rfl⟩
  back := by
    rintro s _ a t rfl step
    exact ⟨t, step_padded_iff.mpr step, rfl⟩

theorem bisimilar_padded_iff (attack defend : Strength) :
    Bisimilar ((l.padded k).Move attack) ((l.padded k).Move defend) s t ↔
      Bisimilar (l.Move attack) (l.Move defend) s t :=
  ((l.couples_padded k).move attack).bisimilar_iff ((l.couples_padded k).move defend) rfl rfl

theorem transitionCount_le_padded (l : Lts) (k : Nat) :
    l.transitionCount ≤ (l.padded k).transitionCount := by
  rw [transitionCount, transitionCount, Table.total_eq_sum, Table.total_eq_sum, padded, beside,
    Array.toList_appendList, List.map_append, List.sum_append]
  exact Nat.le_add_right _ _

theorem degree_le_padded (l : Lts) (k : Nat) (strength : Strength) :
    (l.generator strength).degree ≤ ((l.padded k).generator strength).degree := by
  have hcount := l.transitionCount_le_padded k
  cases strength with
  | strong => exact hcount
  | weak => exact Nat.mul_le_mul (Nat.succ_le_succ hcount) (Nat.succ_le_succ hcount)

theorem row_below_padded (l : Lts) (k : Nat) (s : StateId) :
    Below Eq (l.row s) ((l.padded k).row s) := by
  intro row hrow
  have hs : s < l.stateCount := (Array.getElem?_eq_some_iff.mp (Table.fetch_eq_ok_iff.mp hrow)).1
  have hs' : s < (l.padded k).stateCount := by
    rw [stateCount_padded]
    exact Nat.lt_add_right k hs
  rw [row_eq hs] at hrow
  exact ⟨_, row_eq hs', by rw [transitions_padded, Except.ok.inj hrow]⟩

/-- More fuel does no harm. -/
theorem closeStack_below_padded {fuel fuel' : Nat} (hfuel : fuel ≤ fuel') (stack : List StateId)
    (seen : Numbering StateId) :
    Below Eq (l.closeStack fuel stack seen) ((l.padded k).closeStack fuel' stack seen) := by
  induction fuel generalizing fuel' stack seen with
  | zero =>
    cases stack with
    | nil =>
      simp only [closeStack]
      exact .refl _
    | cons s stack => exact .error _ _
  | succ fuel ih =>
    cases stack with
    | nil =>
      simp only [closeStack]
      exact .refl _
    | cons s stack =>
      obtain ⟨n, rfl⟩ := Nat.exists_eq_succ_of_ne_zero (Nat.ne_of_gt (Nat.lt_of_lt_of_le
        (Nat.succ_pos fuel) hfuel))
      exact (l.row_below_padded k s).bind_eq fun row => ih (Nat.le_of_succ_le_succ hfuel) _ _

theorem tauClosure_below_padded (l : Lts) (k : Nat) (s : StateId) :
    Below Eq (l.tauClosure s) ((l.padded k).tauClosure s) := by
  have hfuel : l.stateCount + 1 ≤ (l.padded k).stateCount + 1 := by
    rw [stateCount_padded]
    omega
  exact (closeStack_below_padded hfuel _ _).map _

theorem visibleMoves_below_padded (l : Lts) (k : Nat) (s : StateId) :
    Below Eq (l.visibleMoves s) ((l.padded k).visibleMoves s) := by
  apply (l.row_below_padded k s).bind_eq
  intro row
  apply Below.bind_eq _ fun moves => .refl _
  apply Below.mapM
  intro e
  exact (l.tauClosure_below_padded k e.target).bind_eq fun states => .refl _

theorem weakRow_below_padded (l : Lts) (k : Nat) (s : StateId) :
    Below Eq (l.weakRow s) ((l.padded k).weakRow s) := by
  apply (l.tauClosure_below_padded k s).bind_eq
  intro before
  apply Below.bind_eq _ fun visible => .refl _
  exact .mapM (l.visibleMoves_below_padded k) before

theorem lt_of_row_generator {row : List Transition}
    (h : (l.generator strength).row s = .ok row) : s < l.stateCount := by
  have hsize : (l.generator strength).rows.size = l.stateCount := by
    cases strength with
    | strong => exact Array.size_map
    | weak => exact Array.size_map.trans Array.size_range
  obtain ⟨thunk, hthunk, -⟩ := bind_eq_ok.mp h
  rw [← hsize]
  exact (Array.getElem?_eq_some_iff.mp (Table.fetch_eq_ok_iff.mp hthunk)).1

/-- What the generator of a system lists, it lists with idle states too. -/
theorem row_generator_below_padded (l : Lts) (k : Nat) (strength : Strength) (s : StateId) :
    Below Eq ((l.generator strength).row s) (((l.padded k).generator strength).row s) := by
  intro row hrow
  have hs := lt_of_row_generator hrow
  have hs' : s < (l.padded k).stateCount := by
    rw [stateCount_padded]
    exact Nat.lt_add_right k hs
  refine ⟨row, ?_, rfl⟩
  cases strength with
  | strong =>
    have hstrong : l.strong.row s = .ok (l.transitions s) := row_strong hs
    have hpadded : (l.padded k).strong.row s = .ok (l.transitions s) := by
      rw [row_strong hs', transitions_padded]
    exact hpadded.trans (hstrong.symm.trans hrow)
  | weak =>
    have hweak : l.weakRow s = .ok row := (row_weak_eq hs).symm.trans hrow
    exact (row_weak_eq hs').trans ((l.weakRow_below_padded k s).eq_ok hweak)

theorem successors_below_padded (l : Lts) (k : Nat) (strength : Strength) (s : StateId) :
    Below Eq ((l.generator strength).successors s).value
      (((l.padded k).generator strength).successors s).value := by
  have hrow : Below Eq (liftM ((l.generator strength).row s) : Run (List Transition)).value
      (liftM (((l.padded k).generator strength).row s) : Run (List Transition)).value :=
    l.row_generator_below_padded k strength s
  apply hrow.bind_run_eq
  intro row
  cases strength with
  | strong => exact .refl _
  | weak => exact .refl _

end Lts

end ProcessLogic
