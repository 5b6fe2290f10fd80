import ProcessLogic.Proofs.Formula.Satisfaction
import ProcessLogic.Proofs.Formula.Transfer
import ProcessLogic.Proofs.Game.Bisimilarity
import ProcessLogic.Proofs.Game.Inclusion

/-!
# Systems side by side

In the union of two systems each of them has a block of states of its own, and no step leaves a
block. So a state and its copy in the union answer each other's moves, single ones and weak ones, and
every verdict about states of one system is the verdict about their copies.
-/

set_option autoImplicit false

namespace ProcessLogic

namespace Lts

/-- The states of `whole` from `offset` on begin with a copy of `part`. -/
structure Placed (part whole : Lts) (offset : Nat) : Prop where
  lt : ∀ {s}, s < part.stateCount → s + offset < whole.stateCount
  step_iff : ∀ {s a t}, s < part.stateCount →
    (whole.Step (s + offset) a t ↔ ∃ t', part.Step s a t' ∧ t = t' + offset)

/-- A state and its copy. -/
def Copies (part : Lts) (offset : Nat) (s t : StateId) : Prop :=
  s < part.stateCount ∧ t = s + offset

/-- Every verdict about states of `part` is the verdict about the states of `whole` that are `offset`
further on. -/
structure KeepsVerdicts (part whole : Lts) (offset : Nat) : Prop where
  check : ∀ {f d s}, f.definitions = .ok d → s < part.stateCount →
    ∃ verdict, (part.check s f).value = .ok (.ok verdict) ∧
      (whole.check (s + offset) f).value = .ok (.ok verdict)
  bisimilar : ∀ {p q} (attack defend : Strength), p < part.stateCount → q < part.stateCount →
    ∃ verdict,
      (bisimilar (part.generator attack) (part.generator defend) p q).value = .ok verdict ∧
      (bisimilar (whole.generator attack) (whole.generator defend) (p + offset)
        (q + offset)).value = .ok verdict
  traceIncluded : ∀ {p q} (attack defend : Strength), p < part.stateCount → q < part.stateCount →
    ∃ verdict,
      (traceIncluded (part.generator attack) (part.generator defend) p q).value = .ok verdict ∧
      (traceIncluded (whole.generator attack) (whole.generator defend) (p + offset)
        (q + offset)).value = .ok verdict

section

variable {part whole : Lts} {offset : Nat}

theorem Placed.couples (hpart : part.InRange) (h : Placed part whole offset) :
    Couples part.Step whole.Step (part.Copies offset) where
  forth := by
    intro s t a s' hst step
    obtain ⟨hs, rfl⟩ := hst
    exact ⟨s' + offset, (h.step_iff hs).mpr ⟨s', step, rfl⟩, hpart s a s' step, rfl⟩
  back := by
    intro t s a t' hst step
    obtain ⟨hs, rfl⟩ := hst
    obtain ⟨s', step', rfl⟩ := (h.step_iff hs).mp step
    exact ⟨s', step', hpart s a s' step', rfl⟩

theorem Placed.keepsVerdicts (hpart : part.InRange) (hwhole : whole.InRange)
    (h : Placed part whole offset) : KeepsVerdicts part whole offset where
  check := by
    intro f d s hf hs
    -- an accepted formula is closed, so any valuation will do
    classical
    have hiff : f.Holds part.Move (fun _ _ => False) s ↔
        f.Holds whole.Move (fun _ _ => False) (s + offset) :=
      Formula.holds_iff_of_couples (fun strength _ => (h.couples hpart).move strength)
        (fun _ _ _ _ => Iff.rfl) ⟨hs, rfl⟩
    rw [check_value hpart hf hs, check_value hwhole hf (h.lt hs), decide_eq_decide.mpr hiff]
    exact ⟨_, rfl, rfl⟩
  bisimilar := by
    intro p q attack defend hp hq
    classical
    have hiff := ((h.couples hpart).move attack).bisimilar_iff ((h.couples hpart).move defend)
      ⟨hp, rfl⟩ ⟨hq, rfl⟩
    rw [bisimilar_value hpart hp hq, bisimilar_value hwhole (h.lt hp) (h.lt hq),
      decide_eq_decide.mpr hiff]
    exact ⟨_, rfl, rfl⟩
  traceIncluded := by
    intro p q attack defend hp hq
    classical
    have hiff := ((h.couples hpart).move attack).tracesIncluded_iff ((h.couples hpart).move defend)
      ⟨hp, rfl⟩ ⟨hq, rfl⟩
    rw [traceIncluded_value hpart hp hq, traceIncluded_value hwhole (h.lt hp) (h.lt hq),
      decide_eq_decide.mpr hiff]
    exact ⟨_, rfl, rfl⟩

end

section

variable {l r : Lts} {s t : StateId} {a : String}

def moved (offset : Nat) (e : Transition) : Transition := { e with target := e.target + offset }

theorem mem_map_moved {offset : Nat} {row : List Transition} :
    ⟨a, t⟩ ∈ row.map (moved offset) ↔ ∃ t', ⟨a, t'⟩ ∈ row ∧ t = t' + offset := by
  rw [List.mem_map]
  constructor
  · rintro ⟨e, he, heq⟩
    obtain ⟨rfl, rfl⟩ := Transition.mk.inj heq
    exact ⟨e.target, he, rfl⟩
  · rintro ⟨t', ht', rfl⟩
    exact ⟨⟨a, t'⟩, ht', rfl⟩

/-- The union, if no number runs out. -/
def beside (l r : Lts) : Lts :=
  ⟨l.first, l.rows ++ r.rows.toList.map (List.map (moved l.stateCount))⟩

theorem union_eq (hr : r.InRange) (hsize : l.stateCount + r.stateCount ≤ idBound)
    (hfirst : r.first + l.stateCount < idBound) :
    l.union r = .ok (l.beside r, r.first + l.stateCount) := by
  have hrows : (r.rows.toList.mapM fun row => row.mapM (shift l.stateCount)) =
      .ok (r.rows.toList.map (List.map (moved l.stateCount))) := by
    apply mapM_eq_ok
    intro row hrow
    apply mapM_eq_ok
    intro e he
    have htarget : e.target + l.stateCount < r.stateCount + l.stateCount :=
      Nat.add_lt_add_right (r.inRange_iff.mp hr row hrow e he) _
    rw [Nat.add_comm r.stateCount] at htarget
    have hchecked : checkedId (e.target + l.stateCount) = .ok (e.target + l.stateCount) :=
      if_pos (htarget.trans_le hsize)
    rw [shift, hchecked]
    rfl
  have hchecked : checkedId (r.first + l.stateCount) = .ok (r.first + l.stateCount) :=
    if_pos hfirst
  rw [union, hrows, hchecked]
  rfl

theorem stateCount_beside (l r : Lts) :
    (l.beside r).stateCount = l.stateCount + r.stateCount := by
  have hsize : (l.beside r).rows.toList.length = l.rows.toList.length + r.rows.toList.length := by
    rw [beside, Array.toList_appendList, List.length_append, List.length_map]
  exact hsize

theorem transitions_beside_left (hs : s < l.stateCount) :
    (l.beside r).transitions s = l.transitions s := by
  have hs : s < l.rows.toList.length := hs
  rw [transitions, transitions, beside, ← Array.getElem?_toList, Array.toList_appendList,
    List.getElem?_append_left hs, Array.getElem?_toList]

theorem transitions_beside_right :
    (l.beside r).transitions (s + l.stateCount) = (r.transitions s).map (moved l.stateCount) := by
  have hlength : l.rows.toList.length = l.stateCount := rfl
  have hs : l.rows.toList.length ≤ s + l.stateCount := Nat.le_add_left _ _
  rw [transitions, beside, ← Array.getElem?_toList, Array.toList_appendList,
    List.getElem?_append_right hs, hlength, Nat.add_sub_cancel, List.getElem?_map,
    Array.getElem?_toList, transitions]
  cases r.rows[s]? with
  | none => rfl
  | some row => rfl

theorem placed_left (l r : Lts) : Placed l (l.beside r) 0 where
  lt := by
    intro s hs
    rw [stateCount_beside]
    omega
  step_iff := by
    intro s a t hs
    rw [Nat.add_zero, step_iff, transitions_beside_left hs]
    simp [step_iff]

theorem placed_right (l r : Lts) : Placed r (l.beside r) l.stateCount where
  lt := by
    intro s hs
    rw [stateCount_beside]
    omega
  step_iff := by
    intro s a t _
    rw [step_iff, transitions_beside_right, mem_map_moved]
    simp only [step_iff]

theorem inRange_beside (hl : l.InRange) (hr : r.InRange) : (l.beside r).InRange := by
  intro s a t step
  rw [stateCount_beside]
  rw [step_iff] at step
  by_cases hs : s < l.stateCount
  · rw [transitions_beside_left hs] at step
    exact Nat.lt_add_right _ (hl s a t (step_iff.mpr step))
  · obtain ⟨s', rfl⟩ := Nat.exists_eq_add_of_le' (Nat.le_of_not_lt hs)
    rw [transitions_beside_right, mem_map_moved] at step
    obtain ⟨t', step', rfl⟩ := step
    rw [Nat.add_comm]
    exact Nat.add_lt_add_left (hr s' a t' (step_iff.mpr step')) _

/-- Putting a system beside another changes no verdict about its states. -/
theorem union_keepsVerdicts (hl : l.InRange) (hr : r.InRange)
    (hsize : l.stateCount + r.stateCount ≤ idBound) (hfirst : r.first + l.stateCount < idBound) :
    ∃ u, l.union r = .ok (u, r.first + l.stateCount) ∧ KeepsVerdicts l u 0 ∧
      KeepsVerdicts r u l.stateCount := by
  have hwhole := inRange_beside hl hr
  exact ⟨l.beside r, union_eq hr hsize hfirst, (placed_left l r).keepsVerdicts hl hwhole,
    (placed_right l r).keepsVerdicts hr hwhole⟩

theorem union_keepsVerdicts_hesitant :
    hesitant.InRange ∧ choosing.InRange ∧ hesitant.stateCount + choosing.stateCount ≤ idBound ∧
      choosing.first + hesitant.stateCount < idBound ∧
      ∃ u, hesitant.union choosing = .ok (u, choosing.first + hesitant.stateCount) ∧
        KeepsVerdicts hesitant u 0 ∧ KeepsVerdicts choosing u hesitant.stateCount :=
  ⟨by decide, by decide, by decide, by decide,
    union_keepsVerdicts (by decide) (by decide) (by decide) (by decide)⟩

end

end Lts

end ProcessLogic
