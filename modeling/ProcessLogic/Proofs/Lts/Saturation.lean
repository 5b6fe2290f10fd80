import Mathlib
import ProcessLogic.Lts.Behaviour
import ProcessLogic.Lts.Saturation
import ProcessLogic.Proofs.Tally

/-!
# Generators list the moves of a system

In a system whose targets all have rows, every row of a generator exists, lists exactly the moves
of its strength, and is no longer than the generator's degree.
-/

set_option autoImplicit false

namespace ProcessLogic

namespace Lts

variable {l : Lts} {s t u : StateId} {a : String}

def transitions (l : Lts) (s : StateId) : List Transition := l.rows[s]?.getD []

theorem step_iff : l.Step s a t ↔ ⟨a, t⟩ ∈ l.transitions s := by
  unfold Step transitions
  cases h : l.rows[s]? with
  | none => simp
  | some row => simp

theorem row_eq (hs : s < l.stateCount) : l.row s = .ok (l.transitions s) := by
  have hrow : l.rows[s]? = some l.rows[s] := Array.getElem?_eq_getElem hs
  rw [row, transitions, Table.fetch_eq_ok_iff.mpr hrow, hrow]
  rfl

theorem inRange_iff (l : Lts) :
    l.InRange ↔ ∀ row ∈ l.rows.toList, ∀ e ∈ row, e.target < l.stateCount := by
  constructor
  · intro h row hrow e he
    obtain ⟨s, hs⟩ := List.mem_iff_getElem?.mp hrow
    exact h s e.label e.target ⟨row, by simpa using hs, he⟩
  · rintro h s a t ⟨row, hrow, he⟩
    exact h row (Array.mem_toList_iff.mpr (Array.mem_of_getElem? hrow)) _ he

instance (l : Lts) : Decidable l.InRange := decidable_of_iff _ l.inRange_iff.symm

theorem TauSteps.lt (hl : l.InRange) (h : l.TauSteps s t) (hs : s < l.stateCount) :
    t < l.stateCount := by
  cases h with
  | refl => exact hs
  | tail _ step => exact hl _ _ _ step

theorem Move.lt {strength : Strength} (hl : l.InRange) (h : l.Move strength s a t)
    (hs : s < l.stateCount) : t < l.stateCount := by
  cases strength with
  | strong => exact hl _ _ _ h
  | weak =>
    cases h with
    | silent htau => exact htau.lt hl hs
    | visible _ _ step after => exact after.lt hl (hl _ _ _ step)

theorem size_insert_of_not_contains {seen : Numbering StateId} (h : ¬seen.contains s = true) :
    (seen.insert s).size = seen.size + 1 := by
  have htoList := Numbering.toList_insert seen s
  rw [if_neg h] at htoList
  simpa [Numbering.toList, Numbering.size] using congrArg List.length htoList

theorem discover_spec (ss stack : List StateId) (seen : Numbering StateId) (hfiled : seen.Filed)
    (hnodup : seen.toList.Nodup) :
    (discover ss stack seen).2.Filed ∧ (discover ss stack seen).2.toList.Nodup ∧
      (∀ t, t ∈ (discover ss stack seen).2.items ↔ t ∈ seen.items ∨ t ∈ ss) ∧
      (∀ t, t ∈ (discover ss stack seen).1 ↔ t ∈ stack ∨ (t ∈ ss ∧ t ∉ seen.items)) ∧
      (discover ss stack seen).1.length + seen.size =
        stack.length + (discover ss stack seen).2.size := by
  induction ss generalizing stack seen with
  | nil => simp [discover, hfiled, hnodup]
  | cons s ss ih =>
    unfold discover
    split
    · next hs =>
      have hmem : s ∈ seen.items := Numbering.mem_of_contains hs
      obtain ⟨hf, hn, hitems, hstack, hsize⟩ := ih stack seen hfiled hnodup
      refine ⟨hf, hn, fun t => ?_, fun t => ?_, hsize⟩
      · rw [hitems, List.mem_cons]
        constructor
        · rintro (h | h)
          · exact .inl h
          · exact .inr (.inr h)
        · rintro (h | rfl | h)
          · exact .inl h
          · exact .inl hmem
          · exact .inr h
      · rw [hstack, List.mem_cons]
        apply or_congr_right
        constructor
        · exact fun h => ⟨.inr h.1, h.2⟩
        · rintro ⟨rfl | h, hnew⟩
          · exact (hnew hmem).elim
          · exact ⟨h, hnew⟩
    · next hs =>
      have hnew : s ∉ seen.items := fun h => hs ((Numbering.contains_iff hfiled).mpr h)
      obtain ⟨hf, hn, hitems, hstack, hsize⟩ := ih (s :: stack) (seen.insert s)
        (Numbering.filed_insert hfiled s) (Numbering.nodup_insert hfiled hnodup)
      have hinsert := size_insert_of_not_contains hs
      refine ⟨hf, hn, fun t => ?_, fun t => ?_, ?_⟩
      · rw [hitems, Numbering.mem_insert, List.mem_cons, or_assoc]
      · rw [hstack, Numbering.mem_insert, List.mem_cons, List.mem_cons]
        by_cases hts : t = s
        · subst hts
          simp [hnew]
        · simp [hts]
      · rw [List.length_cons] at hsize
        omega

/-- What holds of the states found so far: those that are not on the stack are closed. -/
structure Closing (l : Lts) (s : StateId) (stack : List StateId) (seen : Numbering StateId) :
    Prop where
  filed : seen.Filed
  nodup : seen.toList.Nodup
  start : s ∈ seen.items
  reached : ∀ t ∈ seen.items, l.TauSteps s t
  stacked : ∀ t ∈ stack, t ∈ seen.items
  closed : ∀ t ∈ seen.items, t ∉ stack → ∀ u, l.Step t tau u → u ∈ seen.items

theorem Closing.size_le {stack : List StateId} {seen : Numbering StateId}
    (h : Closing l s stack seen) (hl : l.InRange) (hs : s < l.stateCount) :
    seen.size ≤ l.stateCount := by
  have hsub : seen.toList ⊆ List.range l.stateCount := by
    intro t ht
    exact List.mem_range.mpr ((h.reached t (Array.mem_toList_iff.mp ht)).lt hl hs)
  simpa [Numbering.toList, Numbering.size] using h.nodup.length_le_of_subset hsub

theorem mem_tauTargets : u ∈ ((l.transitions t).filter (·.isTau)).map (·.target) ↔
    l.Step t tau u := by
  rw [step_iff, List.mem_map]
  constructor
  · rintro ⟨e, he, rfl⟩
    obtain ⟨hmem, htau⟩ := List.mem_filter.mp he
    have hlabel : e.label = tau := by simpa [Transition.isTau] using htau
    rw [← hlabel]
    exact hmem
  · intro h
    exact ⟨⟨tau, u⟩, List.mem_filter.mpr ⟨h, by simp [Transition.isTau]⟩, rfl⟩

theorem Closing.pop {stack : List StateId} {seen : Numbering StateId}
    (h : Closing l s (t :: stack) seen) :
    let next := discover (((l.transitions t).filter (·.isTau)).map (·.target)) stack seen
    Closing l s next.1 next.2 ∧ next.1.length + seen.size = stack.length + next.2.size := by
  obtain ⟨hf, hn, hitems, hstack, hsize⟩ := discover_spec
    (((l.transitions t).filter (·.isTau)).map (·.target)) stack seen h.filed h.nodup
  have ht : t ∈ seen.items := h.stacked t List.mem_cons_self
  refine ⟨⟨hf, hn, (hitems s).mpr (.inl h.start), ?_, ?_, ?_⟩, hsize⟩
  · intro u hu
    rcases (hitems u).mp hu with hu | hu
    · exact h.reached u hu
    · exact .tail (h.reached t ht) (mem_tauTargets.mp hu)
  · intro u hu
    apply (hitems u).mpr
    rcases (hstack u).mp hu with hu | ⟨hu, -⟩
    · exact .inl (h.stacked u (List.mem_cons_of_mem t hu))
    · exact .inr hu
  · intro u hu hnot v hstep
    apply (hitems v).mpr
    by_cases hut : u = t
    · exact .inr (mem_tauTargets.mpr (hut ▸ hstep))
    · have hseen : u ∈ seen.items := by
        by_contra hnew
        exact hnot ((hstack u).mpr (.inr ⟨((hitems u).mp hu).resolve_left hnew, hnew⟩))
      refine .inl (h.closed u hseen ?_ v hstep)
      intro hmem
      rcases List.mem_cons.mp hmem with heq | hmem
      · exact hut heq
      · exact hnot ((hstack u).mpr (.inl hmem))

theorem Closing.mem_iff {seen : Numbering StateId} (h : Closing l s [] seen) :
    t ∈ seen.items ↔ l.TauSteps s t := by
  refine ⟨h.reached t, fun hsteps => ?_⟩
  induction hsteps with
  | refl => exact h.start
  | tail _ step ih => exact h.closed _ ih List.not_mem_nil _ step

/-- Every state is put on the stack once, so the fuel lasts. -/
theorem closeStack_value (hl : l.InRange) (hs : s < l.stateCount) {fuel : Nat}
    {stack : List StateId} {seen : Numbering StateId} (h : Closing l s stack seen)
    (hfuel : stack.length + l.stateCount ≤ fuel + seen.size) :
    ∃ seen', l.closeStack fuel stack seen = .ok seen' ∧ Closing l s [] seen' := by
  induction fuel generalizing stack seen with
  | zero =>
    have hsize := h.size_le hl hs
    obtain rfl : stack = [] := List.length_eq_zero_iff.mp (by omega)
    exact ⟨seen, by simp [closeStack], h⟩
  | succ fuel ih =>
    cases stack with
    | nil => exact ⟨seen, by simp [closeStack], h⟩
    | cons t stack =>
      obtain ⟨hnext, hlength⟩ := h.pop
      have ht : t < l.stateCount := (h.reached t (h.stacked t List.mem_cons_self)).lt hl hs
      rw [List.length_cons] at hfuel
      obtain ⟨seen', hvalue, hclosing⟩ := ih hnext (by omega)
      refine ⟨seen', ?_, hclosing⟩
      unfold closeStack
      rw [row_eq ht]
      exact hvalue

/-- The states that internal moves reach. -/
def tauReach (l : Lts) (s : StateId) : List StateId := (l.tauClosure s).toOption.getD []

theorem tauClosure_spec (hl : l.InRange) (hs : s < l.stateCount) :
    l.tauClosure s = .ok (l.tauReach s) ∧ ∀ t, t ∈ l.tauReach s ↔ l.TauSteps s t := by
  have hitems : ∀ t, t ∈ (Numbering.ofList [s]).items ↔ t = s := by
    intro t
    rw [Numbering.mem_ofList, List.mem_singleton]
  have hone : (Numbering.ofList [s]).size = 1 := by
    simp [Numbering.ofList, Numbering.insertAll, Numbering.insert, Numbering.size,
      Numbering.contains, Numbering.index?]
  have hstart : Closing l s [s] (Numbering.ofList [s]) := by
    refine ⟨Numbering.filed_ofList _, Numbering.nodup_ofList _, (hitems s).mpr rfl, ?_, ?_, ?_⟩
    · intro t ht
      rw [(hitems t).mp ht]
      exact .refl s
    · intro t ht
      exact (hitems t).mpr (List.mem_singleton.mp ht)
    · intro t ht hnot
      exact (hnot (List.mem_singleton.mpr ((hitems t).mp ht))).elim
  have hfuel : [s].length + l.stateCount ≤ l.stateCount + 1 + (Numbering.ofList [s]).size := by
    rw [hone, List.length_singleton]
    omega
  obtain ⟨seen, hvalue, hclosing⟩ := closeStack_value hl hs hstart hfuel
  have hclosure : l.tauClosure s = .ok seen.toList := by
    rw [tauClosure, hvalue]
    rfl
  have hreach : l.tauReach s = seen.toList := by
    rw [tauReach, hclosure]
    rfl
  refine ⟨by rw [hclosure, hreach], fun t => ?_⟩
  rw [hreach]
  exact Array.mem_toList_iff.trans hclosing.mem_iff

def visibleRow (l : Lts) (s : StateId) : List Transition :=
  (((l.transitions s).filter (!·.isTau)).map fun e =>
    (l.tauReach e.target).map fun v => (⟨e.label, v⟩ : Transition)).flatten

theorem visibleMoves_eq (hl : l.InRange) (hs : s < l.stateCount) :
    l.visibleMoves s = .ok (l.visibleRow s) := by
  have hmoves : ((l.transitions s).filter (!·.isTau)).mapM (fun e => do
      pure ((← l.tauClosure e.target).map fun v => (⟨e.label, v⟩ : Transition))) =
      Except.ok (((l.transitions s).filter (!·.isTau)).map fun e =>
        (l.tauReach e.target).map fun v => (⟨e.label, v⟩ : Transition)) := by
    apply mapM_eq_ok
    intro e he
    have hlt : e.target < l.stateCount :=
      hl s e.label e.target (step_iff.mpr (List.mem_filter.mp he).1)
    rw [(tauClosure_spec hl hlt).1]
    rfl
  rw [visibleMoves, row_eq hs]
  exact congrArg (· >>= fun moves => pure moves.flatten) hmoves

theorem mem_visibleRow (hl : l.InRange) : ⟨a, t⟩ ∈ l.visibleRow s ↔
    a ≠ tau ∧ ∃ u, l.Step s a u ∧ l.TauSteps u t := by
  simp only [visibleRow, List.mem_flatten, List.mem_map, List.mem_filter]
  constructor
  · rintro ⟨_, ⟨e, ⟨he, hvisible⟩, rfl⟩, hmem⟩
    obtain ⟨v, hv, heq⟩ := List.mem_map.mp hmem
    obtain ⟨rfl, rfl⟩ := Transition.mk.inj heq
    have hstep : l.Step s e.label e.target := step_iff.mpr he
    have hlt := hl _ _ _ hstep
    exact ⟨by simpa [Transition.isTau] using hvisible, e.target, hstep,
      ((tauClosure_spec hl hlt).2 _).mp hv⟩
  · rintro ⟨ha, u, hstep, htau⟩
    have hlt := hl _ _ _ hstep
    refine ⟨_, ⟨⟨a, u⟩, ⟨step_iff.mp hstep, by simpa [Transition.isTau] using ha⟩, rfl⟩, ?_⟩
    exact List.mem_map.mpr ⟨t, ((tauClosure_spec hl hlt).2 t).mpr htau, rfl⟩

/-- The weak transitions of a state, each once. -/
def weakTransitions (l : Lts) (s : StateId) : List Transition :=
  (Numbering.ofList ((l.tauReach s).map (⟨tau, ·⟩) ++
    ((l.tauReach s).map l.visibleRow).flatten)).toList

theorem weakRow_eq (hl : l.InRange) (hs : s < l.stateCount) :
    l.weakRow s = .ok (l.weakTransitions s) := by
  obtain ⟨hclosure, hreach⟩ := tauClosure_spec hl hs
  have hvisible : (l.tauReach s).mapM l.visibleMoves = .ok ((l.tauReach s).map l.visibleRow) := by
    apply mapM_eq_ok
    intro t ht
    exact visibleMoves_eq hl (((hreach t).mp ht).lt hl hs)
  rw [weakRow, hclosure]
  exact congrArg (· >>= fun visible => pure (Numbering.ofList ((l.tauReach s).map (⟨tau, ·⟩) ++
    visible.flatten)).toList) hvisible

theorem mem_weakTransitions (hl : l.InRange) (hs : s < l.stateCount) :
    ⟨a, t⟩ ∈ l.weakTransitions s ↔ l.WeakStep s a t := by
  obtain ⟨-, hreach⟩ := tauClosure_spec hl hs
  rw [weakTransitions, Numbering.toList, Array.mem_toList_iff, Numbering.mem_ofList, List.mem_append]
  constructor
  · rintro (h | h)
    · obtain ⟨v, hv, heq⟩ := List.mem_map.mp h
      obtain ⟨rfl, rfl⟩ := Transition.mk.inj heq
      exact .silent ((hreach _).mp hv)
    · obtain ⟨_, hrow, hmem⟩ := List.mem_flatten.mp h
      obtain ⟨v, hv, rfl⟩ := List.mem_map.mp hrow
      obtain ⟨ha, u, hstep, hafter⟩ := (mem_visibleRow hl).mp hmem
      exact .visible ha ((hreach v).mp hv) hstep hafter
  · intro h
    cases h with
    | silent htau => exact .inl (List.mem_map.mpr ⟨t, (hreach t).mpr htau, rfl⟩)
    | @visible _ v u _ _ ha before step after =>
      refine .inr (List.mem_flatten.mpr ⟨l.visibleRow v, ?_, ?_⟩)
      · exact List.mem_map_of_mem ((hreach v).mpr before)
      · exact (mem_visibleRow hl).mpr ⟨ha, u, step, after⟩

/-- All transitions of the system. -/
def allTransitions (l : Lts) : List Transition := l.rows.toList.flatten

theorem length_allTransitions (l : Lts) : l.allTransitions.length = l.transitionCount := by
  rw [allTransitions, transitionCount, Table.total_eq_sum, List.length_flatten]

theorem Step.mem_allTransitions (h : l.Step s a t) : ⟨a, t⟩ ∈ l.allTransitions := by
  obtain ⟨row, hrow, hmem⟩ := h
  exact List.mem_flatten.mpr
    ⟨row, Array.mem_toList_iff.mpr (Array.mem_of_getElem? hrow), hmem⟩

theorem length_transitions_le (l : Lts) (s : StateId) :
    (l.transitions s).length ≤ l.transitionCount := by
  unfold transitions
  cases hrow : l.rows[s]? with
  | none => exact Nat.zero_le _
  | some row =>
    have hmem : row ∈ l.rows.toList := Array.mem_toList_iff.mpr (Array.mem_of_getElem? hrow)
    rw [transitionCount, Table.total_eq_sum]
    exact List.le_sum_of_mem (List.mem_map_of_mem hmem)

theorem TauSteps.mem_targets (h : l.TauSteps s t) :
    t ∈ s :: l.allTransitions.map (·.target) := by
  cases h with
  | refl => exact List.mem_cons_self
  | tail _ step =>
    exact List.mem_cons_of_mem _ (List.mem_map_of_mem (f := (·.target)) step.mem_allTransitions)

/-- A weak transition has the label of some transition or `tau`, and the target of some transition
or the state itself. -/
theorem WeakStep.mem_product (h : l.WeakStep s a t) :
    (⟨a, t⟩ : Transition) ∈
      ((tau :: l.allTransitions.map (·.label)) ×ˢ (s :: l.allTransitions.map (·.target))).map
        fun p => ⟨p.1, p.2⟩ := by
  refine List.mem_map.mpr ⟨(a, t), List.mem_product.mpr ?_, rfl⟩
  cases h with
  | silent htau => exact ⟨List.mem_cons_self, htau.mem_targets⟩
  | visible _ _ step after =>
    have hlabel := List.mem_map_of_mem (f := (·.label)) step.mem_allTransitions
    refine ⟨List.mem_cons_of_mem _ hlabel, List.mem_cons_of_mem _ ?_⟩
    rcases List.mem_cons.mp after.mem_targets with rfl | hmem
    · exact List.mem_map_of_mem (f := (·.target)) step.mem_allTransitions
    · exact hmem

theorem length_weakTransitions_le (hl : l.InRange) (hs : s < l.stateCount) :
    (l.weakTransitions s).length ≤ (l.transitionCount + 1) * (l.transitionCount + 1) := by
  have hsub : l.weakTransitions s ⊆ ((tau :: l.allTransitions.map (·.label)) ×ˢ
      (s :: l.allTransitions.map (·.target))).map fun p => (⟨p.1, p.2⟩ : Transition) :=
    fun e he => ((mem_weakTransitions hl hs).mp he).mem_product
  have hnodup : (l.weakTransitions s).Nodup := Numbering.nodup_ofList _
  have hlength := hnodup.length_le_of_subset hsub
  rwa [List.length_map, List.length_product, List.length_cons, List.length_cons, List.length_map,
    List.length_map, length_allTransitions] at hlength

end Lts

namespace Generator

/-- The row of a state, or nothing. -/
def transitions (g : Generator) (s : StateId) : List Transition := (g.row s).toOption.getD []

end Generator

namespace Lts

variable {l : Lts} {s t : StateId} {a : String} {strength : Strength}

@[simp] theorem lts_generator (l : Lts) (strength : Strength) : (l.generator strength).lts = l := by
  cases strength <;> rfl

theorem row_strong (hs : s < l.stateCount) : l.strong.row s = .ok (l.transitions s) := by
  have hrow : l.rows[s]? = some l.rows[s] := Array.getElem?_eq_getElem hs
  have hthunk : (l.rows.map fun row => Thunk.pure (Except.ok row : Except Fault _))[s]? =
      some (Thunk.pure (.ok (l.transitions s))) := by
    rw [Array.getElem?_map, hrow, transitions, hrow]
    rfl
  show (Table.fetch (l.rows.map fun row => Thunk.pure (Except.ok row : Except Fault _)) s >>= _) = _
  rw [Table.fetch_eq_ok_iff.mpr hthunk]
  rfl

theorem row_weak_eq (hs : s < l.stateCount) : l.weak.row s = l.weakRow s := by
  have hthunk : ((Array.range l.stateCount).map fun s => Thunk.mk fun _ => l.weakRow s)[s]? =
      some (Thunk.mk fun _ => l.weakRow s) := by
    simp [hs]
  show (Table.fetch ((Array.range l.stateCount).map fun s => Thunk.mk fun _ => l.weakRow s) s >>=
    _) = _
  rw [Table.fetch_eq_ok_iff.mpr hthunk]
  rfl

theorem row_weak (hl : l.InRange) (hs : s < l.stateCount) :
    l.weak.row s = .ok (l.weakTransitions s) :=
  (row_weak_eq hs).trans (weakRow_eq hl hs)

theorem row_generator (hl : l.InRange) (hs : s < l.stateCount) :
    (l.generator strength).row s = .ok ((l.generator strength).transitions s) := by
  cases strength with
  | strong =>
    have hrow : (l.generator .strong).row s = .ok (l.transitions s) := row_strong hs
    rw [Generator.transitions, hrow]
    rfl
  | weak =>
    have hrow : (l.generator .weak).row s = .ok (l.weakTransitions s) := row_weak hl hs
    rw [Generator.transitions, hrow]
    rfl

/-- A row of a generator lists the moves of the state. -/
theorem mem_transitions_generator (hl : l.InRange) (hs : s < l.stateCount) :
    ⟨a, t⟩ ∈ (l.generator strength).transitions s ↔ l.Move strength s a t := by
  cases strength with
  | strong =>
    have hrow : (l.generator .strong).row s = .ok (l.transitions s) := row_strong hs
    rw [Generator.transitions, hrow]
    exact step_iff.symm
  | weak =>
    have hrow : (l.generator .weak).row s = .ok (l.weakTransitions s) := row_weak hl hs
    rw [Generator.transitions, hrow]
    exact mem_weakTransitions hl hs

theorem length_transitions_generator_le (hl : l.InRange) (hs : s < l.stateCount) :
    ((l.generator strength).transitions s).length ≤ (l.generator strength).degree := by
  cases strength with
  | strong =>
    have hrow : (l.generator .strong).row s = .ok (l.transitions s) := row_strong hs
    rw [Generator.transitions, hrow]
    exact length_transitions_le l s
  | weak =>
    have hrow : (l.generator .weak).row s = .ok (l.weakTransitions s) := row_weak hl hs
    rw [Generator.transitions, hrow]
    exact length_weakTransitions_le hl hs

theorem successors_value (hl : l.InRange) (hs : s < l.stateCount) :
    ((l.generator strength).successors s).value = .ok ((l.generator strength).transitions s) := by
  have hrow : (liftM ((l.generator strength).row s) : Run (List Transition)).value = .ok _ :=
    row_generator hl hs
  rw [Generator.successors, Run.value_bind_of_ok hrow]
  split <;> rfl

/-- A state that hesitates before it repeats a label, one that never does, and one that stops. -/
def hesitant : Lts :=
  ⟨0, #[[⟨tau, 1⟩, ⟨"a", 0⟩], [⟨"a", 1⟩], [⟨"a", 2⟩], [⟨"a", 4⟩], []]⟩

/-- A state that chooses after its first label, and one that chooses with it. -/
def choosing : Lts :=
  ⟨0, #[[⟨"a", 1⟩], [⟨"b", 5⟩, ⟨"c", 5⟩], [⟨"a", 3⟩, ⟨"a", 4⟩], [⟨"b", 5⟩], [⟨"c", 5⟩], []]⟩

end Lts

end ProcessLogic
