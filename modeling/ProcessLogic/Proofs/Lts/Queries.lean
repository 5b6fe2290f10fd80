import ProcessLogic.Proofs.Lts.Saturation

/-!
# Asking for weak transitions

Weak transitions may be asked for at any states, in any order and as often as one likes. Each answer
is the saturated row of the state, and the row is reported the first time only. This holds of a
generator, and of rows that are kept and passed on from query to query: at any time they are the
rows of the states that were asked about, so no query can spoil the answer to a later one.
-/

set_option autoImplicit false

namespace ProcessLogic

section

variable {row : StateId → List Transition}

/-- The report on the row of a state. -/
def Event.ofRow (row : StateId → List Transition) (s : StateId) : Event :=
  .saturated s (row s).length

/-- As long as the events are the reports on the states seen, they still are after one more. -/
theorem Event.Thinned.add_ofRow (seen : Numbering StateId) (s : StateId) :
    Thinned.add ⟨(seen.toList.map (ofRow row)).reverse, seen⟩ (ofRow row s) =
      ⟨((seen.insert s).toList.map (ofRow row)).reverse, seen.insert s⟩ := by
  have htoList := Numbering.toList_insert seen s
  simp only [ofRow, Thinned.add]
  split
  · next hs => rw [Numbering.insert_of_contains hs]
  · next hs =>
    rw [if_neg hs] at htoList
    rw [htoList, List.map_append, List.reverse_append]
    rfl

theorem Event.firstSaturations_ofRow (states : List StateId) :
    firstSaturations (states.map (ofRow row)) =
      (Numbering.ofList states).toList.map (ofRow row) := by
  have hfold : ∀ seen : Numbering StateId,
      (states.map (ofRow row)).foldl Thinned.add ⟨(seen.toList.map (ofRow row)).reverse, seen⟩ =
        ⟨((seen.insertAll states).toList.map (ofRow row)).reverse, seen.insertAll states⟩ := by
    induction states with
    | nil => exact fun seen => rfl
    | cons s states ih =>
      intro seen
      rw [List.map_cons, List.foldl_cons, Thinned.add_ofRow]
      exact ih (seen.insert s)
  have hall : (states.map (ofRow row)).foldl Thinned.add {} = _ := hfold {}
  rw [firstSaturations, hall]
  exact List.reverse_reverse _

end

namespace Saturation

variable {l : Lts} {seen : Numbering StateId} {s : StateId}

theorem ask_of_some {m : Saturation} {row : List Transition}
    (h : m.rows.fetch s = .ok (some row)) : m.ask s = ⟨[], .ok (m, row)⟩ := by
  obtain ⟨l, rows⟩ := m
  simp only [ask, Run.lift_bind_of_ok h]
  rfl

theorem ask_of_none {m : Saturation} {row : List Transition}
    {rows : Table (Option (List Transition))} (h : m.rows.fetch s = .ok none)
    (hrow : m.lts.weakRow s = .ok row) (hrows : m.rows.assign s (some row) = .ok rows) :
    m.ask s = ⟨[.saturated s row.length], .ok (⟨m.lts, rows⟩, row)⟩ := by
  obtain ⟨l, known⟩ := m
  simp only [ask, Run.lift_bind_of_ok h, Run.lift_bind_of_ok hrow, Run.lift_bind_of_ok hrows]
  rfl

/-- What is known once the states in `seen` have been asked about. -/
def after (l : Lts) (seen : Numbering StateId) : Saturation :=
  ⟨l, (Array.range l.stateCount).map fun s =>
    if s ∈ seen.items then some (l.weakTransitions s) else none⟩

theorem ofLts_eq_after (l : Lts) : ofLts l = after l {} := by
  simp only [ofLts, after, mk.injEq, true_and]
  apply Array.ext <;> simp

theorem getElem?_after (seen : Numbering StateId) (hs : s < l.stateCount) :
    (after l seen).rows[s]? =
      some (if s ∈ seen.items then some (l.weakTransitions s) else none) := by
  simp [after, hs]

theorem assign_after (hs : s < l.stateCount) :
    (after l seen).rows.assign s (some (l.weakTransitions s)) =
      .ok (after l (seen.insert s)).rows := by
  have hsize : s < (after l seen).rows.size := by simpa [after] using hs
  rw [Table.assign, if_pos hsize]
  congr 1
  apply Array.ext
  · simp [after]
  · intro t ht ht'
    rw [Array.getElem_setIfInBounds (by simpa using ht)]
    by_cases heq : s = t
    · subst heq
      simp [after, Numbering.mem_insert]
    · simp [after, Numbering.mem_insert, heq, Ne.symm heq]

/-- A query is answered by the row of its state. What is known after it, and all that has been
reported, is up to the states seen. -/
theorem ask_after (hl : l.InRange) (hseen : seen.Filed) (hs : s < l.stateCount) :
    ∃ events, (after l seen).ask s =
        ⟨events, .ok (after l (seen.insert s), l.weakTransitions s)⟩ ∧
      seen.toList.map (Event.ofRow l.weakTransitions) ++ events =
        (seen.insert s).toList.map (Event.ofRow l.weakTransitions) := by
  have hcell := Table.fetch_eq_ok_iff.mpr (getElem?_after seen hs)
  have htoList := seen.toList_insert s
  by_cases hmem : s ∈ seen.items
  · have hcontains := (Numbering.contains_iff hseen).mpr hmem
    rw [if_pos hmem] at hcell
    rw [Numbering.insert_of_contains hcontains]
    exact ⟨[], ask_of_some hcell, List.append_nil _⟩
  · have hnew : ¬ seen.contains s = true := fun h => hmem (Numbering.mem_of_contains h)
    rw [if_neg hmem] at hcell
    rw [if_neg hnew] at htoList
    refine ⟨_, ask_of_none hcell (Lts.weakRow_eq hl hs) (assign_after hs), ?_⟩
    rw [htoList, List.map_append]
    rfl

theorem askAll_after (hl : l.InRange) (hseen : seen.Filed) {queries : List StateId}
    (hqueries : ∀ s ∈ queries, s < l.stateCount) :
    ∃ events, (after l seen).askAll queries =
        ⟨events, .ok (after l (seen.insertAll queries), queries.map l.weakTransitions)⟩ ∧
      seen.toList.map (Event.ofRow l.weakTransitions) ++ events =
        (seen.insertAll queries).toList.map (Event.ofRow l.weakTransitions) := by
  induction queries generalizing seen with
  | nil => exact ⟨[], rfl, List.append_nil _⟩
  | cons s queries ih =>
    obtain ⟨first, hask, hfirst⟩ := ask_after hl hseen (hqueries s List.mem_cons_self)
    obtain ⟨rest, haskAll, hrest⟩ := ih (Numbering.filed_insert hseen s)
      fun t ht => hqueries t (List.mem_cons_of_mem s ht)
    refine ⟨first ++ rest, ?_, ?_⟩
    · rw [askAll, hask]
      simp only [bind, haskAll, pure, List.append_nil]
      rfl
    · rw [← List.append_assoc, hfirst, hrest]
      rfl

/-- From the first query on, all that has been reported are the rows of the states seen. -/
theorem askAll_ofLts (hl : l.InRange) {queries : List StateId}
    (hqueries : ∀ s ∈ queries, s < l.stateCount) :
    (ofLts l).askAll queries =
      ⟨(Numbering.ofList queries).toList.map (Event.ofRow l.weakTransitions),
        .ok (after l (Numbering.ofList queries), queries.map l.weakTransitions)⟩ := by
  obtain ⟨events, haskAll, hevents⟩ := askAll_after hl Numbering.filed_empty hqueries
  obtain rfl : events = _ := hevents
  rw [ofLts_eq_after]
  exact haskAll

end Saturation

namespace Lts

variable {l : Lts} {s : StateId}

theorem successors_weak (hl : l.InRange) (hs : s < l.stateCount) :
    l.weak.successors s = ⟨[Event.ofRow l.weakTransitions s], .ok (l.weakTransitions s)⟩ := by
  rw [Generator.successors, row_weak hl hs]
  rfl

/-- The row lists each transition up to internal moves, and each once. -/
structure Saturates (l : Lts) (s : StateId) (row : List Transition) : Prop where
  silent : ∀ t, ⟨tau, t⟩ ∈ row ↔ l.TauSteps s t
  visible : ∀ a t, a ≠ tau →
    (⟨a, t⟩ ∈ row ↔ ∃ u v, l.TauSteps s u ∧ l.Step u a v ∧ l.TauSteps v t)
  nodup : row.Nodup

theorem saturates_weakTransitions (hl : l.InRange) (hs : s < l.stateCount) :
    l.Saturates s (l.weakTransitions s) := by
  refine ⟨?_, ?_, Numbering.nodup_ofList _⟩
  · intro t
    rw [mem_weakTransitions hl hs]
    constructor
    · intro h
      cases h with
      | silent steps => exact steps
      | visible ha => exact absurd rfl ha
    · exact .silent
  · intro a t ha
    rw [mem_weakTransitions hl hs]
    constructor
    · intro h
      cases h with
      | silent => exact absurd rfl ha
      | visible _ before step after => exact ⟨_, _, before, step, after⟩
    · rintro ⟨u, v, before, step, after⟩
      exact .visible ha before step after

/-- Each state has one saturated row, with which every query about it is answered, no matter what
other queries there are, and which is reported at the first of them. So it is too if the rows are
kept and passed on: they are known for the states asked about, and for no others. -/
theorem successors_saturated (hl : l.InRange) :
    ∃ row : StateId → List Transition, (∀ s, s < l.stateCount → l.Saturates s (row s)) ∧
      ∀ queries : List StateId, (∀ s ∈ queries, s < l.stateCount) →
        (queries.mapM l.weak.successors).value = .ok (queries.map row) ∧
        (queries.mapM l.weak.successors).withFirstSaturations.events =
          ((Numbering.ofList queries).toList.map fun s => .saturated s (row s).length) ∧
        ∃ known : Saturation,
          (Saturation.ofLts l).askAll queries =
            ⟨(Numbering.ofList queries).toList.map fun s => .saturated s (row s).length,
              .ok (known, queries.map row)⟩ ∧
          ∀ s, s < l.stateCount →
            known.rows[s]? = some (if s ∈ queries then some (row s) else none) := by
  refine ⟨l.weakTransitions, fun s hs => saturates_weakTransitions hl hs, ?_⟩
  intro queries hqueries
  have hrun := Run.mapM_eq fun s hs => successors_weak hl (hqueries s hs)
  rw [hrun]
  refine ⟨rfl, Event.firstSaturations_ofRow queries, _, Saturation.askAll_ofLts hl hqueries, ?_⟩
  intro s hs
  simp only [Saturation.getElem?_after _ hs, Numbering.mem_ofList]

theorem successors_saturated_hesitant :
    hesitant.InRange ∧ (∀ s ∈ [3, 0, 4, 0], s < hesitant.stateCount) ∧
      ∃ row : StateId → List Transition,
        (∀ s, s < hesitant.stateCount → hesitant.Saturates s (row s)) ∧
        ([3, 0, 4, 0].mapM hesitant.weak.successors).value = .ok [row 3, row 0, row 4, row 0] ∧
        ([3, 0, 4, 0].mapM hesitant.weak.successors).withFirstSaturations.events =
          [.saturated 3 (row 3).length, .saturated 0 (row 0).length,
            .saturated 4 (row 4).length] ∧
        ∃ known : Saturation,
          (Saturation.ofLts hesitant).askAll [3, 0, 4, 0] =
            ⟨[.saturated 3 (row 3).length, .saturated 0 (row 0).length,
              .saturated 4 (row 4).length], .ok (known, [row 3, row 0, row 4, row 0])⟩ ∧
          known.rows[0]? = some (some (row 0)) ∧ known.rows[1]? = some none := by
  have hl : hesitant.InRange := by decide
  have hqueries : ∀ s ∈ [3, 0, 4, 0], s < hesitant.stateCount := by decide
  obtain ⟨row, hrow, hanswers⟩ := successors_saturated hl
  obtain ⟨hvalue, hevents, known, haskAll, hknown⟩ := hanswers [3, 0, 4, 0] hqueries
  exact ⟨hl, hqueries, row, hrow, hvalue, hevents, known, haskAll, hknown 0 (by decide),
    hknown 1 (by decide)⟩

end Lts

end ProcessLogic
