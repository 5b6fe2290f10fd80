import ProcessLogic.Proofs.Lts.Saturation

/-!
# Systems and their edges

A system is the one that its edges are collected to, and the steps of a collected system are the
edges that leave its states.
-/

set_option autoImplicit false

namespace ProcessLogic.Lts

variable {l : Lts} {first count s t : Nat} {a : String} {edges : List Edge}

theorem mem_edges {e : Edge} : e ∈ l.edges ↔ l.Step e.source e.label e.target := by
  unfold Lts.edges Step
  simp only [List.mem_flatMap, List.mem_map, Prod.exists, Table.mem_enumerate]
  constructor
  · rintro ⟨s, row, hrow, e, he, rfl⟩
    exact ⟨row, hrow, he⟩
  · rintro ⟨row, hrow, he⟩
    exact ⟨_, row, hrow, _, he, rfl⟩

theorem length_edges (l : Lts) : l.edges.length = l.transitionCount := by
  have hrows : l.rows.enumerate.map Prod.snd = l.rows.toList :=
    List.map_snd_zip (by simp [Table.indexes])
  rw [transitionCount, Table.total_eq_sum, ← hrows]
  simp [Lts.edges, List.length_flatMap, Function.comp_def]

/-- The transitions of the edges from `s`. -/
def leaving (s : StateId) (edges : List Edge) : List Transition :=
  (edges.filter fun e => e.source = s).map fun e => ⟨e.label, e.target⟩

theorem leaving_append (s : StateId) (edges edges' : List Edge) :
    leaving s (edges ++ edges') = leaving s edges ++ leaving s edges' := by
  simp [leaving]

theorem leaving_row (s i : StateId) (row : List Transition) :
    leaving s (row.map fun t => ⟨i, t.label, t.target⟩) = if i = s then row else [] := by
  by_cases h : i = s <;> simp [leaving, List.filter_map, Function.comp_def, h]

theorem leaving_numbered (rows : List (List Transition)) (k s : Nat) :
    leaving s (((List.range' k rows.length).zip rows).flatMap fun (i, row) =>
      row.map fun t => ⟨i, t.label, t.target⟩) =
        if k ≤ s then rows[s - k]?.getD [] else [] := by
  induction rows generalizing k with
  | nil => simp [leaving]
  | cons row rows ih =>
    rw [List.length_cons, List.range'_succ, List.zip_cons_cons, List.flatMap_cons, leaving_append,
      ih, leaving_row]
    rcases Nat.lt_trichotomy k s with hlt | rfl | hgt
    · have hrest : s - k = (s - (k + 1)) + 1 := by omega
      simp [Nat.ne_of_lt hlt, hlt, Nat.le_of_lt hlt, hrest]
    · simp
    · have hne : k ≠ s := by omega
      simp [hne, Nat.not_le.mpr hgt, Nat.not_lt.mpr (Nat.le_of_lt hgt)]

theorem leaving_edges (l : Lts) (s : StateId) : leaving s l.edges = l.transitions s := by
  have h := leaving_numbered l.rows.toList 0 s
  simpa [Lts.edges, Table.enumerate, Table.indexes, transitions, List.range_eq_range'] using h

theorem getElem?_collect (first count : Nat) (edges : List Edge) (s : Nat) :
    (collect first count edges).rows[s]? =
      if s < count then some (leaving s edges) else none := by
  unfold collect
  induction edges with
  | nil => simp [leaving, Array.getElem?_replicate]
  | cons e edges ih =>
    rw [List.foldr_cons, addEdge, Array.getElem?_modify, ih]
    by_cases hs : s < count
    · by_cases he : e.source = s <;> simp [leaving, hs, he]
    · simp [hs]

@[simp] theorem stateCount_collect (first count : Nat) (edges : List Edge) :
    (collect first count edges).stateCount = count := by
  unfold collect stateCount
  induction edges with
  | nil => simp
  | cons e edges ih => simpa [addEdge] using ih

/-- Only the order of the edges from each state is of any matter. -/
theorem collect_eq (h : ∀ s, leaving s edges = l.transitions s) :
    collect l.first l.stateCount edges = l := by
  obtain ⟨first, rows⟩ := l
  have hrows : (collect first rows.size edges).rows = rows := by
    apply Array.ext_getElem?
    intro s
    rw [getElem?_collect, h]
    by_cases hs : s < rows.size <;> simp [transitions, hs]
  exact congrArg (Lts.mk first) hrows

theorem collect_edges (l : Lts) : collect l.first l.stateCount l.edges = l :=
  collect_eq l.leaving_edges

theorem step_of_mem_leaving {e : Edge} (h : ∀ s, leaving s edges = l.transitions s)
    (he : e ∈ edges) : l.Step e.source e.label e.target := by
  have hmem : ⟨e.label, e.target⟩ ∈ leaving e.source edges :=
    List.mem_map.mpr ⟨e, List.mem_filter.mpr ⟨he, by simp⟩, rfl⟩
  rw [h, transitions] at hmem
  cases hrow : l.rows[e.source]? with
  | none => simp [hrow] at hmem
  | some row => exact ⟨row, hrow, by simpa [hrow] using hmem⟩

theorem step_collect (h : ∀ e ∈ edges, e.source < count) :
    (collect first count edges).Step s a t ↔ ⟨s, a, t⟩ ∈ edges := by
  unfold Step
  rw [getElem?_collect]
  constructor
  · rintro ⟨row, hrow, ht⟩
    split at hrow
    · obtain rfl := Option.some.inj hrow
      simp only [leaving, List.mem_map, List.mem_filter, decide_eq_true_eq] at ht
      obtain ⟨e, ⟨he, rfl⟩, heq⟩ := ht
      obtain ⟨rfl, rfl⟩ := Transition.mk.inj heq
      exact he
    · simp at hrow
  · intro hmem
    refine ⟨leaving s edges, if_pos (h _ hmem), ?_⟩
    exact List.mem_map.mpr ⟨_, List.mem_filter.mpr ⟨hmem, by simp⟩, rfl⟩

theorem transitionCount_collect (h : ∀ e ∈ edges, e.source < count) :
    (collect first count edges).transitionCount = edges.length := by
  induction edges with
  | nil => simp [collect, transitionCount, Table.total_eq_sum]
  | cons e edges ih =>
    have he : e.source < count := h e List.mem_cons_self
    have hrow : (collect first count edges).rows[e.source]? = some (leaving e.source edges) := by
      rw [getElem?_collect, if_pos he]
    have hset : (collect first count (e :: edges)).rows =
        (collect first count edges).rows.setIfInBounds e.source
          (⟨e.label, e.target⟩ :: leaving e.source edges) := by
      apply Array.ext_getElem?
      intro s
      have hsize : (collect first count edges).rows.size = count := stateCount_collect _ _ _
      rw [Array.getElem?_setIfInBounds, getElem?_collect, getElem?_collect, hsize]
      by_cases hs : e.source = s
      · subst hs
        simp [leaving, he]
      · simp [leaving, hs]
    have htotal := Table.total_setIfInBounds List.length _ hrow
      (⟨e.label, e.target⟩ :: leaving e.source edges)
    rw [← hset] at htotal
    have hrest := ih fun e' he' => h e' (List.mem_cons_of_mem _ he')
    unfold transitionCount at hrest ⊢
    rw [List.length_cons] at htotal ⊢
    omega

end ProcessLogic.Lts
