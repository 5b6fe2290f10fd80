import ProcessLogic.Proofs.Marking.OnDemand

/-!
# Searches within a limit

A limit cuts a search off and changes nothing else. So a search that may take as many steps as the
unlimited one ends with the same marking, and any other takes all the steps it may. The nodes that
are reachable from the root pay for every step.
-/

set_option autoImplicit false

namespace ProcessLogic

namespace Run

variable {α β σ : Type}

section

variable {done : σ → Bool} {step : σ → Run σ} {m n : Nat} {s t : σ}

theorem iterate_of_done (h : done s = true) (n : Nat) : iterate done step n s = pure s := by
  cases n with
  | zero => rfl
  | succ n => rw [iterate_succ, if_pos h]

/-- A loop that was cut off can be taken up again. -/
theorem iterate_add (m n : Nat) (s : σ) :
    iterate done step (m + n) s = iterate done step m s >>= iterate done step n := by
  induction m generalizing s with
  | zero => rw [Nat.zero_add, iterate_zero, pure_bind]
  | succ m ih =>
    rw [Nat.succ_add, iterate_succ, iterate_succ]
    split
    · next hdone => rw [pure_bind, iterate_of_done hdone]
    · rw [bind_assoc]
      exact bind_congr ih

theorem value_iterate_add (h : (iterate done step m s).value = .ok t) (n : Nat) :
    (iterate done step (m + n) s).value = (iterate done step n t).value := by
  rw [iterate_add, value_bind_of_ok h]

theorem value_iterate_of_le (h : (iterate done step m s).value = .ok t) (hdone : done t = true)
    (hle : m ≤ n) : (iterate done step n s).value = .ok t := by
  obtain ⟨k, rfl⟩ := Nat.exists_eq_add_of_le hle
  rw [value_iterate_add h, iterate_of_done hdone]
  rfl

end

/-- The run reports nothing. -/
def Quiet (x : Run α) : Prop := x.events = []

theorem Quiet.eq_pure {x : Run α} {a : α} (h : x.Quiet) (hvalue : x.value = .ok a) :
    x = pure a := by
  rcases x with ⟨events, value⟩
  obtain rfl : events = [] := h
  obtain rfl : value = .ok a := hvalue
  rfl

theorem quiet_pure (a : α) : (pure a : Run α).Quiet := rfl

theorem quiet_fail (f : Fault) : (fail f : Run α).Quiet := rfl

theorem quiet_lift (x : Except Fault α) : (liftM x : Run α).Quiet := rfl

theorem Quiet.bind {x : Run α} {f : α → Run β} (hx : x.Quiet) (hf : ∀ a, (f a).Quiet) :
    (x >>= f).Quiet := by
  rcases x with ⟨events, value⟩
  obtain rfl : events = [] := hx
  cases value with
  | error e => rfl
  | ok a => exact hf a

theorem quiet_iterate {done : σ → Bool} {step : σ → Run σ} (hstep : ∀ s, (step s).Quiet) (n : Nat)
    (s : σ) : (iterate done step n s).Quiet := by
  induction n generalizing s with
  | zero => exact quiet_pure s
  | succ n ih =>
    rw [iterate_succ]
    split
    · exact quiet_pure s
    · exact (hstep s).bind ih

end Run

namespace Search

variable {γ ρ : Type}

/-- How a search stands after at most `limit` more steps. -/
structure Advances (limit : Nat) (s t : Search γ) : Prop where
  steps_le : t.steps ≤ s.steps + limit
  steps_eq : t.isDone = false → t.steps = s.steps + limit
  lt_steps : s.isDone = false → t.isDone = true → s.steps < t.steps

theorem Advances.refl (s : Search γ) : Advances 0 s s :=
  ⟨Nat.le_refl _, fun _ => rfl, fun hs ht => absurd ht (by simp [hs])⟩

theorem Advances.of_done {s : Search γ} (h : s.isDone = true) (limit : Nat) : Advances limit s s :=
  ⟨Nat.le_add_right _ _, fun hs => absurd h (by simp [hs]), fun hs => absurd h (by simp [hs])⟩

/-- A step comes first. -/
theorem Advances.step {limit : Nat} {s t u : Search γ} (hsteps : t.steps = s.steps + 1)
    (hle : t.steps ≤ u.steps) (h : Advances limit t u) : Advances (limit + 1) s u where
  steps_le := by
    have := h.steps_le
    omega
  steps_eq := by
    intro hu
    have := h.steps_eq hu
    omega
  lt_steps := fun _ _ => by omega

variable [Hypergraph γ] {P : Presentation γ ρ} {start : ρ} {explored : List (NodeId × ρ)}
  {s t : Search γ}

theorem Exact.advance (h : Exact P start explored [] s) (limit : Nat) :
    ∃ t explored', (s.advance limit).value = .ok t ∧ Exact P start explored' [] t ∧
      s.steps ≤ t.steps ∧ Advances limit s t := by
  induction limit generalizing s explored with
  | zero => exact ⟨s, explored, rfl, h, Nat.le_refl _, .refl s⟩
  | succ limit ih =>
    rw [Search.advance, Run.iterate_succ]
    split
    · next hdone => exact ⟨s, explored, rfl, h, Nat.le_refl _, .of_done hdone _⟩
    · next hdone =>
      obtain ⟨t, explored', hstep, ht, -, hsteps⟩ := h.step (by simpa using hdone)
      obtain ⟨u, explored'', hrest, hu, hle, hadvances⟩ := ih ht
      refine ⟨u, explored'', ?_, hu, by omega, hadvances.step hsteps hle⟩
      rw [Run.value_bind_of_ok hstep]
      exact hrest

/-- Under any limit a search comes to the same end, or takes all the steps it may. -/
theorem Exact.advance_of_done (h : Exact P start explored [] s) {bound : Nat}
    (ht : (s.advance bound).value = .ok t) (hdone : t.isDone = true) (limit : Nat) :
    (t.steps ≤ s.steps + limit ∧ (s.advance limit).value = .ok t) ∨
      (s.steps + limit < t.steps ∧ ∃ u, (s.advance limit).value = .ok u ∧ P.Lawful u.graph ∧
        u.isDone = false ∧ u.steps = s.steps + limit) := by
  obtain ⟨u, explored', hu, hexact, -, hadvances⟩ := h.advance limit
  have heq : bound ≤ limit → u = t := fun hle =>
    Except.ok.inj (hu.symm.trans (Run.value_iterate_of_le ht hdone hle))
  cases hudone : u.isDone with
  | true =>
    obtain rfl : u = t := by
      rcases Nat.le_total bound limit with hle | hle
      · exact heq hle
      · exact Except.ok.inj ((Run.value_iterate_of_le hu hudone hle).symm.trans ht)
    exact .inl ⟨hadvances.steps_le, hu⟩
  | false =>
    have hlimit : limit ≤ bound := by
      by_contra hlt
      rw [heq (by omega), hdone] at hudone
      simp at hudone
    -- The unlimited search goes on from where this one was cut off.
    obtain ⟨k, rfl⟩ := Nat.exists_eq_add_of_le hlimit
    obtain ⟨t', -, hrest, -, -, hadvances'⟩ := hexact.advance k
    obtain rfl : t' = t :=
      Except.ok.inj (hrest.symm.trans ((Run.value_iterate_add hu k).symm.trans ht))
    have hsteps := hadvances.steps_eq hudone
    have hlt := hadvances'.lt_steps hudone hdone
    exact .inr ⟨by omega, u, hu, hexact.lawful, hudone, hsteps⟩

end Search

/-- What a search within a limit comes to, once it has started. -/
theorem solveWithin_eq {γ : Type} [Hypergraph γ] {g : γ} {root : NodeId} {limit : Nat}
    {s t : Search γ} (hstart : Search.start g root = pure s) (hrun : s.advance limit = pure t) :
    solveWithin limit g root =
      if t.isDone then
        ⟨[.searched root (t.marking.holds root) t.explored t.steps], .ok (t.graph, .ok t.marking)⟩
      else ⟨[.gaveUp root t.steps], .ok (t.graph, .error ⟨t.steps⟩)⟩ := by
  rw [solveWithin, hstart, pure_bind, hrun, pure_bind]
  split <;> rfl

theorem solve_eq {γ : Type} [Hypergraph γ] {g : γ} {root : NodeId} {t : Search γ}
    (h : Search.complete g root = pure t) :
    solve g root =
      ⟨[.searched root (t.marking.holds root) t.explored t.steps], .ok (t.graph, t.marking)⟩ := by
  rw [solve, h, pure_bind]
  rfl

namespace Graph

variable {g : Graph} {s : Search Graph}

theorem quiet_explore (s : Search Graph) (node : NodeId) (os : List Obligation) :
    (s.explore node os).Quiet := by
  rcases s with ⟨g, marking, waiting, work, explored, steps⟩
  simp only [Search.explore]
  split
  · refine Run.Quiet.bind ?_ fun _ => Run.quiet_pure _
    exact (Run.quiet_lift (g.hyperedges node)).bind fun _ => Run.quiet_pure _
  · exact (Run.quiet_lift _).bind fun _ => Run.quiet_fail _

theorem quiet_treat (s : Search Graph) (o : Obligation) : (s.treat o).Quiet := by
  obtain ⟨-, htreat⟩ | ⟨-, -, htreat⟩ | ⟨-, next, rest, -, ⟨-, htreat⟩ | ⟨-, htreat⟩⟩ :=
    Search.treat_cases s o
  all_goals rw [htreat]
  · exact Run.quiet_pure _
  · exact Run.quiet_pure _
  · exact Run.quiet_pure _
  · exact quiet_explore _ _ _

theorem quiet_step (s : Search Graph) : s.step.Quiet := by
  rcases s with ⟨g, marking, waiting, work, explored, steps⟩
  cases work with
  | nil => exact Run.quiet_pure _
  | cons o work => exact quiet_treat _ _

theorem quiet_advance (limit : Nat) (s : Search Graph) : (s.advance limit).Quiet :=
  Run.quiet_iterate quiet_step limit s

theorem quiet_complete (g : Graph) (root : NodeId) : (Search.complete g root).Quiet := by
  refine (quiet_explore _ _ _).bind fun s => (quiet_advance _ s).bind fun t => ?_
  split
  · exact Run.quiet_pure t
  · exact Run.quiet_fail _

open Classical in
/-- One for each hyperedge of a node that is reachable from `root`, and one for each of its
targets. -/
noncomputable def reachableWeight (g : Graph) (root : NodeId) : Nat :=
  (((List.range g.size).filter fun n => Reachable g.nodes.equations root n).map fun n =>
    ((g.nodes.equations n).map fun edge => edge.length + 1).sum).sum

theorem steps_le_reachableWeight {hg : g.nodes.InRange} {root : NodeId}
    {explored : List (NodeId × NodeId)} (h : s.Exact (g.presentation hg) root explored []) :
    s.steps ≤ g.reachableWeight root := by
  have hname : ∀ p ∈ explored, p.1 < g.size ∧ p.2 = p.1 := by
    intro p hp
    have hgraph : s.graph = g := h.lawful
    exact hgraph ▸ nodeName_eq_some_iff.mp (h.name_eq p hp)
  have hmap : explored.map (fun p => weight (g.nodes.equations p.2)) =
      (explored.map Prod.fst).map fun n =>
        ((g.nodes.equations n).map fun edge => edge.length + 1).sum := by
    rw [List.map_map]
    apply List.map_congr_left
    intro p hp
    simp only [Function.comp_apply, (hname p hp).2, weight_eq_sum]
  calc s.steps
    _ ≤ s.steps + s.load [] := Nat.le_add_right _ _
    _ ≤ (explored.map fun p => weight (g.nodes.equations p.2)).sum := h.steps_le
    _ ≤ g.reachableWeight root := by
      rw [hmap]
      refine sum_map_le_of_subset _ h.nodup fun n hn => ?_
      obtain ⟨p, hp, rfl⟩ := List.mem_map.mp hn
      have hreach : Reachable g.nodes.equations root p.2 := h.reachable p hp
      rw [(hname p hp).2] at hreach
      simpa [hreach] using (hname p hp).1

/-- A limited search does what the unlimited one does if that takes no more steps than the limit,
and otherwise gives up after as many steps as the limit. -/
theorem solveWithin_refines_solve (g : Graph) (hg : g.nodes.InRange) (root : NodeId)
    (hroot : root < g.size) :
    ∃ m explored steps,
      solve g root = ⟨[.searched root (m.holds root) explored steps], .ok (g, m)⟩ ∧
      (∀ limit, solveWithin limit g root =
        if steps ≤ limit then
          ⟨[.searched root (m.holds root) explored steps], .ok (g, .ok m)⟩
        else ⟨[.gaveUp root limit], .ok (g, .error ⟨limit⟩)⟩) ∧
      ∀ limit, g.reachableWeight root ≤ limit →
        (solveWithin limit g root).value = .ok (g, .ok m) := by
  have hname : (g.presentation hg).name g root = some root :=
    nodeName_eq_some_iff.mpr ⟨hroot, rfl⟩
  obtain ⟨s, hstart, hs, hzero⟩ := Search.start_value (g.presentation hg) rfl hname
  obtain ⟨t, explored, hrun, hdone, ht, -⟩ := hs.advance_bound
  have hgraph : t.graph = g := ht.lawful
  have hcomplete := (quiet_complete g root).eq_pure (Search.complete_of_advance hstart hrun hdone)
  have hbegin : Search.start g root = pure s := (quiet_explore _ _ _).eq_pure hstart
  have hwithin : ∀ limit, solveWithin limit g root =
      if t.steps ≤ limit then
        ⟨[.searched root (t.marking.holds root) t.explored t.steps], .ok (g, .ok t.marking)⟩
      else ⟨[.gaveUp root limit], .ok (g, .error ⟨limit⟩)⟩ := by
    intro limit
    obtain ⟨hle, hvalue⟩ | ⟨hlt, u, hvalue, hlawful, hu, hsteps⟩ :=
      hs.advance_of_done hrun hdone limit
    · rw [solveWithin_eq hbegin ((quiet_advance limit s).eq_pure hvalue), if_pos hdone,
        if_pos (by omega), hgraph]
    · have hcut : u.graph = g := hlawful
      rw [solveWithin_eq hbegin ((quiet_advance limit s).eq_pure hvalue), if_neg (by simp [hu]),
        if_neg (by omega), hcut, hsteps, hzero, Nat.zero_add]
  refine ⟨t.marking, t.explored, t.steps, ?_, hwithin, fun limit hlimit => ?_⟩
  · rw [solve_eq hcomplete, hgraph]
  · rw [hwithin, if_pos ((steps_le_reachableWeight ht).trans hlimit)]

theorem solveWithin_refines_solve_cyclic :
    cyclic.nodes.InRange ∧ 0 < cyclic.size ∧ ∃ m explored steps,
      solve cyclic 0 = ⟨[.searched 0 (m.holds 0) explored steps], .ok (cyclic, m)⟩ ∧
      (∀ limit, solveWithin limit cyclic 0 =
        if steps ≤ limit then
          ⟨[.searched 0 (m.holds 0) explored steps], .ok (cyclic, .ok m)⟩
        else ⟨[.gaveUp 0 limit], .ok (cyclic, .error ⟨limit⟩)⟩) ∧
      ∀ limit, cyclic.reachableWeight 0 ≤ limit →
        (solveWithin limit cyclic 0).value = .ok (cyclic, .ok m) :=
  ⟨by decide, by decide, cyclic.solveWithin_refines_solve (by decide) 0 (by decide)⟩

end Graph

end ProcessLogic
