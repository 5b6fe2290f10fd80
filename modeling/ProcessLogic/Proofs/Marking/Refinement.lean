import ProcessLogic.Graph.Unfolding
import ProcessLogic.Marking.Exhaustive
import ProcessLogic.Marking.Level
import ProcessLogic.Proofs.Marking.Budget
import ProcessLogic.Proofs.Run

/-!
# Solvers on graphs that know more

A graph may have the nodes of another one and answer questions on which the other one breaks off.
A solver that ends on the lesser graph ends on the greater one as well, with the same marking.
-/

set_option autoImplicit false

namespace ProcessLogic

/-- A loop that may take more rounds, each of which gets at least as far, gets at least as far. -/
theorem Below.loop {α β σ τ : Type} {R : σ → τ → Prop} {Q : α → β → Prop} {done : σ → Bool}
    {done' : τ → Bool} {step : σ → Run σ} {step' : τ → Run τ} {f : σ → Run α} {g : τ → Run β}
    (hdone : ∀ s t, R s t → done s = done' t)
    (hstep : ∀ s t, R s t → Below R (step s).value (step' t).value)
    (hend : ∀ s t, R s t → Below Q (f s).value (g t).value) {m n : Nat} (hle : m ≤ n) {s : σ} {t : τ}
    (hst : R s t) (e : Fault) :
    Below Q (Run.iterate done step m s >>= fun s => if done s then f s else Run.fail e).value
      (Run.iterate done' step' n t >>= fun t => if done' t then g t else Run.fail e).value := by
  induction m generalizing n s t with
  | zero =>
    rw [Run.iterate_zero, pure_bind]
    cases hs : done s with
    | false => exact .error e _
    | true =>
      have ht : done' t = true := (hdone s t hst).symm.trans hs
      rw [Run.iterate_of_done ht, pure_bind, if_pos ht]
      exact hend s t hst
  | succ m ih =>
    cases hs : done s with
    | true =>
      have ht : done' t = true := (hdone s t hst).symm.trans hs
      rw [Run.iterate_of_done hs, Run.iterate_of_done ht, pure_bind, pure_bind, if_pos hs, if_pos ht]
      exact hend s t hst
    | false =>
      have ht : done' t = false := (hdone s t hst).symm.trans hs
      obtain ⟨n, rfl⟩ : ∃ k, n = k + 1 := ⟨n - 1, by omega⟩
      rw [Run.iterate_succ, Run.iterate_succ, hs, ht, if_neg Bool.false_ne_true,
        if_neg Bool.false_ne_true, bind_assoc, bind_assoc]
      exact (hstep s t hst).bind_run fun s t hst => ih (Nat.le_of_succ_le_succ hle) hst

section

variable {γ δ : Type} [Hypergraph γ] [Hypergraph δ] {R : γ → δ → Prop}

/-- What is returned with a graph is the same, and the graphs are related. -/
def Alongside {α : Type} (R : γ → δ → Prop) (a : γ × α) (b : δ × α) : Prop :=
  R a.1 b.1 ∧ a.2 = b.2

/-- Related graphs have the same nodes, and the second one answers what the first one answers. -/
structure Refines (R : γ → δ → Prop) : Prop where
  size_eq : ∀ {g h}, R g h → Hypergraph.size g = Hypergraph.size h
  hyperedges : ∀ {g h}, R g h → ∀ node,
    Below (Alongside R) (Hypergraph.hyperedges g node).value (Hypergraph.hyperedges h node).value
  snapshot : ∀ {g h}, R g h →
    Below (Alongside R) (Hypergraph.snapshot g).value (Hypergraph.snapshot h).value
  searchBound_le : ∀ {g h}, R g h → Hypergraph.searchBound g ≤ Hypergraph.searchBound h

/-- Searches that differ in their graphs only. -/
inductive Search.Alike (R : γ → δ → Prop) : Search γ → Search δ → Prop where
  | intro {g : γ} {h : δ} (hgh : R g h) (marking : Marking) (waiting : Table (List Obligation))
      (work : List Obligation) (explored steps : Nat) :
      Alike R ⟨g, marking, waiting, work, explored, steps⟩
        ⟨h, marking, waiting, work, explored, steps⟩

namespace Search

variable {s : Search γ} {t : Search δ}

theorem Alike.explore (hR : Refines R) (h : Alike R s t) (node : NodeId) (os : List Obligation) :
    Below (Alike R) (s.explore node os).value (t.explore node os).value := by
  obtain @⟨g, h, hgh, marking, waiting, work, explored, steps⟩ := h
  unfold Search.explore
  dsimp only
  rw [hR.size_eq hgh]
  split
  · apply (hR.hyperedges hgh node).bind_run
    rintro ⟨g, edges⟩ ⟨h, _⟩ ⟨hgh, rfl⟩
    exact .ok (.intro hgh _ _ _ _ _)
  · exact Below.bind_run_eq (.refl _) fun _ => .error _ _

theorem Alike.treat (hR : Refines R) (h : Alike R s t) (o : Obligation) :
    Below (Alike R) (s.treat o).value (t.treat o).value := by
  have hexplore := fun node os => h.explore hR node os
  obtain @⟨g, h, hgh, marking, waiting, work, explored, steps⟩ := h
  unfold Search.treat
  dsimp only
  split
  · exact .ok (.intro hgh _ _ _ _ _)
  · split
    · exact .ok (.intro hgh _ _ _ _ _)
    · split
      · exact .ok (.intro hgh _ _ _ _ _)
      · exact hexplore _ _

theorem Alike.step (hR : Refines R) (h : Alike R s t) :
    Below (Alike R) s.step.value t.step.value := by
  obtain @⟨g, h, hgh, marking, waiting, work, explored, steps⟩ := h
  cases work with
  | nil => exact .ok (.intro hgh _ _ _ _ _)
  | cons o work => exact Alike.treat hR (.intro hgh _ _ _ _ _) o

omit [Hypergraph γ] [Hypergraph δ] in
theorem Alike.isDone_eq (h : Alike R s t) : s.isDone = t.isDone := by
  cases h
  rfl

end Search

variable {g : γ} {h : δ}

theorem Search.complete_below (hR : Refines R) (hgh : R g h) (node : NodeId) :
    Below (Alike R) (complete g node).value (complete h node).value := by
  have hstart : Below (Alike R) (start g node).value (start h node).value :=
    Alike.explore hR (.intro hgh _ _ _ _ _) node []
  apply hstart.bind_run
  intro s t hst
  exact Below.loop (fun s t hst => hst.isDone_eq) (fun s t hst => hst.step hR)
    (fun s t hst => .ok hst) (hR.searchBound_le hgh) hst _

theorem solve_below (hR : Refines R) (hgh : R g h) (node : NodeId) :
    Below (Alongside R) (solve g node).value (solve h node).value := by
  apply (Search.complete_below hR hgh node).bind_run
  intro s t hst
  obtain @⟨g, h, hgh, marking, waiting, work, explored, steps⟩ := hst
  exact .ok ⟨hgh, rfl⟩

theorem solveAll_below (hR : Refines R) (hgh : R g h) :
    Below (Alongside R) (solveAll g).value (solveAll h).value := by
  apply (hR.snapshot hgh).bind_run
  rintro ⟨g, s⟩ ⟨h, _⟩ ⟨hgh, rfl⟩
  exact Below.bind_run_eq (.refl _) fun p => .ok ⟨hgh, rfl⟩

theorem solveLevels_below (hR : Refines R) (hgh : R g h) :
    Below (Alongside R) (solveLevels g).value (solveLevels h).value := by
  apply (hR.snapshot hgh).bind_run
  rintro ⟨g, s⟩ ⟨h, _⟩ ⟨hgh, rfl⟩
  exact Below.bind_run_eq (.refl _) fun l => Below.bind_run_eq (.refl _) fun l => .ok ⟨hgh, rfl⟩

end

section

variable {ρ : Type} [DecidableEq ρ] {S S' : System ρ}

/-- The second system has every equation of the first one, and room for more. -/
structure System.Within (S S' : System ρ) : Prop where
  key_eq : S.key? = S'.key?
  equation_below : ∀ r, Below Eq (S.equation r).value (S'.equation r).value
  capacity_le : S.capacity ≤ S'.capacity
  width_le : S.width ≤ S'.width

/-- The same nodes for two systems. -/
inductive Unfolding.SameNodes (S S' : System ρ) : Unfolding ρ → Unfolding ρ → Prop where
  | intro (nodes : NodeTable ρ) : SameNodes S S' ⟨S, nodes⟩ ⟨S', nodes⟩

namespace Unfolding

variable {u v : Unfolding ρ}

theorem SameNodes.intern (hS : S.Within S') (h : SameNodes S S' u v) (r : ρ) :
    SameNodes S S' (u.intern r).1 (v.intern r).1 := by
  obtain ⟨nodes⟩ := h
  have hkey : S.key? r = S'.key? r := congrFun hS.key_eq r
  simp only [Unfolding.intern, hkey]
  exact .intro _

theorem SameNodes.hyperedges (hS : S.Within S') (h : SameNodes S S' u v) (node : NodeId) :
    Below (Alongside (SameNodes S S')) (u.hyperedges node).value (v.hyperedges node).value := by
  obtain ⟨nodes⟩ := h
  unfold Unfolding.hyperedges
  apply Below.bind_run_eq (.refl _)
  rintro ⟨record, edges⟩
  cases edges with
  | some edges => exact .ok ⟨.intro nodes, rfl⟩
  | none =>
    apply Below.bind_run (R := fun _ _ => True) (.ok trivial)
    intro _ _ _
    apply (hS.equation_below record).bind_run_eq
    intro equation
    rw [hS.key_eq]
    exact Below.bind_run_eq (.refl _) fun nodes => .ok ⟨.intro nodes, rfl⟩

theorem SameNodes.build (hS : S.Within S') (h : SameNodes S S' u v) :
    Below (SameNodes S S') u.build.value v.build.value := by
  obtain ⟨nodes⟩ := h
  unfold Unfolding.build
  apply Below.loop (R := fun c d : Construction ρ =>
    c.next = d.next ∧ SameNodes S S' c.unfolding d.unfolding)
  · rintro ⟨next, u⟩ ⟨_, v⟩ ⟨rfl, h⟩
    cases h
    rfl
  · rintro ⟨next, u⟩ ⟨_, v⟩ ⟨rfl, h⟩
    apply (SameNodes.hyperedges hS h next).bind_run
    rintro ⟨u, edges⟩ ⟨v, _⟩ ⟨h, rfl⟩
    exact .ok ⟨rfl, h⟩
  · rintro c d ⟨-, h⟩
    exact .ok h
  · exact Nat.succ_le_succ hS.capacity_le
  · exact ⟨rfl, .intro nodes⟩

theorem SameNodes.snapshot (hS : S.Within S') (h : SameNodes S S' u v) :
    Below (Alongside (SameNodes S S')) u.snapshot.value v.snapshot.value := by
  apply (SameNodes.build hS h).bind_run
  intro u v h
  obtain ⟨nodes⟩ := h
  exact .ok ⟨.intro nodes, rfl⟩

theorem refines_sameNodes (hS : S.Within S') : Refines (SameNodes S S') where
  size_eq := by
    intro u v h
    cases h
    rfl
  hyperedges := fun h => h.hyperedges hS
  snapshot := fun h => h.snapshot hS
  searchBound_le := by
    intro u v h
    cases h
    exact Nat.mul_le_mul hS.capacity_le hS.width_le

end Unfolding

end

end ProcessLogic
