import ProcessLogic.Graph.Basic

/-!
# The least solution of a graph

An unknown is satisfied when all targets of one of its hyperedges are; the least such set of
unknowns is reached in stages from the empty one. The unknowns of a graph are its nodes.
-/

set_option autoImplicit false

namespace ProcessLogic

/-- The hyperedges of each unknown. -/
abbrev Equations (ρ : Type) := ρ → List (List ρ)

/-- A node without a row has no hyperedges. -/
def Snapshot.equations (s : Snapshot) : Equations NodeId := fun node => s[node]?.getD []

/-- Every target has a row. -/
def Snapshot.InRange (s : Snapshot) : Prop :=
  ∀ node, ∀ edge ∈ s.equations node, ∀ target ∈ edge, target < s.size

theorem Snapshot.inRange_iff (s : Snapshot) :
    s.InRange ↔ ∀ edges ∈ s.toList, ∀ edge ∈ edges, ∀ target ∈ edge, target < s.size := by
  constructor
  · intro h edges hedges
    obtain ⟨node, hnode⟩ := List.mem_iff_getElem?.mp hedges
    have heq : s.equations node = edges := by simp [equations, ← Array.getElem?_toList, hnode]
    exact heq ▸ h node
  · intro h node edge hedge
    cases hrow : s[node]? with
    | none => simp [equations, hrow] at hedge
    | some edges =>
      rw [equations, hrow] at hedge
      exact h edges (Array.mem_toList_iff.mpr (Array.mem_of_getElem? hrow)) edge hedge

instance (s : Snapshot) : Decidable s.InRange := decidable_of_iff _ s.inRange_iff.symm

section

variable {ρ : Type}

inductive Satisfied (e : Equations ρ) : ρ → Prop where
  | intro {node : ρ} {edge : List ρ} : edge ∈ e node →
      (∀ target ∈ edge, Satisfied e target) → Satisfied e node

/-- What is found by following hyperedges to their targets. -/
inductive Reachable (e : Equations ρ) (start : ρ) : ρ → Prop where
  | start : Reachable e start start
  | target {node target : ρ} {edge : List ρ} : Reachable e start node → edge ∈ e node →
      target ∈ edge → Reachable e start target

/-- Nodes satisfied by a derivation of at most the given depth. -/
def Stage (e : Equations ρ) : Nat → ρ → Prop
  | 0, _ => False
  | k + 1, node => ∃ edge ∈ e node, ∀ target ∈ edge, Stage e k target

variable {e : Equations ρ} {node : ρ}

theorem satisfied_iff :
    Satisfied e node ↔ ∃ edge ∈ e node, ∀ target ∈ edge, Satisfied e target := by
  constructor
  · rintro ⟨hedge, targets⟩
    exact ⟨_, hedge, targets⟩
  · rintro ⟨edge, hedge, targets⟩
    exact .intro hedge targets

/-- The solution lies in every set that is closed under the equations. -/
theorem Satisfied.least {P : ρ → Prop}
    (closed : ∀ node, ∀ edge ∈ e node, (∀ target ∈ edge, P target) → P node)
    (h : Satisfied e node) : P node := by
  induction h with
  | intro hedge _ ih => exact closed _ _ hedge ih

theorem Stage.succ {k : Nat} (h : Stage e k node) : Stage e (k + 1) node := by
  induction k generalizing node with
  | zero => exact h.elim
  | succ k ih =>
    obtain ⟨edge, hedge, targets⟩ := h
    exact ⟨edge, hedge, fun target ht => ih (targets target ht)⟩

theorem Stage.mono {j k : Nat} (hjk : j ≤ k) (h : Stage e j node) : Stage e k node := by
  induction hjk with
  | refl => exact h
  | step _ ih => exact ih.succ

theorem Stage.satisfied {k : Nat} (h : Stage e k node) : Satisfied e node := by
  induction k generalizing node with
  | zero => exact h.elim
  | succ k ih =>
    obtain ⟨edge, hedge, targets⟩ := h
    exact .intro hedge fun target ht => ih (targets target ht)

/-- Finitely many nodes that are each in some stage are in a common one. -/
theorem exists_common_stage {nodes : List ρ} (h : ∀ n ∈ nodes, ∃ k, Stage e k n) :
    ∃ k, ∀ n ∈ nodes, Stage e k n := by
  induction nodes with
  | nil => exact ⟨0, fun _ hn => (List.not_mem_nil hn).elim⟩
  | cons m nodes ih =>
    obtain ⟨i, hi⟩ := h m List.mem_cons_self
    obtain ⟨j, hj⟩ := ih fun n hn => h n (List.mem_cons_of_mem m hn)
    refine ⟨max i j, fun n hn => ?_⟩
    rcases List.mem_cons.mp hn with rfl | hn
    · exact hi.mono (Nat.le_max_left i j)
    · exact (hj n hn).mono (Nat.le_max_right i j)

theorem satisfied_iff_exists_stage : Satisfied e node ↔ ∃ k, Stage e k node := by
  constructor
  · intro h
    induction h with
    | intro hedge _ ih =>
      obtain ⟨k, hk⟩ := exists_common_stage ih
      exact ⟨k + 1, _, hedge, hk⟩
  · rintro ⟨k, hk⟩
    exact hk.satisfied

end

end ProcessLogic
