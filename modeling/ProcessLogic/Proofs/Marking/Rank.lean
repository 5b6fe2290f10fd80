import ProcessLogic.Proofs.Marking.Level

/-!
# Levels are ranks

The unknowns that equations satisfy are the least fixed point of one operator on sets, and the
stages on the way to it are the iterates of that operator from the empty set. The levels of a graph
are the ranks in this iteration. At every moment of the levelling, also before they have come down
to the ranks, finite levels are within the number of nodes.
-/

set_option autoImplicit false

namespace ProcessLogic

section

variable {ρ : Type} {e : Equations ρ} {node : ρ} {k : Nat}

/-- The unknowns that have a hyperedge into a set. -/
def Equations.derive (e : Equations ρ) : Set ρ →o Set ρ where
  toFun P := {node | ∃ edge ∈ e node, ∀ target ∈ edge, target ∈ P}
  monotone' := by
    intro P Q hPQ node h
    obtain ⟨edge, hedge, htargets⟩ := h
    exact ⟨edge, hedge, fun target ht => hPQ (htargets target ht)⟩

theorem stage_iff_iterate : Stage e k node ↔ node ∈ e.derive^[k] ∅ := by
  induction k generalizing node with
  | zero => exact Iff.rfl
  | succ k ih =>
    rw [Function.iterate_succ_apply']
    exact exists_congr fun edge => and_congr_right fun _ =>
      forall_congr' fun target => imp_congr_right fun _ => ih

theorem satisfied_iff_lfp : Satisfied e node ↔ node ∈ OrderHom.lfp e.derive := by
  constructor
  · intro h
    refine h.least fun n edge hedge htargets => ?_
    rw [← OrderHom.map_lfp]
    exact ⟨edge, hedge, htargets⟩
  · intro h
    have hle : OrderHom.lfp e.derive ≤ {n | Satisfied e n} := by
      apply OrderHom.lfp_le
      intro n hn
      obtain ⟨edge, hedge, htargets⟩ := hn
      exact .intro hedge htargets
    exact hle h

end

/-- The levels are the ranks of the nodes, and nodes without a rank are at infinity. -/
structure LevelMarking.Ranks (m : LevelMarking) (e : Equations NodeId) : Prop where
  finite_iff : ∀ n k, m.level n = .finite k ↔ IsLeast {j | n ∈ e.derive^[j] ∅} k
  infinite_iff : ∀ n, m.level n = .infinite ↔ n ∉ OrderHom.lfp e.derive

theorem LevelMarking.ranks_of_atMost_iff {m : LevelMarking} {e : Equations NodeId}
    (h : ∀ n k, (m.level n).AtMost k ↔ Stage e k n) : m.Ranks e := by
  constructor
  · intro n k
    have hset : {j | (m.level n).AtMost j} = {j | n ∈ e.derive^[j] ∅} :=
      Set.ext fun j => (h n j).trans stage_iff_iterate
    rw [Level.eq_finite_iff, hset]
  · intro n
    rw [Level.eq_infinite_iff, ← satisfied_iff_lfp, satisfied_iff_exists_stage, not_exists]
    exact forall_congr' fun k => not_congr (h n k)

namespace Levelling

variable {s : Snapshot} {l l' : Levelling} {k : Nat}

/-- One relaxation is taken from the work and treated. -/
inductive Advances : Levelling → Levelling → Prop where
  | relax {levels : Table Level} {mentions : Table (List Relaxation)} {r : Relaxation}
      {work : List Relaxation} {steps : Nat} :
      Advances ⟨levels, mentions, r :: work, steps⟩ (relax ⟨levels, mentions, work, steps + 1⟩ r)

theorem Sound.advances (h : l.Sound s) (step : Advances l l') : l'.Sound s := by
  cases step with
  | relax => exact (relax_spec h _).1

theorem Sound.of_moment (h : l.Sound s) (moment : Relation.ReflTransGen Advances l l') :
    l'.Sound s := by
  induction moment with
  | refl => exact h
  | tail _ step ih => exact ih.advances step

/-- A run passes from moment to moment. -/
theorem moment_of_run {limit : Nat} (h : run limit l = .ok l') :
    Relation.ReflTransGen Advances l l' := by
  induction limit generalizing l with
  | zero =>
    rw [run] at h
    split at h
    · cases h
      exact .refl
    · cases h
  | succ limit ih =>
    obtain ⟨levels, mentions, work, steps⟩ := l
    cases work with
    | nil =>
      cases h
      exact .refl
    | cons r work => exact .head .relax (ih h)

/-- Finite levels are within the number of nodes, and so are those about to be incremented. The
incremented level, which may not be stored, is at most one more. A table has no more than
`Table.rowBound` rows, so it is a machine word. -/
structure Bounded (size : Nat) (l : Levelling) : Prop where
  level_le : ∀ n k, levelAt l.levels n = .finite k → k ≤ size
  highest_le : ∀ r ∈ l.work, ∀ k, highest (levelAt l.levels) r.edge = .finite k → k ≤ size
  candidate_le : ∀ r ∈ l.work, ∀ k,
    (highest (levelAt l.levels) r.edge).succ = .finite k → k ≤ size + 1
  succ_le : size ≤ Table.rowBound → ∀ r ∈ l.work, ∀ k,
    (highest (levelAt l.levels) r.edge).succ = .finite k → k ≤ idBound

theorem Sound.level_le (h : l.Sound s) {n : NodeId} (hn : levelAt l.levels n = .finite k) :
    k ≤ s.size := by
  rw [← h.size_eq]
  exact h.chained.le_size hn

theorem Sound.highest_le (h : l.Sound s) {edge : Hyperedge}
    (hedge : highest (levelAt l.levels) edge = .finite k) : k ≤ s.size := by
  cases k with
  | zero => exact Nat.zero_le _
  | succ k =>
    obtain ⟨n, -, hn⟩ := exists_highest hedge
    exact h.level_le hn

theorem Sound.candidate_le (h : l.Sound s) {edge : Hyperedge}
    (hedge : (highest (levelAt l.levels) edge).succ = .finite k) : k ≤ s.size + 1 := by
  cases hhighest : highest (levelAt l.levels) edge with
  | infinite =>
    rw [hhighest] at hedge
    cases hedge
  | finite j =>
    rw [hhighest] at hedge
    cases hedge
    exact Nat.succ_le_succ (h.highest_le hhighest)

theorem Sound.bounded (h : l.Sound s) : l.Bounded s.size where
  level_le := fun n k => h.level_le
  highest_le := fun r _ k => h.highest_le
  candidate_le := fun r _ k => h.candidate_le
  succ_le := by
    intro hsize r _ k hk
    have hwords : Table.rowBound < idBound := by decide
    exact Nat.le_trans (h.candidate_le hk) (Nat.lt_of_le_of_lt hsize hwords)

end Levelling

namespace Graph

/-- Levelling a graph ends with the ranks of its nodes, and all levels on the way are bounded by the
number of nodes. -/
theorem solveLevels_ranks (g : Graph) (hg : g.nodes.InRange) :
    ∃ first last, Levelling.start g.nodes = .ok first ∧
      Relation.ReflTransGen Levelling.Advances first last ∧ last.work = [] ∧
      (solveLevels g).value = .ok (g, ⟨last.levels⟩) ∧
      LevelMarking.Ranks ⟨last.levels⟩ g.nodes.equations ∧
      ∀ moment, Relation.ReflTransGen Levelling.Advances first moment →
        moment.Bounded g.size := by
  have hsnapshot : (Hypergraph.snapshot g).value = .ok (g, g.nodes) := rfl
  obtain ⟨first, last, hstart, hfirst, hrun, hlast, hwork, hvalue⟩ :=
    solveLevels_run hsnapshot hg
  refine ⟨first, last, hstart, Levelling.moment_of_run hrun, hwork, hvalue, ?_, ?_⟩
  · apply LevelMarking.ranks_of_atMost_iff
    intro n k
    exact Levelling.atMost_iff hlast hwork
  · intro moment hmoment
    exact (hfirst.of_moment hmoment).bounded

/-- The first node is found by way of the second before a shorter way lowers it. -/
def detour : Graph := ⟨#[[[1], [2]], [[2]], [[]], [[3]]]⟩

theorem solveLevels_ranks_detour :
    detour.nodes.InRange ∧
      ∃ first last, Levelling.start detour.nodes = .ok first ∧
        Relation.ReflTransGen Levelling.Advances first last ∧ last.work = [] ∧
        (solveLevels detour).value = .ok (detour, ⟨last.levels⟩) ∧
        LevelMarking.Ranks ⟨last.levels⟩ detour.nodes.equations ∧
        ∀ moment, Relation.ReflTransGen Levelling.Advances first moment →
          moment.Bounded detour.size :=
  ⟨by decide, solveLevels_ranks detour (by decide)⟩

example : (solveLevels detour).value =
    .ok (detour, ⟨#[.finite 2, .finite 2, .finite 1, .infinite]⟩) := by
  decide +kernel

end Graph

end ProcessLogic
