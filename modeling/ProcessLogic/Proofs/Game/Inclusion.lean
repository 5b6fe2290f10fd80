import ProcessLogic.Comparison
import ProcessLogic.Proofs.Graph.Unfolding
import ProcessLogic.Proofs.Lts.Saturation
import ProcessLogic.Proofs.Lts.Trace
import ProcessLogic.Proofs.Marking.OnDemand

/-!
# The chase decides trace inclusion

A pursuit is satisfied exactly when its left state has a trace that none of its right states has.
The right states are kept in strict order, so each set of them is one sublist of all states, and
the pursuits between states of a system are finitely many. With weak answers to single steps the
comparison is about visible labels only.
-/

set_option autoImplicit false

namespace ProcessLogic

theorem pairwise_insertState {s : StateId} {states : List StateId}
    (h : states.Pairwise (· < ·)) : (insertState s states).Pairwise (· < ·) := by
  induction states with
  | nil => exact List.pairwise_singleton _ _
  | cons t ts ih =>
    obtain ⟨hfirst, hrest⟩ := List.pairwise_cons.mp h
    unfold insertState
    split
    · next hst =>
      refine List.pairwise_cons.mpr ⟨fun u hu => ?_, h⟩
      rcases List.mem_cons.mp hu with rfl | hu
      · exact hst
      · exact hst.trans (hfirst u hu)
    · next hst =>
      split
      · exact h
      · next hne =>
        refine List.pairwise_cons.mpr ⟨fun u hu => ?_, ih hrest⟩
        rcases mem_insertState.mp hu with rfl | hu
        · exact Nat.lt_of_le_of_ne (Nat.le_of_not_lt hst) (Ne.symm hne)
        · exact hfirst u hu

theorem pairwise_stateSet (states : List StateId) : (stateSet states).Pairwise (· < ·) := by
  induction states with
  | nil => exact .nil
  | cons s states ih => exact pairwise_insertState ih

/-- The right states after a move by `label`. -/
def followers (defend : Generator) (label : String) (rights : List StateId) : List StateId :=
  stateSet
    (((rights.map defend.transitions).flatten.filter fun u => u.label = label).map (·.target))

/-- The equations of the chase, read off the rows of two generators. -/
def pursuitEquations (attack defend : Generator) : Equations Pursuit := fun p =>
  (attack.transitions p.left).map fun t => pursue t (p.rights.map defend.transitions)

section

variable {attack defend : Generator} {t : Transition} {rights : List StateId} {edge : List Pursuit}
  {p next : Pursuit}

theorem mem_pursuitEquations : edge ∈ pursuitEquations attack defend p ↔
    ∃ t ∈ attack.transitions p.left, edge = pursue t (p.rights.map defend.transitions) := by
  simp [pursuitEquations, eq_comm]

/-- A move is a hyperedge to the pursuit that it leads to, and an empty one if nothing follows. -/
theorem mem_pursue : next ∈ pursue t (rights.map defend.transitions) ↔
    next = ⟨t.target, followers defend t.label rights⟩ ∧ followers defend t.label rights ≠ [] := by
  unfold pursue
  split
  · next hnone =>
    have hnone : followers defend t.label rights = [] := hnone
    simp [hnone]
  · next hsome =>
    have hsome : followers defend t.label rights ≠ [] := hsome
    exact List.mem_singleton.trans (and_iff_left hsome).symm

theorem length_pursue_le : (pursue t (rights.map defend.transitions)).length ≤ 1 := by
  unfold pursue
  split
  · exact Nat.zero_le 1
  · exact Nat.le_refl 1

end

namespace Pursuit

/-- What holds of the pursuits between states of a system with `n` rows. -/
structure Occurs (n : Nat) (p : Pursuit) : Prop where
  left_lt : p.left < n
  rights_lt : ∀ r ∈ p.rights, r < n
  rights_ordered : p.rights.Pairwise (· < ·)
  rights_ne_nil : p.rights ≠ []

/-- Every left state with every set of right states. -/
def all (n : Nat) : List Pursuit :=
  (List.range n ×ˢ (List.range n).sublists).map fun x => ⟨x.1, x.2⟩

variable {n : Nat} {p : Pursuit}

theorem Occurs.mem_all (h : p.Occurs n) : p ∈ all n := by
  have hsub : p.rights ⊆ List.range n := fun r hr => List.mem_range.mpr (h.rights_lt r hr)
  have hsublist : p.rights.Sublist (List.range n) :=
    List.sublist_of_subperm_of_pairwise (List.subperm_of_subset h.rights_ordered.nodup hsub)
      h.rights_ordered List.pairwise_lt_range
  refine List.mem_map.mpr ⟨(p.left, p.rights), List.mem_product.mpr ⟨?_, ?_⟩, rfl⟩
  · exact List.mem_range.mpr h.left_lt
  · exact List.mem_sublists.mpr hsublist

theorem occurs_start {l r : StateId} (hl : l < n) (hr : r < n) : Occurs n ⟨l, [r]⟩ := by
  refine ⟨hl, ?_, List.pairwise_singleton _ _, List.cons_ne_nil _ _⟩
  intro s hs
  rw [List.mem_singleton.mp hs]
  exact hr

theorem length_all (n : Nat) : (all n).length = n * 2 ^ n := by
  rw [all, List.length_map, List.length_product, List.length_sublists, List.length_range]

end Pursuit

section

variable {l : Lts} {attack defend : Strength} {p q s : StateId} {label : String}
  {rights : List StateId} {c next : Pursuit} {edge : List Pursuit}

theorem mem_followers (hl : l.InRange) (hrights : ∀ r ∈ rights, r < l.stateCount) :
    s ∈ followers (l.generator defend) label rights ↔
      ∃ r ∈ rights, l.Move defend r label s := by
  rw [followers, mem_stateSet, List.mem_map]
  constructor
  · rintro ⟨u, hu, rfl⟩
    obtain ⟨hmem, hlabel⟩ := List.mem_filter.mp hu
    obtain ⟨_, hrow, hmem⟩ := List.mem_flatten.mp hmem
    obtain ⟨r, hr, rfl⟩ := List.mem_map.mp hrow
    have hlabel : u.label = label := by simpa using hlabel
    rw [← hlabel]
    exact ⟨r, hr, (Lts.mem_transitions_generator hl (hrights r hr)).mp hmem⟩
  · rintro ⟨r, hr, step⟩
    have hmem := (Lts.mem_transitions_generator hl (hrights r hr)).mpr step
    refine ⟨⟨label, s⟩, List.mem_filter.mpr ⟨?_, by simp⟩, rfl⟩
    exact List.mem_flatten.mpr ⟨_, List.mem_map_of_mem hr, hmem⟩

theorem pursuitEquation_value (hl : l.InRange) (hc : c.Occurs l.stateCount) :
    (pursuitEquation (l.generator attack) (l.generator defend) c).value =
      .ok (pursuitEquations (l.generator attack) (l.generator defend) c) := by
  have hrights : (c.rights.mapM (l.generator defend).successors).value =
      .ok (c.rights.map (l.generator defend).transitions) := by
    rw [Run.value_mapM]
    exact mapM_eq_ok fun r hr => Lts.successors_value hl (hc.rights_lt r hr)
  rw [pursuitEquation, Run.value_bind_of_ok (Lts.successors_value hl hc.left_lt), Run.value_mapM]
  apply mapM_eq_ok
  intro t _
  rw [Run.value_bind_of_ok hrights]
  rfl

theorem occurs_of_mem_pursuitEquations (hl : l.InRange) (hc : c.Occurs l.stateCount)
    (hedge : edge ∈ pursuitEquations (l.generator attack) (l.generator defend) c)
    (hnext : next ∈ edge) : next.Occurs l.stateCount := by
  obtain ⟨t, ht, rfl⟩ := mem_pursuitEquations.mp hedge
  obtain ⟨rfl, hne⟩ := mem_pursue.mp hnext
  refine ⟨?_, ?_, pairwise_stateSet _, hne⟩
  · exact ((Lts.mem_transitions_generator hl hc.left_lt).mp ht).lt hl hc.left_lt
  · intro s hs
    obtain ⟨r, hr, step⟩ := (mem_followers hl hc.rights_lt).mp hs
    exact step.lt hl (hc.rights_lt r hr)

theorem weight_pursuitEquations_le (hl : l.InRange) (hc : c.Occurs l.stateCount) :
    weight (pursuitEquations (l.generator attack) (l.generator defend) c) ≤
      2 * (l.generator attack).degree := by
  have hrow : ((l.generator attack).transitions c.left).length ≤ (l.generator attack).degree :=
    Lts.length_transitions_generator_le hl hc.left_lt
  have hsum := List.sum_le_card_nsmul
    ((pursuitEquations (l.generator attack) (l.generator defend) c).map fun e => e.length + 1) 2 (by
      intro w hw
      obtain ⟨e, he, rfl⟩ := List.mem_map.mp hw
      obtain ⟨t, -, rfl⟩ := mem_pursuitEquations.mp he
      exact Nat.succ_le_succ length_pursue_le)
  rw [← weight_eq_sum, smul_eq_mul, List.length_map, pursuitEquations, List.length_map] at hsum
  rw [pursuitEquations]
  omega

/-- The pursuits between states of a system. -/
def pursuitTheory (hl : l.InRange) (attack defend : Strength) :
    (pursuitSystem (l.generator attack) (l.generator defend)).Theory where
  equations := pursuitEquations (l.generator attack) (l.generator defend)
  Occurs := Pursuit.Occurs l.stateCount
  allowance := fun _ => 1
  shared := Pursuit.all l.stateCount
  surplus := 0
  equation_value := pursuitEquation_value hl
  occurs_of_mem := occurs_of_mem_pursuitEquations hl
  weight_le := weight_pursuitEquations_le hl
  allowance_le := by
    intro c _
    -- every pursuit is shared, so none has to be paid for
    rw [List.sum_eq_zero]
    intro w hw
    obtain ⟨next, -, rfl⟩ := List.mem_map.mp hw
    rfl
  mem_shared := fun hc _ => hc.mem_all
  capacity_le := by
    have hpow : 2 ^ l.stateCount ≤ 2 ^ (l.generator defend).reach :=
      Nat.pow_le_pow_right Nat.two_pos (by simp [Generator.reach])
    have hcapacity : (pursuitSystem (l.generator attack) (l.generator defend)).capacity =
        l.stateCount * (2 ^ (l.generator defend).reach + 1) := by
      simp [pursuitSystem, pursuitCapacity]
    rw [hcapacity, List.map_const', List.sum_replicate, Pursuit.length_all, smul_eq_mul,
      Nat.mul_one, Nat.zero_add]
    exact Nat.mul_le_mul_left _ (Nat.le_succ_of_le hpow)

/-- The left state has a trace that no right state has. -/
def Pursuit.Escapes (attack defend : Moves) (c : Pursuit) : Prop :=
  ∃ trace, Performs attack c.left trace ∧ ∀ r ∈ c.rights, ¬ Performs defend r trace

/-- A move after which the left state escapes from the followers is an escape. -/
theorem Pursuit.Escapes.step (hl : l.InRange) (hrights : ∀ r ∈ c.rights, r < l.stateCount)
    (step : l.Move attack c.left label s)
    (h : Pursuit.Escapes (l.Move attack) (l.Move defend)
      ⟨s, followers (l.generator defend) label c.rights⟩) :
    c.Escapes (l.Move attack) (l.Move defend) := by
  obtain ⟨trace, hperforms, hnone⟩ := h
  refine ⟨label :: trace, .cons step hperforms, fun r hr hfollows => ?_⟩
  cases hfollows with
  | cons answer rest => exact hnone _ ((mem_followers hl hrights).mpr ⟨r, hr, answer⟩) rest

theorem Pursuit.escapes_of_satisfied (hl : l.InRange)
    (h : Satisfied (pursuitEquations (l.generator attack) (l.generator defend)) c)
    (hc : c.Occurs l.stateCount) : c.Escapes (l.Move attack) (l.Move defend) := by
  induction h with
  | @intro c edge hedge _ ih =>
    obtain ⟨t, ht, rfl⟩ := mem_pursuitEquations.mp hedge
    have step := (Lts.mem_transitions_generator hl hc.left_lt).mp ht
    apply Escapes.step hl hc.rights_lt step
    by_cases hnone : followers (l.generator defend) t.label c.rights = []
    · -- nothing follows, so the move alone escapes
      exact ⟨[], .nil _, by simp [hnone]⟩
    · have hnext := mem_pursue.mpr ⟨rfl, hnone⟩
      exact ih _ hnext (occurs_of_mem_pursuitEquations hl hc hedge hnext)

theorem satisfied_of_performs (hl : l.InRange) {trace : List String}
    (h : Performs (l.Move attack) p trace) (hc : Pursuit.Occurs l.stateCount ⟨p, rights⟩)
    (hnone : ∀ r ∈ rights, ¬ Performs (l.Move defend) r trace) :
    Satisfied (pursuitEquations (l.generator attack) (l.generator defend)) ⟨p, rights⟩ := by
  induction h generalizing rights with
  | nil p =>
    -- some right state is left, and it has the empty trace
    obtain ⟨r, hr⟩ := List.exists_mem_of_ne_nil _ hc.rights_ne_nil
    exact absurd (.nil r) (hnone r hr)
  | @cons p s label trace step _ ih =>
    have ht := (Lts.mem_transitions_generator hl hc.left_lt).mpr step
    have hedge : pursue ⟨label, s⟩ (rights.map (l.generator defend).transitions) ∈
        pursuitEquations (l.generator attack) (l.generator defend) ⟨p, rights⟩ :=
      mem_pursuitEquations.mpr ⟨_, ht, rfl⟩
    refine .intro hedge fun next hnext => ?_
    have hoccurs := occurs_of_mem_pursuitEquations hl hc hedge hnext
    obtain ⟨rfl, -⟩ := mem_pursue.mp hnext
    apply ih hoccurs
    intro s' hs' hperforms
    obtain ⟨r, hr, answer⟩ := (mem_followers hl hc.rights_lt).mp hs'
    exact hnone r hr (.cons answer hperforms)

theorem satisfied_pursuit_iff (hl : l.InRange) (hp : p < l.stateCount) (hq : q < l.stateCount) :
    Satisfied (pursuitEquations (l.generator attack) (l.generator defend)) ⟨p, [q]⟩ ↔
      ¬ TracesIncluded (l.Move attack) (l.Move defend) p q := by
  have hc := Pursuit.occurs_start hp hq
  constructor
  · intro h hincluded
    obtain ⟨trace, hperforms, hnone⟩ := Pursuit.escapes_of_satisfied hl h hc
    exact hnone q List.mem_cons_self (hincluded trace hperforms)
  · intro h
    unfold TracesIncluded at h
    push Not at h
    obtain ⟨trace, hperforms, hnone⟩ := h
    exact satisfied_of_performs hl hperforms hc (by simpa using hnone)

open scoped Classical in
theorem traceIncluded_value (hl : l.InRange) (hp : p < l.stateCount) (hq : q < l.stateCount)
    (attack defend : Strength) :
    (traceIncluded (l.generator attack) (l.generator defend) p q).value =
      .ok (decide (TracesIncluded (l.Move attack) (l.Move defend) p q)) := by
  have hoccurs : (pursuitTheory hl attack defend).Occurs ⟨p, [q]⟩ := Pursuit.occurs_start hp hq
  obtain ⟨c, m, hvalue, hverdict⟩ := Unfolding.solve_ofRoot (pursuitTheory hl attack defend) rfl
    hoccurs rfl (satisfied_pursuit_iff hl hp hq)
  have hvalue : (solve (Chase.ofPair (l.generator attack) (l.generator defend) p q) root).value =
      .ok (c, m) := hvalue
  rw [traceIncluded, Run.value_bind_of_ok hvalue, ← hverdict]
  rfl

/-- The comparison of two states ends, and it answers whether all traces of the first are traces of
the second. -/
theorem traceIncluded_decides (hl : l.InRange) (hp : p < l.stateCount) (hq : q < l.stateCount)
    (attack defend : Strength) :
    ∃ verdict, (traceIncluded (l.generator attack) (l.generator defend) p q).value = .ok verdict ∧
      (verdict = true ↔ TracesIncluded (l.Move attack) (l.Move defend) p q) := by
  classical
  exact ⟨_, traceIncluded_value hl hp hq attack defend, decide_eq_true_iff⟩

theorem traceIncluded_decides_choosing :
    Lts.choosing.InRange ∧ 0 < Lts.choosing.stateCount ∧ 2 < Lts.choosing.stateCount ∧
      ∃ verdict, (traceIncluded (Lts.choosing.generator .strong) (Lts.choosing.generator .strong)
          0 2).value = .ok verdict ∧
        (verdict = true ↔
          TracesIncluded (Lts.choosing.Move .strong) (Lts.choosing.Move .strong) 0 2) :=
  ⟨by decide, by decide, by decide,
    traceIncluded_decides (by decide) (by decide) (by decide) .strong .strong⟩

/-- Single steps answered by weak ones compare the visible labels of traces. -/
theorem traceIncluded_value_visible (hl : l.InRange) (hp : p < l.stateCount)
    (hq : q < l.stateCount) :
    ∃ verdict, (traceIncluded (l.generator .strong) (l.generator .weak) p q).value = .ok verdict ∧
      (verdict = true ↔ ∀ trace, Performs l.Step p trace →
        ∃ trace', Performs l.Step q trace' ∧ visible trace' = visible trace) := by
  classical
  refine ⟨_, traceIncluded_value hl hp hq .strong .weak, ?_⟩
  rw [decide_eq_true_iff]
  exact forall_congr' fun trace => imp_congr_right fun _ => performs_weak_iff

theorem traceIncluded_value_visible_hesitant :
    Lts.hesitant.InRange ∧ 0 < Lts.hesitant.stateCount ∧ 2 < Lts.hesitant.stateCount ∧
      ∃ verdict, (traceIncluded (Lts.hesitant.generator .strong) (Lts.hesitant.generator .weak)
          0 2).value = .ok verdict ∧
        (verdict = true ↔ ∀ trace, Performs Lts.hesitant.Step 0 trace →
          ∃ trace', Performs Lts.hesitant.Step 2 trace' ∧ visible trace' = visible trace) :=
  ⟨by decide, by decide, by decide,
    traceIncluded_value_visible (by decide) (by decide) (by decide)⟩

example : (traceIncluded (Lts.hesitant.generator .strong) (Lts.hesitant.generator .strong)
      0 2).value = .ok false ∧
    (traceIncluded (Lts.hesitant.generator .strong) (Lts.hesitant.generator .weak)
      0 2).value = .ok true := by
  decide +kernel

end

end ProcessLogic
