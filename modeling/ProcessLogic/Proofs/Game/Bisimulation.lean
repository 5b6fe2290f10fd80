import ProcessLogic.Comparison
import ProcessLogic.Game.Bisimilarity
import ProcessLogic.Proofs.Graph.Unfolding
import ProcessLogic.Proofs.Lts.Saturation
import ProcessLogic.Proofs.Marking.OnDemand

/-!
# The bisimulation game decides bisimilarity

The attacker wins from a pair exactly when its states are not bisimilar. The game on a system whose
targets all have rows has finitely many positions, which its capacity accounts for.
-/

set_option autoImplicit false

namespace ProcessLogic

/-- The answers to an attack, as pairs. -/
def answers (side : Side) (label : String) (target : StateId) (row : List Transition) :
    List Position :=
  (row.filter fun t => t.label = label).map fun t => side.answer target t.target

/-- The equations of the game, read off the rows of two generators. -/
def gameEquations (attack defend : Generator) : Equations Position
  | .pair l r => attacks .left r (attack.transitions l) ++ attacks .right l (attack.transitions r)
  | .move side label target other => [answers side label target (defend.transitions other)]

namespace Position

/-- All states of the position have rows. -/
def InRange (n : Nat) : Position → Prop
  | .pair l r => l < n ∧ r < n
  | .move _ _ target other => target < n ∧ other < n

/-- A pair leads to its moves, a move to pairs only. -/
def allowance (degree : Nat) : Position → Nat
  | .pair .. => 2 * degree + 1
  | .move .. => 1

def allPairs (n : Nat) : List Position :=
  (List.range n ×ˢ List.range n).map fun p => .pair p.1 p.2

theorem mem_allPairs {n : Nat} {l r : StateId} : pair l r ∈ allPairs n ↔ l < n ∧ r < n := by
  simp [allPairs]

theorem sum_allPairs (n degree : Nat) :
    ((allPairs n).map (allowance degree)).sum = n * n * (2 * degree + 1) := by
  have hconst : (allPairs n).map (allowance degree) =
      List.replicate (n * n) (2 * degree + 1) := by
    rw [allPairs, List.map_map, List.eq_replicate_iff]
    refine ⟨by simp [List.length_product], ?_⟩
    intro w hw
    obtain ⟨p, -, rfl⟩ := List.mem_map.mp hw
    rfl
  rw [hconst, List.sum_replicate, smul_eq_mul]

end Position

theorem mem_attacks {side : Side} {other : StateId} {row : List Transition}
    {edge : List Position} : edge ∈ attacks side other row ↔
      ∃ t ∈ row, edge = [.move side t.label t.target other] := by
  simp [attacks, eq_comm]

theorem weight_attacks (side : Side) (other : StateId) (row : List Transition) :
    weight (attacks side other row) = 2 * row.length :=
  weight_map_singleton (fun t : Transition => Position.move side t.label t.target other) row

section

variable {l : Lts} {attack defend : Strength} {p q : StateId}

theorem gameEquation_value (hl : l.InRange) {pos : Position} (hpos : pos.InRange l.stateCount) :
    (gameEquation (l.generator attack) (l.generator defend) pos).value =
      .ok (gameEquations (l.generator attack) (l.generator defend) pos) := by
  cases pos with
  | pair left right =>
    rw [gameEquation, Run.value_bind_of_ok (Lts.successors_value hl hpos.1),
      Run.value_bind_of_ok (Lts.successors_value hl hpos.2)]
    rfl
  | move side label target other =>
    rw [gameEquation, Run.value_bind_of_ok (Lts.successors_value hl hpos.2)]
    rfl

theorem mem_answers {side : Side} {label : String} {target : StateId} {row : List Transition}
    {pos : Position} : pos ∈ answers side label target row ↔
      ∃ t, ⟨label, t⟩ ∈ row ∧ pos = side.answer target t := by
  simp only [answers, List.mem_map, List.mem_filter, decide_eq_true_eq]
  constructor
  · rintro ⟨e, ⟨he, rfl⟩, rfl⟩
    exact ⟨e.target, he, rfl⟩
  · rintro ⟨t, ht, rfl⟩
    exact ⟨⟨label, t⟩, ⟨ht, rfl⟩, rfl⟩

theorem Side.inRange_answer {side : Side} {n target t : StateId} (htarget : target < n)
    (ht : t < n) : (side.answer target t).InRange n := by
  cases side with
  | left => exact ⟨htarget, ht⟩
  | right => exact ⟨ht, htarget⟩

theorem inRange_of_mem_gameEquations (hl : l.InRange) {pos next : Position} {edge : List Position}
    (hpos : pos.InRange l.stateCount)
    (hedge : edge ∈ gameEquations (l.generator attack) (l.generator defend) pos)
    (hnext : next ∈ edge) : next.InRange l.stateCount := by
  cases pos with
  | pair left right =>
    rcases List.mem_append.mp hedge with hedge | hedge
    · obtain ⟨e, he, rfl⟩ := mem_attacks.mp hedge
      rw [List.mem_singleton.mp hnext]
      exact ⟨((Lts.mem_transitions_generator hl hpos.1).mp he).lt hl hpos.1, hpos.2⟩
    · obtain ⟨e, he, rfl⟩ := mem_attacks.mp hedge
      rw [List.mem_singleton.mp hnext]
      exact ⟨((Lts.mem_transitions_generator hl hpos.2).mp he).lt hl hpos.2, hpos.1⟩
  | move side label target other =>
    rw [List.mem_singleton.mp hedge] at hnext
    obtain ⟨t, ht, rfl⟩ := mem_answers.mp hnext
    exact Side.inRange_answer hpos.1
      (((Lts.mem_transitions_generator hl hpos.2).mp ht).lt hl hpos.2)

/-- Every move has to be paid for, pairs are shared. -/
theorem sum_price_gameEquations_le (hl : l.InRange) {pos : Position}
    (hpos : pos.InRange l.stateCount) :
    ((gameEquations (l.generator attack) (l.generator defend) pos).flatten.map fun next =>
      if next.key?.isSome then 0 else next.allowance (l.generator attack).degree).sum + 1 ≤
      pos.allowance (l.generator attack).degree := by
  have hmoves : ∀ side other row, ((attacks side other row).flatten.map fun next =>
      if next.key?.isSome then 0 else next.allowance (l.generator attack).degree).sum =
      row.length := by
    intro side other row
    induction row with
    | nil => rfl
    | cons e row ih =>
      simp only [attacks, List.map_cons, List.flatten_cons, List.singleton_append, List.sum_cons,
        List.length_cons] at ih ⊢
      rw [ih, Nat.add_comm]
      rfl
  cases pos with
  | pair left right =>
    have hleft : ((l.generator attack).transitions left).length ≤ (l.generator attack).degree :=
      Lts.length_transitions_generator_le hl hpos.1
    have hright : ((l.generator attack).transitions right).length ≤ (l.generator attack).degree :=
      Lts.length_transitions_generator_le hl hpos.2
    rw [gameEquations, List.flatten_append, List.map_append, List.sum_append, hmoves, hmoves]
    show _ ≤ 2 * (l.generator attack).degree + 1
    omega
  | move side label target other =>
    have hpairs : ∀ next ∈ answers side label target ((l.generator defend).transitions other),
        (if next.key?.isSome then 0 else next.allowance (l.generator attack).degree) = 0 := by
      intro next hnext
      obtain ⟨t, -, rfl⟩ := mem_answers.mp hnext
      cases side <;> rfl
    rw [gameEquations, List.flatten_singleton, List.sum_eq_zero]
    · exact Nat.le_refl 1
    · intro w hw
      obtain ⟨next, hnext, rfl⟩ := List.mem_map.mp hw
      exact hpairs next hnext

theorem weight_gameEquations_le (hl : l.InRange) {pos : Position}
    (hpos : pos.InRange l.stateCount) :
    weight (gameEquations (l.generator attack) (l.generator defend) pos) ≤
      4 * (l.generator attack).degree + (l.generator defend).degree + 1 := by
  cases pos with
  | pair left right =>
    have hleft : ((l.generator attack).transitions left).length ≤ (l.generator attack).degree :=
      Lts.length_transitions_generator_le hl hpos.1
    have hright : ((l.generator attack).transitions right).length ≤ (l.generator attack).degree :=
      Lts.length_transitions_generator_le hl hpos.2
    rw [gameEquations, weight_append, weight_attacks, weight_attacks]
    omega
  | move side label target other =>
    have hrow : ((l.generator defend).transitions other).length ≤ (l.generator defend).degree :=
      Lts.length_transitions_generator_le hl hpos.2
    have hanswers : (answers side label target ((l.generator defend).transitions other)).length ≤
        ((l.generator defend).transitions other).length := by
      rw [answers, List.length_map]
      exact List.length_filter_le _ _
    simp only [gameEquations, weight]
    omega

/-- The positions of the game between states of a system. -/
def gameTheory (hl : l.InRange) (attack defend : Strength) :
    (gameSystem (l.generator attack) (l.generator defend)).Theory where
  equations := gameEquations (l.generator attack) (l.generator defend)
  Occurs := Position.InRange l.stateCount
  allowance := Position.allowance (l.generator attack).degree
  shared := Position.allPairs l.stateCount
  surplus := 0
  equation_value := gameEquation_value hl
  occurs_of_mem := inRange_of_mem_gameEquations hl
  weight_le := weight_gameEquations_le hl
  allowance_le := sum_price_gameEquations_le hl
  mem_shared := by
    intro pos hpos hkey
    cases pos with
    | pair left right => exact Position.mem_allPairs.mpr hpos
    | move => simp [gameSystem, Position.key?] at hkey
  capacity_le := by
    rw [Position.sum_allPairs, Nat.zero_add]
    simp [gameSystem, gameCapacity]

theorem faithful_ofPair (hl : l.InRange) (hp : p < l.stateCount) (hq : q < l.stateCount) :
    (Game.ofPair (l.generator attack) (l.generator defend) p q).nodes.Faithful
      (gameTheory hl attack defend) 0 ∧
    (Game.ofPair (l.generator attack) (l.generator defend) p q).nodes.name root =
      some (.pair p q) := by
  have hoccurs : (gameTheory hl attack defend).Occurs (.pair p q) := ⟨hp, hq⟩
  exact Unfolding.faithful_ofRoot _ hoccurs rfl

/-- No bisimulation survives the position. -/
def Position.Lost (attack defend : Moves) : Position → Prop
  | .pair l r => ∀ R, IsBisimulation attack defend R → ¬ R l r
  | .move .left label target other =>
    ∀ R, IsBisimulation attack defend R → ∀ r, defend other label r → ¬ R target r
  | .move .right label target other =>
    ∀ R, IsBisimulation attack defend R → ∀ l, defend other label l → ¬ R l target

theorem Position.lost_of_edge (hl : l.InRange) {pos : Position} {edge : List Position}
    (hpos : pos.InRange l.stateCount)
    (hedge : edge ∈ gameEquations (l.generator attack) (l.generator defend) pos)
    (hlost : ∀ next ∈ edge, next.Lost (l.Move attack) (l.Move defend)) :
    pos.Lost (l.Move attack) (l.Move defend) := by
  cases pos with
  | pair left right =>
    intro R hR hpair
    rcases List.mem_append.mp hedge with hedge | hedge
    · obtain ⟨e, he, rfl⟩ := mem_attacks.mp hedge
      obtain ⟨r, hanswer, hr⟩ := hR.left hpair ((Lts.mem_transitions_generator hl hpos.1).mp he)
      exact hlost _ List.mem_cons_self R hR r hanswer hr
    · obtain ⟨e, he, rfl⟩ := mem_attacks.mp hedge
      obtain ⟨r, hanswer, hr⟩ := hR.right hpair ((Lts.mem_transitions_generator hl hpos.2).mp he)
      exact hlost _ List.mem_cons_self R hR r hanswer hr
  | move side label target other =>
    have hanswers : ∀ t, l.Move defend other label t →
        (side.answer target t).Lost (l.Move attack) (l.Move defend) := by
      intro t ht
      apply hlost
      rw [List.mem_singleton.mp hedge]
      exact mem_answers.mpr ⟨t, (Lts.mem_transitions_generator hl hpos.2).mpr ht, rfl⟩
    cases side with
    | left => exact fun R hR r hr => hanswers r hr R hR
    | right => exact fun R hR r hr => hanswers r hr R hR

/-- From a satisfied position the attacker wins. -/
theorem Position.lost_of_satisfied (hl : l.InRange) {pos : Position}
    (h : Satisfied (gameEquations (l.generator attack) (l.generator defend)) pos)
    (hpos : pos.InRange l.stateCount) : pos.Lost (l.Move attack) (l.Move defend) := by
  induction h with
  | intro hedge _ ih =>
    exact lost_of_edge hl hpos hedge fun next hnext =>
      ih next hnext (inRange_of_mem_gameEquations hl hpos hedge hnext)

/-- At an unsatisfied pair every attack has an answer that leads to an unsatisfied pair. -/
theorem exists_answer (hl : l.InRange) {side : Side} {label : String} {target other : StateId}
    (hother : other < l.stateCount)
    (h : ¬ Satisfied (gameEquations (l.generator attack) (l.generator defend))
      (.move side label target other)) :
    ∃ t, l.Move defend other label t ∧
      ¬ Satisfied (gameEquations (l.generator attack) (l.generator defend))
        (side.answer target t) := by
  by_contra hnone
  apply h
  refine .intro List.mem_cons_self fun next hnext => ?_
  obtain ⟨t, ht, rfl⟩ := mem_answers.mp hnext
  by_contra hnext
  exact hnone ⟨t, (Lts.mem_transitions_generator hl hother).mp ht, hnext⟩

theorem isBisimulation_unsatisfied (hl : l.InRange) :
    IsBisimulation (l.Move attack) (l.Move defend) fun p q => p < l.stateCount ∧ q < l.stateCount ∧
      ¬ Satisfied (gameEquations (l.generator attack) (l.generator defend)) (.pair p q) where
  left := by
    rintro p q a p' ⟨hp, hq, hpair⟩ step
    have hmove : ¬ Satisfied (gameEquations (l.generator attack) (l.generator defend))
        (.move .left a p' q) := by
      intro hmove
      have he := (Lts.mem_transitions_generator hl hp).mpr step
      exact hpair (.intro (List.mem_append_left _ (mem_attacks.mpr ⟨_, he, rfl⟩)) (by simpa))
    obtain ⟨q', answer, hnext⟩ := exists_answer hl hq hmove
    exact ⟨q', answer, step.lt hl hp, answer.lt hl hq, hnext⟩
  right := by
    rintro p q a q' ⟨hp, hq, hpair⟩ step
    have hmove : ¬ Satisfied (gameEquations (l.generator attack) (l.generator defend))
        (.move .right a q' p) := by
      intro hmove
      have he := (Lts.mem_transitions_generator hl hq).mpr step
      exact hpair (.intro (List.mem_append_right _ (mem_attacks.mpr ⟨_, he, rfl⟩)) (by simpa))
    obtain ⟨p', answer, hnext⟩ := exists_answer hl hp hmove
    exact ⟨p', answer, answer.lt hl hp, step.lt hl hq, hnext⟩

theorem satisfied_pair_iff (hl : l.InRange) (hp : p < l.stateCount) (hq : q < l.stateCount) :
    Satisfied (gameEquations (l.generator attack) (l.generator defend)) (.pair p q) ↔
      ¬ Bisimilar (l.Move attack) (l.Move defend) p q := by
  constructor
  · rintro h ⟨R, hR, hpq⟩
    exact Position.lost_of_satisfied hl h ⟨hp, hq⟩ R hR hpq
  · intro h
    -- the pairs the attacker cannot win form a bisimulation
    by_contra hsat
    exact h ⟨_, isBisimulation_unsatisfied hl, hp, hq, hsat⟩

open scoped Classical in
theorem bisimilar_value (hl : l.InRange) (hp : p < l.stateCount) (hq : q < l.stateCount)
    (attack defend : Strength) :
    (bisimilar (l.generator attack) (l.generator defend) p q).value =
      .ok (decide (Bisimilar (l.Move attack) (l.Move defend) p q)) := by
  have hoccurs : (gameTheory hl attack defend).Occurs (.pair p q) := ⟨hp, hq⟩
  obtain ⟨g, m, hvalue, hverdict⟩ := Unfolding.solve_ofRoot (gameTheory hl attack defend) rfl
    hoccurs rfl (satisfied_pair_iff hl hp hq)
  have hvalue : (solve (Game.ofPair (l.generator attack) (l.generator defend) p q) root).value =
      .ok (g, m) := hvalue
  rw [bisimilar, Run.value_bind_of_ok hvalue, ← hverdict]
  rfl

/-- The comparison of two states ends, and it answers whether a bisimulation relates them. -/
theorem bisimilar_decides (hl : l.InRange) (hp : p < l.stateCount) (hq : q < l.stateCount)
    (attack defend : Strength) :
    ∃ verdict, (bisimilar (l.generator attack) (l.generator defend) p q).value = .ok verdict ∧
      (verdict = true ↔ Bisimilar (l.Move attack) (l.Move defend) p q) := by
  classical
  exact ⟨_, bisimilar_value hl hp hq attack defend, decide_eq_true_iff⟩

end

theorem bisimilar_decides_hesitant :
    Lts.hesitant.InRange ∧ 0 < Lts.hesitant.stateCount ∧ 2 < Lts.hesitant.stateCount ∧
      ∃ verdict, (bisimilar (Lts.hesitant.generator .strong) (Lts.hesitant.generator .weak)
          0 2).value = .ok verdict ∧
        (verdict = true ↔
          Bisimilar (Lts.hesitant.Move .strong) (Lts.hesitant.Move .weak) 0 2) :=
  ⟨by decide, by decide, by decide,
    bisimilar_decides (by decide) (by decide) (by decide) .strong .weak⟩

end ProcessLogic
