import ProcessLogic.Proofs.Game.Bisimilarity
import ProcessLogic.Proofs.Game.Distinction
import ProcessLogic.Proofs.Game.Partition
import ProcessLogic.Proofs.Marking.Exhaustive

/-!
# Classes of bisimilar states

The pairs that are not satisfied are bisimilar, and so are the states that a chain of such pairs
joins. If every pair of some states takes part in the game, their classes are those of bisimilarity.
-/

set_option autoImplicit false

namespace ProcessLogic

variable {l : Lts} {attack defend : Strength} {p q : StateId}

theorem equivalence_bisimilar (hweaker : attack = .strong ∨ defend = .weak) :
    Equivalence (Bisimilar (l.Move attack) (l.Move defend)) where
  refl := .refl fun _ _ _ => move_weaker hweaker
  symm := .symm
  trans := .trans_move hweaker

section

variable {S : System Position} {t : NodeTable Position} {n : NodeId} {status : NodeId → Status}

theorem Game.mem_pairs : (n, p, q) ∈ Game.pairs ⟨S, t⟩ ↔ t.name n = some (.pair p q) := by
  rw [NodeTable.name_eq_some_iff, Game.pairs, NodeTable.records, List.mem_filterMap]
  constructor
  · intro h
    obtain ⟨⟨m, pos⟩, hmem, hpair⟩ := h
    obtain ⟨⟨m', row⟩, hrow, heq⟩ := List.mem_map.mp hmem
    cases heq
    refine ⟨row, ?_⟩
    cases hrecord : row.record with
    | move => simp [hrecord] at hpair
    | pair =>
      simp only [hrecord, Option.some.injEq, Prod.mk.injEq] at hpair
      obtain ⟨rfl, rfl, rfl⟩ := hpair
      exact ⟨Table.mem_enumerate.mp hrow, rfl⟩
  · intro h
    obtain ⟨row, hrow, hrecord⟩ := h
    refine ⟨(n, row.record), ?_, by simp [hrecord]⟩
    exact List.mem_map.mpr ⟨(n, row), Table.mem_enumerate.mpr hrow, rfl⟩

theorem Game.united_iff : Gathering.United (Game.pairs ⟨S, t⟩) status p q ↔
    ∃ n, t.name n = some (.pair p q) ∧ status n = .unproved :=
  exists_congr fun _ => and_congr_left fun _ => Game.mem_pairs

theorem Game.mem_states_ofPairs {s : StateId} :
    s ∈ (Partition.ofPairs (Game.pairs ⟨S, t⟩) status).states.toList ↔
      ∃ n p q, t.name n = some (.pair p q) ∧ (s = p ∨ s = q) := by
  rw [Partition.mem_states_ofPairs]
  simp only [Prod.exists, Game.mem_pairs]

end

section

variable {hl : l.InRange} {t : NodeTable Position} {status : NodeId → Status}

/-- A marking under which unproved pairs are bisimilar yields classes of bisimilar states. -/
theorem bisimilar_of_representative_eq (hweaker : attack = .strong ∨ defend = .weak)
    {pairs : List (NodeId × StateId × StateId)}
    (hunited : ∀ p q, Gathering.United pairs status p q →
      Bisimilar (l.Move attack) (l.Move defend) p q)
    (h : (Partition.ofPairs pairs status).representative p =
      (Partition.ofPairs pairs status).representative q) :
    Bisimilar (l.Move attack) (l.Move defend) p q := by
  have hchain := Partition.representative_ofPairs_eq_iff.mp h
  exact eqvGen_lift (equivalence_bisimilar hweaker) hunited hchain

theorem Game.inRange_of_name (h : t.Faithful (gameTheory hl attack defend) 0) {n : NodeId}
    (hn : t.name n = some (.pair p q)) : p < l.stateCount ∧ q < l.stateCount := by
  obtain ⟨row, hrow, hrecord⟩ := NodeTable.name_eq_some_iff.mp hn
  have hoccurs := h.occurs n row hrow
  rw [hrecord] at hoccurs
  exact hoccurs

theorem Game.collapse_value (hweaker : attack = .strong ∨ defend = .weak)
    (h : t.Faithful (gameTheory hl attack defend) 0) :
    ∃ P, (Game.collapse ⟨gameSystem (l.generator attack) (l.generator defend), t⟩).value = .ok P ∧
      (∀ s ∈ P.states.toList, s < l.stateCount) ∧
      (∀ n p q, t.name n = some (.pair p q) → p ∈ P.states.toList ∧ q ∈ P.states.toList ∧
        (Bisimilar (l.Move attack) (l.Move defend) p q →
          P.representative p = P.representative q)) ∧
      ∀ p q, P.representative p = P.representative q →
        Bisimilar (l.Move attack) (l.Move defend) p q := by
  obtain ⟨t', m, hvalue, hfaithful, hgrown, hstatus⟩ := Unfolding.solveAll_value h
  -- the marking tells bisimilar pairs from others
  have hpair : ∀ n p q, t'.name n = some (.pair p q) →
      (m.status n = .unproved ↔ Bisimilar (l.Move attack) (l.Move defend) p q) := by
    intro n p q hn
    obtain ⟨hp, hq⟩ := Game.inRange_of_name hfaithful hn
    exact (hstatus n _ hn).unproved_iff.trans ((not_congr (satisfied_pair_iff hl hp hq)).trans not_not)
  refine ⟨Partition.ofPairs (Game.pairs ⟨gameSystem (l.generator attack) (l.generator defend), t'⟩)
    m.status, ?_, ?_, ?_, ?_⟩
  · rw [Game.collapse, Run.value_bind_of_ok hvalue]
    rfl
  · intro s hs
    obtain ⟨n, p, q, hn, hpq⟩ := Game.mem_states_ofPairs.mp hs
    obtain ⟨hp, hq⟩ := Game.inRange_of_name hfaithful hn
    rcases hpq with rfl | rfl
    · exact hp
    · exact hq
  · intro n p q hn
    have hn' := hgrown n _ hn
    refine ⟨Game.mem_states_ofPairs.mpr ⟨n, p, q, hn', .inl rfl⟩,
      Game.mem_states_ofPairs.mpr ⟨n, p, q, hn', .inr rfl⟩, ?_⟩
    intro hbisimilar
    apply Partition.representative_ofPairs_eq_iff.mpr
    apply Relation.EqvGen.rel
    exact Game.united_iff.mpr ⟨n, hn', (hpair n p q hn').mpr hbisimilar⟩
  · intro p q
    apply bisimilar_of_representative_eq hweaker
    intro p q hunited
    obtain ⟨n, hn, hunproved⟩ := Game.united_iff.mp hunited
    exact (hpair n p q hn).mp hunproved

/-- Taking in records one by one is taking in a hyperedge of them. -/
theorem Unfolding.foldl_intern {ρ : Type} [DecidableEq ρ] (S : System ρ) (t : NodeTable ρ)
    (rs : List ρ) :
    rs.foldl (fun g r => (Unfolding.intern g r).1) ⟨S, t⟩ = ⟨S, (t.internEdge S.key? rs).1⟩ := by
  unfold NodeTable.internEdge
  induction rs generalizing t with
  | nil => rfl
  | cons r rs ih =>
    rw [List.foldl_cons, thread_cons]
    exact ih _

def Position.pairsOf (states : List StateId) : List Position :=
  (states ×ˢ states).map fun pair => .pair pair.1 pair.2

theorem Position.mem_pairsOf {states : List StateId} {r : Position} :
    r ∈ pairsOf states ↔ ∃ p ∈ states, ∃ q ∈ states, r = .pair p q := by
  constructor
  · intro hr
    obtain ⟨⟨p, q⟩, hpair, rfl⟩ := List.mem_map.mp hr
    obtain ⟨hp, hq⟩ := List.mem_product.mp hpair
    exact ⟨p, hp, q, hq, rfl⟩
  · intro hr
    obtain ⟨p, hp, q, hq, rfl⟩ := hr
    exact List.mem_map.mpr ⟨(p, q), List.mem_product.mpr ⟨hp, hq⟩, rfl⟩

theorem Game.addPairs_eq (g : Game) (states : List StateId) :
    g.addPairs states =
      (Position.pairsOf states).foldl (fun g r => (Unfolding.intern g r).1) g := by
  simp only [Game.addPairs, Game.addPair, Position.pairsOf, SProd.sprod, List.product,
    List.foldl_flatMap, List.foldl_map]

theorem Game.addPairs_value (h : t.Faithful (gameTheory hl attack defend) 0)
    {states : List StateId} (hstates : ∀ s ∈ states, s < l.stateCount) :
    ∃ t', Game.addPairs ⟨gameSystem (l.generator attack) (l.generator defend), t⟩ states =
        ⟨gameSystem (l.generator attack) (l.generator defend), t'⟩ ∧
      t'.Faithful (gameTheory hl attack defend) 0 ∧
      ∀ p ∈ states, ∀ q ∈ states, ∃ n, t'.name n = some (.pair p q) := by
  have hoccurs : ∀ r ∈ Position.pairsOf states, (gameTheory hl attack defend).Occurs r := by
    intro r hr
    obtain ⟨p, hp, q, hq, rfl⟩ := Position.mem_pairsOf.mp hr
    exact ⟨hstates p hp, hstates q hq⟩
  -- pairs are shared, so their nodes need no credit
  have hprice : ((Position.pairsOf states).map (gameTheory hl attack defend).price).sum = 0 := by
    apply List.sum_eq_zero
    intro price hprice
    obtain ⟨r, hr, rfl⟩ := List.mem_map.mp hprice
    obtain ⟨p, -, q, -, rfl⟩ := Position.mem_pairsOf.mp hr
    rfl
  obtain ⟨hfaithful, -, hstands⟩ := h.internEdge hoccurs
  rw [hprice] at hfaithful
  refine ⟨_, (Game.addPairs_eq _ _).trans (Unfolding.foldl_intern _ _ _), hfaithful, ?_⟩
  intro p hp q hq
  obtain ⟨n, -, hn⟩ := hstands.node_of_mem (Position.mem_pairsOf.mpr ⟨p, hp, q, hq, rfl⟩)
  exact ⟨n, hn⟩

end

/-- The collapse of a list of states ends. States of the list share a representative exactly if
the comparison finds them bisimilar, and any states that share one are bisimilar. -/
theorem collapseOf_value_classes (hl : l.InRange) (hweaker : attack = .strong ∨ defend = .weak)
    {states : List StateId} (hne : states ≠ []) (hstates : ∀ s ∈ states, s < l.stateCount) :
    ∃ P, (collapseOf (l.generator attack) (l.generator defend) states).value = .ok (some P) ∧
      (∀ s ∈ states, s ∈ P.states.toList) ∧ (∀ s ∈ P.states.toList, s < l.stateCount) ∧
      (∀ p ∈ states, ∀ q ∈ states,
        (bisimilar (l.generator attack) (l.generator defend) p q).value =
          .ok (decide (P.representative p = P.representative q))) ∧
      ∀ p q, p < l.stateCount → q < l.stateCount → P.representative p = P.representative q →
        (bisimilar (l.generator attack) (l.generator defend) p q).value = .ok true := by
  classical
  obtain ⟨s, rest, rfl⟩ := List.exists_cons_of_ne_nil hne
  have hs := hstates s List.mem_cons_self
  have hfirst : (Game.ofPair (l.generator attack) (l.generator defend) s s).nodes.Faithful
      (gameTheory hl attack defend) 0 := (faithful_ofPair hl hs hs).1
  obtain ⟨t, hadd, hfaithful, hnames⟩ := Game.addPairs_value hfirst hstates
  obtain ⟨P, hvalue, hseen, hlisted, hsound⟩ := Game.collapse_value hweaker hfaithful
  refine ⟨P, ?_, ?_, hseen, ?_, ?_⟩
  · rw [← hadd] at hvalue
    exact Run.value_bind_of_ok hvalue _
  · intro p hp
    obtain ⟨n, hn⟩ := hnames p hp p hp
    exact (hlisted n p p hn).1
  · intro p hp q hq
    obtain ⟨n, hn⟩ := hnames p hp q hq
    obtain ⟨-, -, hcomplete⟩ := hlisted n p q hn
    rw [bisimilar_value hl (hstates p hp) (hstates q hq)]
    exact congrArg Except.ok (decide_eq_decide.mpr ⟨hcomplete, hsound p q⟩)
  · intro p q hp hq heq
    rw [bisimilar_value hl hp hq, decide_eq_true (hsound p q heq)]

theorem collapseOf_value_classes_hesitant :
    Lts.hesitant.InRange ∧ [0, 1, 2, 3] ≠ [] ∧ (∀ s ∈ [0, 1, 2, 3], s < Lts.hesitant.stateCount) ∧
      ∃ P, (collapseOf (Lts.hesitant.generator .strong) (Lts.hesitant.generator .weak)
          [0, 1, 2, 3]).value = .ok (some P) ∧
        (∀ s ∈ [0, 1, 2, 3], s ∈ P.states.toList) ∧
        (∀ s ∈ P.states.toList, s < Lts.hesitant.stateCount) ∧
        (∀ p ∈ [0, 1, 2, 3], ∀ q ∈ [0, 1, 2, 3],
          (bisimilar (Lts.hesitant.generator .strong) (Lts.hesitant.generator .weak) p q).value =
            .ok (decide (P.representative p = P.representative q))) ∧
        ∀ p q, p < Lts.hesitant.stateCount → q < Lts.hesitant.stateCount →
          P.representative p = P.representative q →
          (bisimilar (Lts.hesitant.generator .strong) (Lts.hesitant.generator .weak) p q).value =
            .ok true :=
  ⟨by decide, by decide, by decide,
    collapseOf_value_classes (by decide) (.inl rfl) (by decide) (by decide)⟩

end ProcessLogic
