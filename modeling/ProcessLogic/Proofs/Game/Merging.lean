import ProcessLogic.Proofs.Game.Calls
import ProcessLogic.Proofs.Lts.Padding
import ProcessLogic.Proofs.Marking.Agreement
import ProcessLogic.Proofs.Marking.Refinement

/-!
# Pairs merged by the marking of any solver

A game may have been asked anything before it is solved, also about states that do not exist. A
solver that comes across such a state breaks off, and what it finds out before that, it would find
out as well if the state existed and were idle. So whatever solver has marked the game, the pairs
that it leaves unproved are bisimilar, and merging them puts bisimilar states together only.
-/

set_option autoImplicit false

namespace ProcessLogic

section

variable {γ δ : Type} [Hypergraph γ] [Hypergraph δ]

/-- What a solver has just left behind. A search may be for any node. -/
inductive Solved (graph : γ) : Outcome γ → Prop where
  | onDemand {graph' : γ} {m : Marking} (node : NodeId) : node < Hypergraph.size graph →
      (solve graph node).value = .ok (graph', m) → Solved graph ⟨.onDemand, graph', m.status⟩
  | exhaustive {graph' : γ} {m : Marking} : (solveAll graph).value = .ok (graph', m) →
      Solved graph ⟨.exhaustive, graph', m.status⟩
  | levels {graph' : γ} {m : LevelMarking} : (solveLevels graph).value = .ok (graph', m) →
      Solved graph ⟨.levels, graph', m.status⟩

/-- Every solver ends, a search for whichever node. -/
structure Solvable (graph : γ) : Prop where
  onDemand : ∀ node, node < Hypergraph.size graph → ∃ r, (solve graph node).value = .ok r
  exhaustive : ∃ r, (solveAll graph).value = .ok r
  levels : ∃ r, (solveLevels graph).value = .ok r

/-- What is found out on the lesser graph is found out on the greater one. -/
theorem Solved.refine {R : γ → δ → Prop} {g : γ} {h : δ} {o : Outcome γ} (hR : Refines R)
    (hgh : R g h) (ho : Solved g o) :
    ∃ o', Solved h o' ∧ R o.graph o'.graph ∧ o.status = o'.status := by
  cases ho with
  | onDemand node hnode hvalue =>
    obtain ⟨⟨h', m⟩, hvalue', hgraph, rfl⟩ := solve_below hR hgh node _ hvalue
    exact ⟨_, .onDemand node (hR.size_eq hgh ▸ hnode) hvalue', hgraph, rfl⟩
  | exhaustive hvalue =>
    obtain ⟨⟨h', m⟩, hvalue', hgraph, rfl⟩ := solveAll_below hR hgh _ hvalue
    exact ⟨_, .exhaustive hvalue', hgraph, rfl⟩
  | levels hvalue =>
    obtain ⟨⟨h', m⟩, hvalue', hgraph, rfl⟩ := solveLevels_below hR hgh _ hvalue
    exact ⟨_, .levels hvalue', hgraph, rfl⟩

end

section

variable {ρ : Type} [DecidableEq ρ] {S : System ρ} {T : S.Theory} {nodes : NodeTable ρ}

theorem Solved.exact {o : Outcome (Unfolding ρ)} (h : nodes.Faithful T T.surplus)
    (ho : Solved ⟨S, nodes⟩ o) : o.Exact T nodes := by
  cases ho with
  | onDemand node hnode hvalue =>
    obtain ⟨r, hr⟩ := Unfolding.exists_name hnode
    obtain ⟨u, m, hvalue', hexact, -⟩ := solve_exact h hr
    obtain ⟨rfl, rfl⟩ := Prod.mk.inj (Except.ok.inj (hvalue.symm.trans hvalue'))
    exact hexact
  | exhaustive hvalue =>
    obtain ⟨u, m, hvalue', hexact⟩ := solveAll_exact h
    obtain ⟨rfl, rfl⟩ := Prod.mk.inj (Except.ok.inj (hvalue.symm.trans hvalue'))
    exact hexact
  | levels hvalue =>
    obtain ⟨u, m, hvalue', hexact⟩ := solveLevels_exact h
    obtain ⟨rfl, rfl⟩ := Prod.mk.inj (Except.ok.inj (hvalue.symm.trans hvalue'))
    exact hexact

theorem Unfolding.lt_size_of_hyperedges {u : Unfolding ρ} {node : NodeId}
    {r : Unfolding ρ × List Hyperedge} (h : (u.hyperedges node).value = .ok r) : node < u.size := by
  obtain ⟨row, hrow, -⟩ := Run.value_bind_eq_ok.mp h
  exact (Array.getElem?_eq_some_iff.mp (Table.fetch_eq_ok_iff.mp hrow)).1

theorem Unfolding.solvable (h : nodes.Faithful T T.surplus) :
    Solvable (⟨S, nodes⟩ : Unfolding ρ) where
  onDemand := by
    intro node hnode
    obtain ⟨r, hr⟩ := Unfolding.exists_name hnode
    obtain ⟨u, m, hvalue, -⟩ := solve_exact h hr
    exact ⟨_, hvalue⟩
  exhaustive := by
    obtain ⟨u, m, hvalue, -⟩ := solveAll_exact h
    exact ⟨_, hvalue⟩
  levels := by
    obtain ⟨u, m, hvalue, -⟩ := solveLevels_exact h
    exact ⟨_, hvalue⟩

end

namespace Game

section

variable {S S' : System Position} {g g' : Game}

/-- Some call that does not break off leads from one game to the other. -/
def Called (g g' : Game) : Prop := ∃ c : Call, (c.run g).value = .ok g'

theorem Call.run_below (hS : S.Within S') (h : Unfolding.SameNodes S S' g g') (c : Call) :
    Below (Unfolding.SameNodes S S') (c.run g).value (c.run g').value := by
  have hedges := h.hyperedges hS
  have hsnapshot := h.snapshot hS
  cases c with
  | hyperedges node => exact (hedges node).bind_run fun _ _ h => .ok h.1
  | addPair left right => exact .ok (h.intern hS _)
  | attackerOptions node =>
    obtain ⟨nodes⟩ := h
    apply Below.bind_run (R := fun a b => Unfolding.SameNodes S S' a.1 b.1) _ fun _ _ h => .ok h
    unfold Game.attackerOptions Unfolding.record?
    dsimp only
    split
    · exact .ok (.intro nodes)
    · exact .ok (.intro nodes)
    · apply (hedges node).bind_run
      rintro ⟨_, edges⟩ ⟨_, _⟩ ⟨⟨nodes⟩, rfl⟩
      exact Below.bind_run_eq (.refl _) fun _ => .ok (.intro nodes)
  | defenderOptions node =>
    obtain ⟨nodes⟩ := h
    apply Below.bind_run (R := fun a b => Unfolding.SameNodes S S' a.1 b.1) _ fun _ _ h => .ok h
    unfold Game.defenderOptions Unfolding.record?
    dsimp only
    split
    · exact .ok (.intro nodes)
    · exact .ok (.intro nodes)
    · apply (hedges node).bind_run
      rintro ⟨_, edges⟩ ⟨_, _⟩ ⟨⟨nodes⟩, rfl⟩
      exact Below.bind_run_eq (.refl _) fun _ =>
        Below.bind_run_eq (.refl _) fun _ => .ok (.intro nodes)
  | snapshot => exact hsnapshot.bind_run fun _ _ h => .ok h.1

theorem Call.Fits.of_sameNodes {c : Call} {n : Nat} (hc : c.Fits n g)
    (h : Unfolding.SameNodes S S' g g') : c.Fits n g' := by
  cases h
  cases c with
  | hyperedges node => exact hc
  | addPair left right => exact hc
  | attackerOptions node => trivial
  | defenderOptions node => trivial
  | snapshot => trivial

/-- A call that does not break off is about nodes that exist, and about finitely many states. -/
theorem Call.exists_fits {c : Call} (h : (c.run g).value = .ok g') :
    ∃ n, ∀ m, n ≤ m → c.Fits m g := by
  cases c with
  | hyperedges node =>
    obtain ⟨_, hvalue, -⟩ := Run.value_bind_eq_ok.mp h
    exact ⟨0, fun _ _ => Unfolding.lt_size_of_hyperedges hvalue⟩
  | addPair left right =>
    refine ⟨max left right + 1, fun m hm => ⟨?_, ?_⟩⟩
    · exact Nat.lt_of_le_of_lt (Nat.le_max_left left right) hm
    · exact Nat.lt_of_le_of_lt (Nat.le_max_right left right) hm
  | attackerOptions node => exact ⟨0, fun _ _ => trivial⟩
  | defenderOptions node => exact ⟨0, fun _ _ => trivial⟩
  | snapshot => exact ⟨0, fun _ _ => trivial⟩

end

section

variable {l : Lts} {hl : l.InRange} {attack defend : Strength} {p q a b : StateId} {g : Game}
  {node : NodeId} {o : Outcome Game}

theorem gameSystem_within (l : Lts) (k : Nat) (attack defend : Strength) :
    (gameSystem (l.generator attack) (l.generator defend)).Within
      (gameSystem ((l.padded k).generator attack) ((l.padded k).generator defend)) where
  key_eq := rfl
  equation_below := by
    intro r
    cases r with
    | pair left right =>
      apply (l.successors_below_padded k attack left).bind_run_eq
      intro row
      exact (l.successors_below_padded k attack right).bind_run_eq fun row' => .refl _
    | move side label target other =>
      exact (l.successors_below_padded k defend other).bind_run_eq fun row => .refl _
  capacity_le := by
    have hcount : l.stateCount ≤ (l.padded k).stateCount := by
      rw [Lts.stateCount_padded]
      omega
    have hdegree := l.degree_le_padded k attack
    simp only [gameSystem, gameCapacity, Lts.lts_generator]
    exact Nat.mul_le_mul (Nat.mul_le_mul hcount hcount) (by omega)
  width_le := by
    have hattack := l.degree_le_padded k attack
    have hdefend := l.degree_le_padded k defend
    simp only [gameSystem]
    omega

theorem Sound.solvable (h : g.Sound hl attack defend) : Solvable g := by
  obtain ⟨system, nodes⟩ := g
  obtain ⟨hsystem, hfaithful⟩ := h
  obtain rfl : system = _ := hsystem
  exact Unfolding.solvable (T := gameTheory hl attack defend) hfaithful

/-- A pair that any solver leaves unproved is bisimilar. -/
theorem Sound.bisimilar_of_unproved (h : g.Sound hl attack defend) (ho : Solved g o)
    (hnode : o.graph.record? node = some (.pair a b)) (hstatus : o.status node = .unproved) :
    Bisimilar (l.Move attack) (l.Move defend) a b := by
  obtain ⟨system, nodes⟩ := g
  obtain ⟨hsystem, hfaithful⟩ := h
  obtain rfl : system = _ := hsystem
  have hexact : o.Exact (gameTheory hl attack defend) nodes := ho.exact hfaithful
  obtain ⟨ha, hb⟩ := Game.inRange_of_name hexact.faithful hnode
  rcases hexact.reports node _ hnode with hreports | ⟨-, hunexplored⟩
  · have hnot := hreports.unproved_iff.mp hstatus
    exact not_not.mp (mt (satisfied_pair_iff hl ha hb).mpr hnot)
  · rw [hstatus] at hunexplored
    cases hunexplored

/-- Enough idle states make room for whatever the game has been asked. -/
theorem exists_sound_padded (hl : l.InRange) (attack defend : Strength) (p q : StateId)
    (calls : Relation.ReflTransGen Called
      (Game.ofPair (l.generator attack) (l.generator defend) p q) g) :
    ∃ n, ∀ k, n ≤ k → ∃ g' : Game,
      Unfolding.SameNodes (gameSystem (l.generator attack) (l.generator defend))
        (gameSystem ((l.padded k).generator attack) ((l.padded k).generator defend)) g g' ∧
      g'.Sound (l.inRange_padded hl k) attack defend := by
  -- one call asks about finitely many states, so the bound grows call by call
  induction calls with
  | refl =>
    refine ⟨max p q + 1, fun k hk => ⟨_, .intro _, ?_⟩⟩
    have hp : p < (l.padded k).stateCount :=
      l.lt_stateCount_padded (Nat.lt_of_le_of_lt (Nat.le_max_left p q) hk)
    have hq : q < (l.padded k).stateCount :=
      l.lt_stateCount_padded (Nat.lt_of_le_of_lt (Nat.le_max_right p q) hk)
    exact (sound_ofPair (l.inRange_padded hl k) hp hq attack defend).1
  | tail _ step ih =>
    obtain ⟨c, hvalue⟩ := step
    obtain ⟨n, ih⟩ := ih
    obtain ⟨m, hfits⟩ := Call.exists_fits hvalue
    refine ⟨max n m, fun k hk => ?_⟩
    obtain ⟨g₀, hsame, hsound⟩ := ih k (Nat.le_trans (Nat.le_max_left n m) hk)
    obtain ⟨g₁, hvalue₁, hsame₁⟩ :=
      Call.run_below (gameSystem_within l k attack defend) hsame c _ hvalue
    have hm : m ≤ (l.padded k).stateCount := by
      rw [Lts.stateCount_padded]
      omega
    obtain ⟨g₂, hvalue₂, hsound₂, -⟩ := hsound.call ((hfits _ hm).of_sameNodes hsame)
    obtain rfl := Except.ok.inj (hvalue₁.symm.trans hvalue₂)
    exact ⟨g₁, hsame₁, hsound₂⟩

theorem partition_value (g : Game) (status : NodeId → Status) :
    (g.partition status).value = .ok (Partition.ofPairs g.pairs status) := rfl

theorem collapse_eq_ok_iff {P : Partition} : g.collapse.value = .ok P ↔
    ∃ g' m, (solveAll g).value = .ok (g', m) ∧ P = Partition.ofPairs g'.pairs m.status := by
  unfold Game.collapse
  rw [Run.value_bind_eq_ok, Prod.exists]
  simp only [partition_value, Except.ok.injEq, eq_comm]

/-- States are merged by chains of pairs that the marking leaves unproved. -/
theorem bisimilar_of_merged (hl : l.InRange) (hweaker : attack = .strong ∨ defend = .weak)
    (calls : Relation.ReflTransGen Called
      (Game.ofPair (l.generator attack) (l.generator defend) p q) g) (ho : Solved g o)
    (hmerged : (Partition.ofPairs o.graph.pairs o.status).representative a =
      (Partition.ofPairs o.graph.pairs o.status).representative b) :
    Bisimilar (l.Move attack) (l.Move defend) a b := by
  obtain ⟨k, hpadded⟩ := exists_sound_padded hl attack defend p q calls
  obtain ⟨g', hsame, hsound⟩ := hpadded k (Nat.le_refl k)
  obtain ⟨o', ho', hgraph, hstatus⟩ :=
    ho.refine (Unfolding.refines_sameNodes (gameSystem_within l k attack defend)) hsame
  -- both games have the same nodes and statuses, so an unproved pair of one is one of the other
  apply bisimilar_of_representative_eq hweaker _ hmerged
  intro s t hunited
  obtain ⟨solver, graph, status⟩ := o
  obtain ⟨solver', graph', status'⟩ := o'
  obtain rfl : status = status' := hstatus
  obtain ⟨nodes⟩ := hgraph
  obtain ⟨node, hnode, hunproved⟩ := Game.united_iff.mp hunited
  exact (Lts.bisimilar_padded_iff attack defend).mp
    (hsound.bisimilar_of_unproved ho' hnode hunproved)

/-- Whatever a game was asked before and whichever solver has marked it, states that share a
representative are bisimilar. Nothing but a state that does not exist keeps a solver from ending. -/
theorem partition_sound (hl : l.InRange) (hweaker : attack = .strong ∨ defend = .weak)
    (p q : StateId) :
    (∀ g, Relation.ReflTransGen Called
        (Game.ofPair (l.generator attack) (l.generator defend) p q) g →
      ∀ o, Solved g o → ∃ P, (o.graph.partition o.status).value = .ok P ∧
        ∀ a b, P.representative a = P.representative b →
          Bisimilar (l.Move attack) (l.Move defend) a b) ∧
    (∀ P, (ProcessLogic.collapse (l.generator attack) (l.generator defend) p q).value = .ok P →
      ∀ a b, P.representative a = P.representative b →
        Bisimilar (l.Move attack) (l.Move defend) a b) ∧
    (p < l.stateCount → q < l.stateCount →
      (∃ P, (ProcessLogic.collapse (l.generator attack) (l.generator defend) p q).value = .ok P) ∧
      ∀ g, Relation.ReflTransGen (Follows l.stateCount)
        (Game.ofPair (l.generator attack) (l.generator defend) p q) g → Solvable g) := by
  refine ⟨?_, ?_, ?_⟩
  · intro g calls o ho
    exact ⟨_, rfl, fun a b => bisimilar_of_merged hl hweaker calls ho⟩
  · intro P hvalue a b
    obtain ⟨g, m, hsolved, rfl⟩ := collapse_eq_ok_iff.mp hvalue
    exact bisimilar_of_merged (o := ⟨.exhaustive, g, m.status⟩) hl hweaker .refl (.exhaustive hsolved)
  · intro hp hq
    obtain ⟨hsound, -⟩ := sound_ofPair hl hp hq attack defend
    constructor
    · obtain ⟨⟨g, m⟩, hvalue⟩ := hsound.solvable.exhaustive
      exact ⟨_, collapse_eq_ok_iff.mpr ⟨g, m, hvalue, rfl⟩⟩
    · intro g calls
      obtain ⟨h, -⟩ := hsound.of_calls calls
      exact h.solvable

/-- One of the two pairs is about a state that does not exist. -/
def stranded : Game :=
  ((Game.ofPair (Lts.hesitant.generator .strong) (Lts.hesitant.generator .weak) 0 2).addPair 3 99).1

theorem partition_sound_stranded :
    Lts.hesitant.InRange ∧ Relation.ReflTransGen Called
        (Game.ofPair (Lts.hesitant.generator .strong) (Lts.hesitant.generator .weak) 0 2) stranded ∧
      ∃ o P, Solved stranded o ∧ (o.graph.partition o.status).value = .ok P ∧
        P.representative 0 = P.representative 2 ∧
        ∀ a b, P.representative a = P.representative b →
          Bisimilar (Lts.hesitant.Move .strong) (Lts.hesitant.Move .weak) a b := by
  have hl : Lts.hesitant.InRange := by decide
  have calls : Relation.ReflTransGen Called
      (Game.ofPair (Lts.hesitant.generator .strong) (Lts.hesitant.generator .weak) 0 2) stranded :=
    .single ⟨.addPair 3 99, rfl⟩
  have hmerged : ((solve stranded 0).value.toOption.any fun r =>
      (Partition.ofPairs r.1.pairs r.2.status).representative 0 =
        (Partition.ofPairs r.1.pairs r.2.status).representative 2) = true := by decide +kernel
  cases hvalue : (solve stranded 0).value with
  | error e => simp [hvalue, Except.toOption] at hmerged
  | ok r =>
    have ho : Solved stranded ⟨.onDemand, r.1, r.2.status⟩ := .onDemand 0 (by decide) hvalue
    obtain ⟨P, hpartition, hsound⟩ := (partition_sound hl (.inl rfl) 0 2).1 _ calls _ ho
    refine ⟨hl, calls, _, P, ho, hpartition, ?_, hsound⟩
    obtain rfl := Except.ok.inj hpartition
    simpa [hvalue, Except.toOption] using hmerged

end

end Game

end ProcessLogic
