import ProcessLogic.Proofs.Formula.Satisfaction
import ProcessLogic.Proofs.Game.Bisimulation
import ProcessLogic.Proofs.Game.Inclusion
import ProcessLogic.Proofs.Marking.Exhaustive

/-!
# Unfoldings built in full

An unfolding grows while its nodes are built, but the nodes it can have are bounded, so building
all of them ends. After that every target is a node that is built already: nothing that is asked
later adds a node or gets another answer.
-/

set_option autoImplicit false

namespace ProcessLogic

namespace Unfolding

variable {ρ : Type} [DecidableEq ρ] {S : System ρ} {T : S.Theory} {nodes : NodeTable ρ}

/-- The snapshot shows all that the unfolding is and will be. -/
structure Closed (u : Unfolding ρ) (s : Snapshot) : Prop where
  /-- The rows are those of the nodes, in order. -/
  rows : s.enumerate.map Prod.fst = List.range u.size
  targets : ∀ row ∈ s.enumerate, ∀ edge ∈ row.2, ∀ target ∈ edge, target < u.size
  /-- Whatever is asked adds no node, and each node answers with its row. -/
  later : ∀ u', Relation.ReflTransGen Asks u u' → u'.size = u.size ∧
    ∀ row ∈ s.enumerate, (u'.hyperedges row.1).value = .ok (u', row.2)

/-- All nodes can be built, and the solvers that begin with this end. -/
structure Completes (u : Unfolding ρ) : Prop where
  snapshot : ∃ u' s, u.snapshot.value = .ok (u', s) ∧ u'.Closed s
  solveAll : ∃ u' m, (ProcessLogic.solveAll u).value = .ok (u', m)
  solveLevels : ∃ u' m, (ProcessLogic.solveLevels u).value = .ok (u', m)

/-- Where every node is built, asking changes nothing. -/
theorem eq_of_asks {u u' : Unfolding ρ}
    (hbuilt : ∀ node, node < u.size → ∃ edges, (u.hyperedges node).value = .ok (u, edges))
    (h : Relation.ReflTransGen Asks u u') : u' = u := by
  induction h with
  | refl => rfl
  | tail _ hask ih =>
    obtain ⟨node, edges, hnode, hvalue⟩ := hask
    rw [ih] at hnode hvalue
    obtain ⟨edges', hvalue'⟩ := hbuilt node hnode
    exact (Prod.mk.inj (Except.ok.inj (hvalue.symm.trans hvalue'))).1

theorem closed_of_built {s : Snapshot} (h : nodes.Faithful T T.surplus)
    (hsize : s.size = nodes.rows.size)
    (hrows : ∀ (n : NodeId) (q : ρ), nodes.name n = some q →
      nodes.rows[n]? = some ⟨q, some (s.equations n)⟩) :
    Closed ⟨S, nodes⟩ s := by
  have hbuilt : ∀ node, node < nodes.rows.size →
      (hyperedges ⟨S, nodes⟩ node).value = .ok (⟨S, nodes⟩, s.equations node) := by
    intro node hnode
    obtain ⟨q, hq⟩ := exists_name hnode
    exact hyperedges_built (hrows node q hq)
  have hrow : ∀ row ∈ s.enumerate, row.1 < nodes.rows.size ∧ s.equations row.1 = row.2 := by
    intro row hmem
    have hget := Table.mem_enumerate.mp hmem
    refine ⟨hsize ▸ (Array.getElem?_eq_some_iff.mp hget).1, ?_⟩
    rw [Snapshot.equations, hget]
    rfl
  refine ⟨?_, ?_, ?_⟩
  · rw [Table.enumerate, List.map_fst_zip (by simp [Table.indexes]), Table.indexes, hsize]
    rfl
  · intro row hmem edge hedge target htarget
    rw [← (hrow row hmem).2] at hedge
    have hlt := (inRange_and_spells h hsize hrows).1 row.1 edge hedge target htarget
    exact Nat.lt_of_lt_of_eq hlt hsize
  · intro u' hasks
    obtain rfl := eq_of_asks (fun node hnode => ⟨_, hbuilt node hnode⟩) hasks
    refine ⟨rfl, fun row hmem => ?_⟩
    obtain ⟨hnode, hedges⟩ := hrow row hmem
    rw [← hedges]
    exact hbuilt row.1 hnode

theorem completes_of_lawful {u : Unfolding ρ} (h : (presentation T).Lawful u) : u.Completes := by
  rcases u with ⟨_, nodes⟩
  obtain ⟨rfl, h⟩ := h
  obtain ⟨t, s, hsnapshot, hfaithful, -, hsize, hrows⟩ := snapshot_value h
  obtain ⟨t₁, m₁, hall, -⟩ := solveAll_value h
  obtain ⟨t₂, m₂, hlevels, -⟩ := solveLevels_value h
  exact ⟨⟨_, s, hsnapshot, closed_of_built hfaithful hsize hrows⟩, ⟨_, m₁, hall⟩, ⟨_, m₂, hlevels⟩⟩

/-- What was asked before does not matter. -/
theorem completes_of_asks {u u' : Unfolding ρ} (h : (presentation T).Lawful u)
    (hasks : Relation.ReflTransGen Asks u u') : u'.Completes :=
  completes_of_lawful (lawful_of_asks h hasks)

end Unfolding

section

variable {l : Lts} {p q s : StateId} {f : Formula} {d : Definitions}

/-- The games, chases and formula searches of a system can be built in full at any time. -/
theorem unfoldings_complete (hl : l.InRange) (hp : p < l.stateCount) (hq : q < l.stateCount)
    (attack defend : Strength) (hf : f.definitions = .ok d) (hs : s < l.stateCount)
    (reading : Strength → Strength) (kind : Extremum) :
    (∀ u, Relation.ReflTransGen Unfolding.Asks
        (Game.ofPair (l.generator attack) (l.generator defend) p q) u → u.Completes) ∧
      (∀ u, Relation.ReflTransGen Unfolding.Asks
        (Chase.ofPair (l.generator attack) (l.generator defend) p q) u → u.Completes) ∧
      ∀ u, Relation.ReflTransGen Unfolding.Asks ((l.modelBy reading d).unfold kind s f) u →
        u.Completes := by
  refine ⟨?_, ?_, ?_⟩
  · intro u hasks
    have hoccurs : (gameTheory hl attack defend).Occurs (.pair p q) := ⟨hp, hq⟩
    obtain ⟨hfaithful, -⟩ := Unfolding.faithful_ofRoot _ hoccurs rfl
    exact Unfolding.completes_of_asks (T := gameTheory hl attack defend) ⟨rfl, hfaithful⟩ hasks
  · intro u hasks
    have hoccurs : (pursuitTheory hl attack defend).Occurs ⟨p, [q]⟩ := Pursuit.occurs_start hp hq
    obtain ⟨hfaithful, -⟩ := Unfolding.faithful_ofRoot _ hoccurs rfl
    exact Unfolding.completes_of_asks (T := pursuitTheory hl attack defend) ⟨rfl, hfaithful⟩ hasks
  · intro u hasks
    obtain ⟨-, hscoped, hclosed⟩ := Formula.definitions_spec hf
    have hsettle := settles_depth hl hf reading kind fun _ _ => False
    exact Unfolding.completes_of_asks
      (T := queryTheory reading (meaning l reading kind fun _ _ => False) hl hscoped hclosed
        hsettle s)
      ⟨rfl, faithful_firstNodes hl hscoped hclosed hsettle hs⟩ hasks

theorem unfoldings_complete_hesitant :
    Lts.hesitant.InRange ∧ 0 < Lts.hesitant.stateCount ∧ 2 < Lts.hesitant.stateCount ∧
      alwaysReady.definitions = .ok [("X", alwaysReady), ("Y", ready)] ∧
      (∀ u, Relation.ReflTransGen Unfolding.Asks
        (Game.ofPair (Lts.hesitant.generator .strong) (Lts.hesitant.generator .weak) 0 2) u →
          u.Completes) ∧
      (∀ u, Relation.ReflTransGen Unfolding.Asks
        (Chase.ofPair (Lts.hesitant.generator .strong) (Lts.hesitant.generator .weak) 0 2) u →
          u.Completes) ∧
      ∀ u, Relation.ReflTransGen Unfolding.Asks
        ((Lts.hesitant.modelBy id [("X", alwaysReady), ("Y", ready)]).unfold .greatest 0
          alwaysReady) u → u.Completes :=
  ⟨by decide, by decide, by decide, rfl,
    unfoldings_complete (by decide) (by decide) (by decide) .strong .weak rfl (by decide) id
      .greatest⟩

end

end ProcessLogic
