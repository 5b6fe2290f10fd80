import ProcessLogic.Graph.Solution
import ProcessLogic.Proofs.Tally

/-!
# Presentations

A graph that is built on demand presents equations that are fixed from the start: each of its nodes
stands for one unknown, and still does when the graph has grown. Several nodes may stand for the
same unknown. A graph given in full presents the equations of its nodes.
-/

set_option autoImplicit false

namespace ProcessLogic

section

variable {α β : Type} {R : α → β → Prop} {as : List α} {bs : List β} {a : α} {b : β}

theorem exists_right_of_forall₂ (h : List.Forall₂ R as bs) (ha : a ∈ as) : ∃ b ∈ bs, R a b := by
  induction h with
  | nil => exact (List.not_mem_nil ha).elim
  | cons hab _ ih =>
    rcases List.mem_cons.mp ha with rfl | ha
    · exact ⟨_, List.mem_cons_self, hab⟩
    · obtain ⟨b, hb, hab⟩ := ih ha
      exact ⟨b, List.mem_cons_of_mem _ hb, hab⟩

theorem exists_left_of_forall₂ (h : List.Forall₂ R as bs) (hb : b ∈ bs) : ∃ a ∈ as, R a b :=
  exists_right_of_forall₂ (List.Forall₂.flip (R := flip R) h) hb

end

section

variable {ρ : Type}

/-- The nodes of a hyperedge stand for the given unknowns, in order. -/
def Stands (name : NodeId → Option ρ) (edge : Hyperedge) (unknowns : List ρ) : Prop :=
  edge.map name = unknowns.map some

/-- The hyperedges stand for the given lists of unknowns, in order. -/
def Spells (name : NodeId → Option ρ) (edges : List Hyperedge) (equation : List (List ρ)) : Prop :=
  List.Forall₂ (Stands name) edges equation

variable {name name' : NodeId → Option ρ} {edge : Hyperedge} {unknowns : List ρ}
  {edges : List Hyperedge} {equation : List (List ρ)} {node : NodeId} {r : ρ}

theorem Stands.nil : Stands name [] [] := rfl

theorem Stands.cons (h : name node = some r) (hs : Stands name edge unknowns) :
    Stands name (node :: edge) (r :: unknowns) := by
  unfold Stands at hs ⊢
  rw [List.map_cons, List.map_cons, h, hs]

theorem Stands.length_eq (h : Stands name edge unknowns) : edge.length = unknowns.length := by
  simpa using congrArg List.length h

theorem Stands.unknown_of_mem (h : Stands name edge unknowns) (hnode : node ∈ edge) :
    ∃ r ∈ unknowns, name node = some r := by
  have hmem : name node ∈ unknowns.map some := h ▸ List.mem_map_of_mem hnode
  obtain ⟨r, hr, heq⟩ := List.mem_map.mp hmem
  exact ⟨r, hr, heq.symm⟩

theorem Stands.node_of_mem (h : Stands name edge unknowns) (hr : r ∈ unknowns) :
    ∃ node ∈ edge, name node = some r := by
  have hmem : some r ∈ edge.map name := h ▸ List.mem_map_of_mem hr
  exact List.mem_map.mp hmem

theorem Stands.mono (hname : ∀ n r, name n = some r → name' n = some r)
    (h : Stands name edge unknowns) : Stands name' edge unknowns := by
  unfold Stands at h ⊢
  rw [← h]
  apply List.map_congr_left
  intro n hn
  obtain ⟨r, _, hr⟩ := Stands.unknown_of_mem h hn
  rw [hr, hname n r hr]

theorem Stands.forall₂ {β : Type} {R : ρ → β → Prop} {bs : List β}
    (hs : Stands name edge unknowns)
    (h : List.Forall₂ (fun n b => ∀ r, name n = some r → R r b) edge bs) :
    List.Forall₂ R unknowns bs := by
  induction h generalizing unknowns with
  | nil =>
    rw [List.map_eq_nil_iff.mp hs.symm]
    exact .nil
  | cons hnb _ ih =>
    cases unknowns with
    | nil => simp [Stands] at hs
    | cons r unknowns =>
      obtain ⟨hn, hrest⟩ := List.cons.inj hs
      exact .cons (hnb r hn) (ih hrest)

theorem Spells.mono (hname : ∀ n r, name n = some r → name' n = some r)
    (h : Spells name edges equation) : Spells name' edges equation :=
  List.Forall₂.imp (fun _ _ hs => hs.mono hname) h

theorem Spells.weight_eq (h : Spells name edges equation) : weight edges = weight equation := by
  induction h with
  | nil => rfl
  | cons hs _ ih => simp only [weight, hs.length_eq, ih]

theorem Spells.unknowns_of_mem (h : Spells name edges equation) (hedge : edge ∈ edges) :
    ∃ unknowns ∈ equation, Stands name edge unknowns :=
  exists_right_of_forall₂ h hedge

theorem Spells.edge_of_mem (h : Spells name edges equation) (hunknowns : unknowns ∈ equation) :
    ∃ edge ∈ edges, Stands name edge unknowns :=
  exists_left_of_forall₂ h hunknowns

/-- Nodes whose hyperedges spell equations are satisfied at the same stages as what they stand for. -/
theorem stage_iff_of_spells {nodes : Equations NodeId} {e : Equations ρ}
    (h : ∀ n q, name n = some q → Spells name (nodes n) (e q)) {k : Nat}
    (hnode : name node = some r) : Stage nodes k node ↔ Stage e k r := by
  induction k generalizing node r with
  | zero => exact Iff.rfl
  | succ k ih =>
    constructor
    · rintro ⟨edge, hedge, htargets⟩
      obtain ⟨us, hus, hstands⟩ := (h node r hnode).unknowns_of_mem hedge
      refine ⟨us, hus, fun q hq => ?_⟩
      obtain ⟨n, hn, hname⟩ := hstands.node_of_mem hq
      exact (ih hname).mp (htargets n hn)
    · rintro ⟨us, hus, hunknowns⟩
      obtain ⟨edge, hedge, hstands⟩ := (h node r hnode).edge_of_mem hus
      refine ⟨edge, hedge, fun n hn => ?_⟩
      obtain ⟨q, hq, hname⟩ := hstands.unknown_of_mem hn
      exact (ih hname).mpr (hunknowns q hq)

theorem satisfied_iff_of_spells {nodes : Equations NodeId} {e : Equations ρ}
    (h : ∀ n q, name n = some q → Spells name (nodes n) (e q)) (hnode : name node = some r) :
    Satisfied nodes node ↔ Satisfied e r := by
  rw [satisfied_iff_exists_stage, satisfied_iff_exists_stage]
  exact exists_congr fun k => stage_iff_of_spells h hnode

end

theorem Snapshot.lt_size_of_mem_equations {s : Snapshot} {node : NodeId} {edge : Hyperedge}
    (h : edge ∈ s.equations node) : node < s.size := by
  by_contra hnode
  rw [Snapshot.equations, Array.getElem?_eq_none (Nat.le_of_not_lt hnode)] at h
  simp at h

/-- What a graph says about fixed equations while it is built. -/
structure Presentation (γ : Type) [Hypergraph γ] (ρ : Type) where
  equations : Equations ρ
  /-- Holds of the graph at the start, and is kept when it grows. -/
  Lawful : γ → Prop
  /-- The unknown that a node stands for. -/
  name : γ → NodeId → Option ρ
  bound : Nat
  searchBound_eq : ∀ {g}, Lawful g → Hypergraph.searchBound g = bound
  lt_size : ∀ {g node r}, Lawful g → name g node = some r → node < Hypergraph.size g
  hyperedges_value : ∀ {g node r}, Lawful g → name g node = some r →
    ∃ g' edges, (Hypergraph.hyperedges g node).value = .ok (g', edges) ∧ Lawful g' ∧
      (∀ n q, name g n = some q → name g' n = some q) ∧ Spells (name g') edges (equations r)
  /-- The bound covers all hyperedges of any distinct nodes. -/
  weight_le : ∀ {g} {named : List (NodeId × ρ)}, Lawful g → (named.map Prod.fst).Nodup →
    (∀ p ∈ named, name g p.1 = some p.2) → (named.map fun p => weight (equations p.2)).sum ≤ bound

namespace Graph

variable {g : Graph}

def nodeName (g : Graph) (node : NodeId) : Option NodeId :=
  if node < g.size then some node else none

theorem nodeName_eq_some_iff {node r : NodeId} :
    g.nodeName node = some r ↔ node < g.size ∧ r = node := by
  unfold nodeName
  split
  · next h => simp [h, eq_comm]
  · next h => simp [h]

theorem hyperedges_eq {node : NodeId} (h : node < g.size) :
    g.hyperedges node = .ok (g.nodes.equations node) := by
  have hrow : g.nodes[node]? = some g.nodes[node] := Array.getElem?_eq_getElem h
  rw [hyperedges, Table.fetch_eq_ok_iff.mpr hrow, Snapshot.equations, hrow]
  rfl

theorem spells_equations (hg : g.nodes.InRange) (node : NodeId) :
    Spells g.nodeName (g.nodes.equations node) (g.nodes.equations node) := by
  apply List.forall₂_same.mpr
  intro edge hedge
  apply List.map_congr_left
  intro target htarget
  exact nodeName_eq_some_iff.mpr ⟨hg node edge hedge target htarget, rfl⟩

theorem weight_equations_le {named : List (NodeId × NodeId)} (hnodup : (named.map Prod.fst).Nodup)
    (hnamed : ∀ p ∈ named, g.nodeName p.1 = some p.2) :
    (named.map fun p => weight (g.nodes.equations p.2)).sum ≤ g.nodes.weight := by
  have hmap : named.map (fun p => weight (g.nodes.equations p.2)) =
      (named.map Prod.fst).map fun n => weight (g.nodes.equations n) := by
    rw [List.map_map]
    apply List.map_congr_left
    intro p hp
    simp [(nodeName_eq_some_iff.mp (hnamed p hp)).2]
  have hsub : named.map Prod.fst ⊆ List.range g.size := by
    intro n hn
    obtain ⟨p, hp, rfl⟩ := List.mem_map.mp hn
    exact List.mem_range.mpr (nodeName_eq_some_iff.mp (hnamed p hp)).1
  rw [hmap, Snapshot.weight, Table.total_eq_sum_range _ _ ([] : List Hyperedge)]
  exact sum_map_le_of_subset (fun n => weight (g.nodes.equations n)) hnodup hsub

/-- A graph in which every target exists presents the equations of its nodes. -/
def presentation (g : Graph) (hg : g.nodes.InRange) : Presentation Graph NodeId where
  equations := g.nodes.equations
  Lawful := fun h => h = g
  name := nodeName
  bound := g.nodes.weight
  searchBound_eq := by
    rintro _ rfl
    rfl
  lt_size := by
    rintro _ node r rfl h
    exact (nodeName_eq_some_iff.mp h).1
  hyperedges_value := by
    rintro _ node r rfl h
    obtain ⟨hlt, rfl⟩ := nodeName_eq_some_iff.mp h
    refine ⟨_, _, ?_, rfl, fun _ _ hn => hn, spells_equations hg r⟩
    show Run.value (do pure (_, ← (hyperedges _ r : Except Fault (List Hyperedge)))) = _
    rw [hyperedges_eq hlt]
    rfl
  weight_le := by
    rintro _ named rfl hnodup hnamed
    exact weight_equations_le hnodup hnamed

end Graph

end ProcessLogic
