import ProcessLogic.Proofs.Graph.NodeTable

/-!
# Unfoldings present their systems

The unfolding of a system presents the system's equations, whether its nodes are built one by one
as a search asks for them, or all at once.
-/

set_option autoImplicit false

namespace ProcessLogic

namespace Unfolding

variable {ρ : Type} {S : System ρ} {T : S.Theory} {nodes : NodeTable ρ} {node : NodeId} {r : ρ}

theorem name_lt_size (h : nodes.name node = some r) : node < nodes.rows.size := by
  obtain ⟨row, hrow, -⟩ := NodeTable.name_eq_some_iff.mp h
  exact (Array.getElem?_eq_some_iff.mp hrow).1

theorem exists_name (h : node < nodes.rows.size) : ∃ q, nodes.name node = some q :=
  ⟨nodes.rows[node].record, by simp [NodeTable.name, h]⟩

/-- A snapshot of a faithful table spells the equations, so all its targets exist. -/
theorem inRange_and_spells {s : Snapshot} (h : nodes.Faithful T T.surplus)
    (hsize : s.size = nodes.rows.size)
    (hrows : ∀ (n : NodeId) (q : ρ), nodes.name n = some q →
      nodes.rows[n]? = some ⟨q, some (s.equations n)⟩) :
    s.InRange ∧
      ∀ n q, nodes.name n = some q → Spells nodes.name (s.equations n) (T.equations q) := by
  have hspells : ∀ n q, nodes.name n = some q →
      Spells nodes.name (s.equations n) (T.equations q) :=
    fun n q hn => h.spelled n _ _ (hrows n q hn) rfl
  refine ⟨?_, hspells⟩
  intro n edge hedge target htarget
  have hn : n < nodes.rows.size := hsize ▸ Snapshot.lt_size_of_mem_equations hedge
  have hname : nodes.name n = some nodes.rows[n].record := by simp [NodeTable.name, hn]
  obtain ⟨us, -, hstands⟩ := (hspells n _ hname).unknowns_of_mem hedge
  obtain ⟨q, -, hq⟩ := hstands.unknown_of_mem htarget
  exact hsize ▸ name_lt_size hq

variable [DecidableEq ρ]

/-- The first node of a new unfolding stands for its record. -/
theorem faithful_ofRoot (T : S.Theory) (hr : T.Occurs r) (hkey : (S.key? r).isSome = true) :
    (ofRoot S r).nodes.Faithful T 0 ∧ (ofRoot S r).nodes.name root = some r := by
  obtain ⟨hfaithful, -⟩ := (NodeTable.faithful_empty T).intern hr
  have hname := NodeTable.name_intern {} (S.key? r) r
  have hprice : T.price r = 0 := if_pos hkey
  have hfirst : (({} : NodeTable ρ).intern (S.key? r) r).2 = root := by
    obtain ⟨key, hkey⟩ := Option.isSome_iff_exists.mp hkey
    rw [hkey]
    rfl
  rw [hprice] at hfaithful
  rw [hfirst] at hname
  exact ⟨hfaithful, hname⟩

/-- Asking for the hyperedges of a node builds it. -/
theorem hyperedges_value (h : nodes.Faithful T T.surplus) (hnode : nodes.name node = some r) :
    ∃ nodes' edges, (hyperedges ⟨S, nodes⟩ node).value = .ok (⟨S, nodes'⟩, edges) ∧
      nodes'.Faithful T T.surplus ∧ nodes.Grows nodes' ∧
      nodes'.rows[node]? = some ⟨r, some edges⟩ := by
  obtain ⟨⟨q, built⟩, hrow, rfl⟩ := NodeTable.name_eq_some_iff.mp hnode
  have hfetch : (liftM (nodes.rows.fetch node) : Run (Node ρ)).value = .ok ⟨q, built⟩ :=
    Table.fetch_eq_ok_iff.mpr hrow
  have hq : T.Occurs q := h.occurs node _ hrow
  unfold hyperedges
  rw [Run.value_bind_of_ok hfetch]
  cases built with
  | some edges => exact ⟨nodes, edges, rfl, h, .refl nodes, hrow⟩
  | none =>
    have hequation := T.equation_value hq
    obtain ⟨hinterned, hext, hspells⟩ := h.internEdges fun us hus q' hq' =>
      T.occurs_of_mem hq hus hq'
    have hrow' := hext node _ hrow
    have hcost := T.allowance_le hq
    have hstored := hinterned.store hrow' hspells hcost
    refine ⟨_, (nodes.internEdges S.key? (T.equations q)).2, ?_, hstored,
      hext.grows.trans (NodeTable.grows_store hrow'),
      (NodeTable.getElem?_store hrow' node).trans (if_pos rfl)⟩
    show (Run.report _ >>= _).value = _
    rw [Run.value_bind_of_ok (Run.value_report _)]
    show (S.equation q >>= _).value = _
    rw [Run.value_bind_of_ok hequation]
    have hstore : (liftM ((nodes.internEdges S.key? (T.equations q)).1.store node
        (nodes.internEdges S.key? (T.equations q)).2) : Run (NodeTable ρ)).value = .ok _ :=
      NodeTable.store_eq hrow'
    exact Run.value_bind_of_ok hstore _

variable (T) in
/-- An unfolding of a system presents the equations of the system's records. -/
def presentation : Presentation (Unfolding ρ) ρ where
  equations := T.equations
  Lawful := fun u => u.system = S ∧ u.nodes.Faithful T T.surplus
  name := fun u => u.nodes.name
  bound := S.capacity * S.width
  searchBound_eq := by
    rintro u ⟨rfl, -⟩
    rfl
  lt_size := fun _ hname => name_lt_size hname
  hyperedges_value := by
    rintro ⟨_, nodes⟩ node r ⟨rfl, h⟩ hname
    obtain ⟨nodes', edges, hvalue, h', hgrow, hrow⟩ := hyperedges_value h hname
    exact ⟨_, edges, hvalue, ⟨rfl, h'⟩, hgrow.name, h'.spelled node _ edges hrow rfl⟩
  weight_le := by
    rintro ⟨_, nodes⟩ named ⟨rfl, h⟩ hnodup hnamed
    have hoccurs : ∀ p ∈ named, T.Occurs p.2 := by
      intro p hp
      obtain ⟨row, hrow, hrecord⟩ := NodeTable.name_eq_some_iff.mp (hnamed p hp)
      exact hrecord ▸ h.occurs p.1 row hrow
    have hsub : named.map Prod.fst ⊆ List.range nodes.rows.size := by
      intro n hn
      obtain ⟨p, hp, rfl⟩ := List.mem_map.mp hn
      exact List.mem_range.mpr (name_lt_size (hnamed p hp))
    have hcount : named.length ≤ nodes.rows.size := by
      simpa using hnodup.length_le_of_subset hsub
    have hsum := List.sum_le_card_nsmul (named.map fun p => weight (T.equations p.2)) _ (by
      intro w hw
      obtain ⟨p, hp, rfl⟩ := List.mem_map.mp hw
      exact T.weight_le (hoccurs p hp))
    rw [List.length_map, smul_eq_mul] at hsum
    exact hsum.trans (Nat.mul_le_mul_right _ (hcount.trans h.size_le))

theorem hyperedges_built {edges : List Hyperedge}
    (hrow : nodes.rows[node]? = some ⟨r, some edges⟩) :
    (hyperedges ⟨S, nodes⟩ node).value = .ok (⟨S, nodes⟩, edges) := by
  have hfetch : (liftM (nodes.rows.fetch node) : Run (Node ρ)).value = .ok ⟨r, some edges⟩ :=
    Table.fetch_eq_ok_iff.mpr hrow
  unfold hyperedges
  rw [Run.value_bind_of_ok hfetch]
  rfl

omit [DecidableEq ρ] in
theorem Construction.isDone_iff {next : NodeId} {t : NodeTable ρ} :
    (⟨next, ⟨S, t⟩⟩ : Construction ρ).isDone = true ↔ t.rows.size ≤ next :=
  decide_eq_true_iff

/-- The table has grown from `nodes`, and all nodes before `next` are built. -/
structure BuiltTo (T : S.Theory) (nodes : NodeTable ρ) (next : NodeId) (t : NodeTable ρ) :
    Prop where
  faithful : t.Faithful T T.surplus
  grown : nodes.Grows t
  built : ∀ (n : NodeId), n < next → ∃ r edges, t.rows[n]? = some ⟨r, some edges⟩

theorem BuiltTo.step {next : NodeId} {t : NodeTable ρ} (h : BuiltTo T nodes next t)
    (hnext : next < t.rows.size) :
    ∃ t', (Construction.step ⟨next, ⟨S, t⟩⟩).value = .ok ⟨next + 1, ⟨S, t'⟩⟩ ∧
      BuiltTo T nodes (next + 1) t' := by
  have hname : t.name next = some t.rows[next].record := by
    simp [NodeTable.name, hnext]
  obtain ⟨t', edges, hvalue, hfaithful, hgrow, hrow⟩ := hyperedges_value h.faithful hname
  refine ⟨t', ?_, hfaithful, h.grown.trans hgrow, ?_⟩
  · rw [Construction.step, Run.value_bind_of_ok hvalue]
    rfl
  · intro n hn
    by_cases heq : n = next
    · subst heq
      exact ⟨_, edges, hrow⟩
    · have hlt : n < next := Nat.lt_of_le_of_ne (Nat.le_of_lt_succ hn) heq
      obtain ⟨q, es, hn⟩ := h.built n hlt
      exact ⟨q, es, hgrow.built n _ hn rfl⟩

theorem build_value (h : nodes.Faithful T T.surplus) :
    ∃ t next, (build ⟨S, nodes⟩).value = .ok ⟨S, t⟩ ∧ BuiltTo T nodes next t ∧
      t.rows.size ≤ next := by
  have hstart : BuiltTo T nodes 0 nodes :=
    ⟨h, .refl nodes, fun n hn => absurd hn (Nat.not_lt_zero n)⟩
  -- each step builds one more node, and the capacity bounds how many there are
  obtain ⟨c, hvalue, ⟨next, t, rfl, ht⟩, hdone⟩ := Run.iterate_ends
    (fun c : Construction ρ => ∃ next t, c = ⟨next, ⟨S, t⟩⟩ ∧ BuiltTo T nodes next t)
    (fun c => S.capacity - c.next)
    (by
      rintro _ ⟨next, t, rfl, ht⟩ hdone
      have hnext : next < t.rows.size := by
        rw [← Bool.not_eq_true, Construction.isDone_iff] at hdone
        exact Nat.lt_of_not_le hdone
      have hcapacity : next < S.capacity := hnext.trans_le ht.faithful.size_le
      obtain ⟨t', hstep, ht'⟩ := ht.step hnext
      exact ⟨_, hstep, ⟨next + 1, t', rfl, ht'⟩, Nat.sub_succ_lt_self _ _ hcapacity⟩)
    ⟨0, nodes, rfl, hstart⟩ (Nat.le_succ_of_le (Nat.sub_le S.capacity 0))
  refine ⟨t, next, ?_, ht, Construction.isDone_iff.mp hdone⟩
  rw [build, Run.value_bind_of_ok hvalue, if_pos hdone]
  rfl

/-- Taking a snapshot builds every node; its rows are the hyperedges of the nodes. -/
theorem snapshot_value (h : nodes.Faithful T T.surplus) :
    ∃ t s, (snapshot ⟨S, nodes⟩).value = .ok (⟨S, t⟩, s) ∧ t.Faithful T T.surplus ∧
      nodes.Grows t ∧ s.size = t.rows.size ∧
      ∀ (n : NodeId) (q : ρ), t.name n = some q → t.rows[n]? = some ⟨q, some (s.equations n)⟩ := by
  obtain ⟨t, next, hbuild, ht, hsize⟩ := build_value h
  refine ⟨t, t.rows.map fun n => n.edges.getD [], ?_, ht.faithful, ht.grown, Array.size_map, ?_⟩
  · rw [snapshot, Run.value_bind_of_ok hbuild]
    rfl
  · intro n q hn
    obtain ⟨row, hrow, rfl⟩ := NodeTable.name_eq_some_iff.mp hn
    obtain ⟨r, edges, hbuilt⟩ := ht.built n ((name_lt_size hn).trans_le hsize)
    rw [hrow] at hbuilt
    obtain rfl := Option.some.inj hbuilt
    simp [Snapshot.equations, hrow]

/-- What an unfolding becomes when one of its nodes is asked for its hyperedges. -/
def Asks (u u' : Unfolding ρ) : Prop :=
  ∃ node edges, node < u.size ∧ (u.hyperedges node).value = .ok (u', edges)

theorem lawful_of_asks {u u' : Unfolding ρ} (h : (presentation T).Lawful u)
    (hasks : Relation.ReflTransGen Asks u u') : (presentation T).Lawful u' := by
  induction hasks with
  | refl => exact h
  | tail _ hask ih =>
    obtain ⟨node, edges, hnode, hvalue⟩ := hask
    obtain ⟨q, hq⟩ := exists_name hnode
    obtain ⟨v, edges', hvalue', hlawful, -⟩ := (presentation T).hyperedges_value ih hq
    obtain ⟨rfl, -⟩ := Prod.mk.inj (Except.ok.inj (hvalue.symm.trans hvalue'))
    exact hlawful

end Unfolding

end ProcessLogic
