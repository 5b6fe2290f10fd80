import ProcessLogic.Graph.Unfolding
import ProcessLogic.Proofs.Graph.Presentation

/-!
# Faithful node tables

The hyperedges stored in a table are those of the records, a shared record has one node, and the
number of nodes is accounted for: a record that is not shared is paid for by the node whose
hyperedges mention it, a shared one pays for itself.
-/

set_option autoImplicit false

namespace ProcessLogic

/-- What the records of a system mean, and how many nodes they can lead to. -/
structure System.Theory {ρ : Type} (S : System ρ) where
  equations : Equations ρ
  /-- Holds of every record that can occur. -/
  Occurs : ρ → Prop
  /-- Bounds the nodes below a record, up to the next shared records, with its own node. -/
  allowance : ρ → Nat
  /-- The shared records that can occur. -/
  shared : List ρ
  /-- Pays for nodes that no other node pays for. -/
  surplus : Nat
  equation_value : ∀ {r}, Occurs r → (S.equation r).value = .ok (equations r)
  occurs_of_mem : ∀ {r us q}, Occurs r → us ∈ equations r → q ∈ us → Occurs q
  weight_le : ∀ {r}, Occurs r → weight (equations r) ≤ S.width
  allowance_le : ∀ {r}, Occurs r →
    ((equations r).flatten.map fun q => if (S.key? q).isSome then 0 else allowance q).sum + 1 ≤
      allowance r
  mem_shared : ∀ {r}, Occurs r → (S.key? r).isSome → r ∈ shared
  capacity_le : surplus + (shared.map allowance).sum ≤ S.capacity

variable {ρ : Type} {S : System ρ}

namespace System.Theory

/-- What a record costs the node that mentions it. -/
def price (T : S.Theory) (r : ρ) : Nat := if (S.key? r).isSome then 0 else T.allowance r

def rowCost (T : S.Theory) (row : Node ρ) : Nat :=
  if row.edges.isSome then 1 else T.allowance row.record

theorem one_le_allowance (T : S.Theory) {r : ρ} (hr : T.Occurs r) : 1 ≤ T.allowance r := by
  have h := T.allowance_le hr
  omega

theorem one_le_rowCost (T : S.Theory) {row : Node ρ} (hr : T.Occurs row.record) :
    1 ≤ T.rowCost row := by
  unfold rowCost
  split
  · exact Nat.le_refl 1
  · exact T.one_le_allowance hr

theorem rowCost_le_allowance (T : S.Theory) {row : Node ρ} (hr : T.Occurs row.record) :
    T.rowCost row ≤ T.allowance row.record := by
  unfold rowCost
  split
  · exact T.one_le_allowance hr
  · exact Nat.le_refl _

end System.Theory

namespace NodeTable

def sharedRecords (S : System ρ) (t : NodeTable ρ) : List ρ :=
  (t.rows.toList.map (·.record)).filter fun r => (S.key? r).isSome

/-- Rows stay as they are, and new ones may follow. -/
def Extends (t t' : NodeTable ρ) : Prop :=
  ∀ (n : NodeId) (row : Node ρ), t.rows[n]? = some row → t'.rows[n]? = some row

/-- Nodes keep their records, and their hyperedges once these are built. -/
structure Grows (t t' : NodeTable ρ) : Prop where
  name : ∀ n q, t.name n = some q → t'.name n = some q
  built : ∀ (n : NodeId) (row : Node ρ), t.rows[n]? = some row → row.edges.isSome = true →
    t'.rows[n]? = some row

/-- The table says the truth about the records. The nodes are paid for by the shared records and by
`credit`. -/
structure Faithful (T : S.Theory) (credit : Nat) (t : NodeTable ρ) : Prop where
  occurs : ∀ (n : NodeId) (row : Node ρ), t.rows[n]? = some row → T.Occurs row.record
  spelled : ∀ (n : NodeId) (row : Node ρ) (edges : List Hyperedge), t.rows[n]? = some row →
    row.edges = some edges → Spells t.name edges (T.equations row.record)
  filed : ∀ (n : NodeId) (row : Node ρ) (key : Nat), t.rows[n]? = some row →
    S.key? row.record = some key → n ∈ t.index.under key
  distinct : (t.sharedRecords S).Nodup
  paid : t.rows.total T.rowCost ≤ credit + ((t.sharedRecords S).map T.allowance).sum

variable {T : S.Theory} {credit : Nat} {t t' t'' : NodeTable ρ} {node : NodeId} {r : ρ}

theorem name_eq_some_iff : t.name node = some r ↔ ∃ row, t.rows[node]? = some row ∧ row.record = r :=
  Option.map_eq_some_iff

theorem record_of_name (h : t.name node = some r) : t.record node = .ok r := by
  obtain ⟨row, hrow, rfl⟩ := name_eq_some_iff.mp h
  rw [record, Table.fetch_eq_ok_iff.mpr hrow]
  rfl

theorem Extends.refl (t : NodeTable ρ) : Extends t t := fun _ _ h => h

theorem Extends.trans (h : Extends t t') (h' : Extends t' t'') : Extends t t'' :=
  fun n row hn => h' n row (h n row hn)

theorem Extends.name (h : Extends t t') : ∀ n q, t.name n = some q → t'.name n = some q := by
  intro n q hn
  obtain ⟨row, hrow, hq⟩ := name_eq_some_iff.mp hn
  exact name_eq_some_iff.mpr ⟨row, h n row hrow, hq⟩

theorem Extends.grows (h : Extends t t') : Grows t t' := ⟨h.name, fun n row hn _ => h n row hn⟩

theorem Grows.refl (t : NodeTable ρ) : Grows t t := (Extends.refl t).grows

theorem Grows.trans (h : Grows t t') (h' : Grows t' t'') : Grows t t'' where
  name := fun n q hn => h'.name n q (h.name n q hn)
  built := fun n row hn hbuilt => h'.built n row (h.built n row hn hbuilt) hbuilt

theorem mem_sharedRecords : r ∈ t.sharedRecords S ↔ (∃ n, t.name n = some r) ∧ (S.key? r).isSome := by
  unfold sharedRecords
  rw [List.mem_filter]
  apply and_congr_left
  intro _
  constructor
  · intro h
    obtain ⟨row, hrow, rfl⟩ := List.mem_map.mp h
    obtain ⟨n, hn⟩ := List.mem_iff_getElem?.mp hrow
    exact ⟨n, name_eq_some_iff.mpr ⟨row, by simpa using hn, rfl⟩⟩
  · rintro ⟨n, hn⟩
    obtain ⟨row, hrow, rfl⟩ := name_eq_some_iff.mp hn
    exact List.mem_map_of_mem (Array.mem_toList_iff.mpr (Array.mem_of_getElem? hrow))

/-- A shared record has one node. -/
theorem Faithful.node_unique {m n : NodeId} (h : Faithful T credit t)
    (hkey : (S.key? r).isSome = true) (hm : t.name m = some r) (hn : t.name n = some r) :
    m = n := by
  have hlt : ∀ {i j : NodeId}, t.name i = some r → t.name j = some r → ¬ i < j := by
    intro i j hi hj hij
    obtain ⟨row, hrow, hrecord⟩ := name_eq_some_iff.mp hi
    obtain ⟨row', hrow', hrecord'⟩ := name_eq_some_iff.mp hj
    obtain ⟨hi, hrowi⟩ := Array.getElem?_eq_some_iff.mp hrow
    obtain ⟨hj, hrowj⟩ := Array.getElem?_eq_some_iff.mp hrow'
    have htwice : [r, r].Sublist (t.rows.toList.map (·.record)) := by
      apply List.duplicate_iff_sublist.mp
      apply List.duplicate_iff_exists_distinct_get.mpr
      refine ⟨⟨i, by simpa using hi⟩, ⟨j, by simpa using hj⟩, hij, ?_, ?_⟩
      · simp [hrowi, hrecord]
      · simp [hrowj, hrecord']
    have hshared := htwice.filter fun q => (S.key? q).isSome
    simp only [List.filter_cons, hkey, if_true, List.filter_nil] at hshared
    exact List.nodup_iff_sublist.mp h.distinct r hshared
  exact Nat.le_antisymm (Nat.le_of_not_lt (hlt hn hm)) (Nat.le_of_not_lt (hlt hm hn))

/-- The nodes of a faithful table are within the capacity of the system. -/
theorem Faithful.size_le (h : Faithful T T.surplus t) : t.rows.size ≤ S.capacity := by
  have hcount : t.rows.size ≤ t.rows.total T.rowCost := by
    rw [Table.total_eq_sum, ← Array.length_toList, ← List.length_map T.rowCost]
    apply List.length_le_sum_of_one_le
    intro c hc
    obtain ⟨row, hrow, rfl⟩ := List.mem_map.mp hc
    obtain ⟨n, hn⟩ := List.mem_iff_getElem?.mp hrow
    exact T.one_le_rowCost (h.occurs n row (by simpa using hn))
  have hsub : t.sharedRecords S ⊆ T.shared := by
    intro r hr
    obtain ⟨⟨n, hn⟩, hkey⟩ := mem_sharedRecords.mp hr
    obtain ⟨row, hrow, rfl⟩ := name_eq_some_iff.mp hn
    exact T.mem_shared (h.occurs n row hrow) hkey
  have hshared := sum_map_le_of_subset T.allowance h.distinct hsub
  have hpaid := h.paid
  have hcapacity := T.capacity_le
  omega

theorem faithful_empty (T : S.Theory) : Faithful T 0 ({} : NodeTable ρ) where
  occurs := by simp
  spelled := by simp
  filed := by simp
  distinct := by simp [sharedRecords]
  paid := by simp [Table.total]

theorem add_eq (t : NodeTable ρ) (r : ρ) :
    t.add r = (⟨t.rows.push ⟨r, none⟩, t.index⟩, t.rows.size) := rfl

theorem addBuilt_eq (t : NodeTable ρ) (r : ρ) (edges : List Hyperedge) :
    t.addBuilt r edges = (⟨t.rows.push ⟨r, some edges⟩, t.index⟩, t.rows.size) := rfl

theorem file_eq (t : NodeTable ρ) (key : Nat) (r : ρ) :
    t.file key r =
      (⟨t.rows.push ⟨r, none⟩, t.index.file key t.rows.size⟩, t.rows.size) := rfl

theorem extends_push (row : Node ρ) (index : Index) :
    Extends t ⟨t.rows.push row, index⟩ := by
  intro n row' hn
  have hlt : n < t.rows.size := (Array.getElem?_eq_some_iff.mp hn).1
  have hne : n ≠ t.rows.size := Nat.ne_of_lt hlt
  show (t.rows.push row)[n]? = some row'
  rw [Array.getElem?_push, if_neg hne, hn]

theorem name_push (row : Node ρ) (index : Index) :
    (⟨t.rows.push row, index⟩ : NodeTable ρ).name t.rows.size = some row.record := by
  simp [name]

theorem sharedRecords_push (row : Node ρ) (index : Index) :
    sharedRecords S ⟨t.rows.push row, index⟩ =
      t.sharedRecords S ++ if (S.key? row.record).isSome then [row.record] else [] := by
  simp only [sharedRecords, Array.toList_push, List.map_append, List.map_cons, List.map_nil,
    List.filter_append, List.filter_singleton, Bool.cond_eq_ite]

theorem getElem?_push_eq_some {rows : Array (Node ρ)} {row row' : Node ρ} {n : NodeId}
    (h : (rows.push row)[n]? = some row') : n = rows.size ∧ row' = row ∨ rows[n]? = some row' := by
  rw [Array.getElem?_push] at h
  split at h
  · next heq => exact .inl ⟨heq, (Option.some.inj h).symm⟩
  · exact .inr h

theorem nodup_sharedRecords_push {row : Node ρ} {index : Index} (h : (t.sharedRecords S).Nodup)
    (hnew : (S.key? row.record).isSome = true → ∀ n, t.name n ≠ some row.record) :
    (NodeTable.sharedRecords S ⟨t.rows.push row, index⟩).Nodup := by
  rw [sharedRecords_push]
  split
  · next hkey =>
    rw [List.nodup_append]
    refine ⟨h, by simp, ?_⟩
    rintro q hq _ hq' rfl
    rw [List.mem_singleton.mp hq'] at hq
    obtain ⟨n, hn⟩ := (mem_sharedRecords.mp hq).1
    exact hnew hkey n hn
  · simpa using h

/-- One more row, paid for by the credit or, if its record is shared, by the record. -/
theorem Faithful.push (h : Faithful T credit t) (row : Node ρ) (index : Index)
    (hr : T.Occurs row.record)
    (hedges : ∀ edges, row.edges = some edges → Spells t.name edges (T.equations row.record))
    (hkeep : ∀ key, t.index.under key ⊆ index.under key)
    (hnew : ∀ key, S.key? row.record = some key →
      t.rows.size ∈ index.under key ∧ ∀ n, t.name n ≠ some row.record) :
    Faithful T (credit + if (S.key? row.record).isSome then 0 else T.rowCost row)
      ⟨t.rows.push row, index⟩ := by
  refine ⟨?_, ?_, ?_, ?_, ?_⟩
  · intro n row' hn
    rcases getElem?_push_eq_some hn with ⟨-, rfl⟩ | hn
    · exact hr
    · exact h.occurs n row' hn
  · intro n row' edges hn hrow
    rcases getElem?_push_eq_some hn with ⟨-, rfl⟩ | hn
    · exact (hedges edges hrow).mono (extends_push _ _).name
    · exact (h.spelled n row' edges hn hrow).mono (extends_push _ _).name
  · intro n row' key hn hkey
    rcases getElem?_push_eq_some hn with ⟨rfl, rfl⟩ | hn
    · exact (hnew key hkey).1
    · exact hkeep key (h.filed n row' key hn hkey)
  · refine nodup_sharedRecords_push h.distinct fun hkey => ?_
    obtain ⟨key, hkey⟩ := Option.isSome_iff_exists.mp hkey
    exact (hnew key hkey).2
  · have hpaid := h.paid
    have hcost := T.rowCost_le_allowance hr
    show Table.total T.rowCost (t.rows.push row) ≤ _
    rw [Table.total_push, sharedRecords_push]
    split
    · simp only [List.map_append, List.map_cons, List.map_nil, List.sum_append, List.sum_cons,
        List.sum_nil]
      omega
    · simp only [List.append_nil]
      omega

theorem Faithful.add (h : Faithful T credit t) (hr : T.Occurs r) (hkey : S.key? r = none) :
    Faithful T (credit + T.allowance r) (t.add r).1 := by
  have hpush := h.push ⟨r, none⟩ t.index hr (by simp) (fun _ => List.Subset.refl _) (by simp [hkey])
  simpa [hkey, System.Theory.rowCost, add_eq] using hpush

theorem Faithful.addBuilt {edges : List Hyperedge} (h : Faithful T credit t) (hr : T.Occurs r)
    (hkey : S.key? r = none) (hedges : Spells t.name edges (T.equations r)) :
    Faithful T (credit + 1) (t.addBuilt r edges).1 := by
  have hpush := h.push ⟨r, some edges⟩ t.index hr (by simpa using hedges)
    (fun _ => List.Subset.refl _) (by simp [hkey])
  simpa [hkey, System.Theory.rowCost, addBuilt_eq] using hpush

theorem store_eq {edges : List Hyperedge} (hrow : t.rows[node]? = some ⟨r, none⟩) :
    t.store node edges = .ok ⟨t.rows.setIfInBounds node ⟨r, some edges⟩, t.index⟩ := by
  have hlt : node < t.rows.size := (Array.getElem?_eq_some_iff.mp hrow).1
  have hassign : t.rows.assign node ⟨r, some edges⟩ =
      .ok (t.rows.setIfInBounds node ⟨r, some edges⟩) := if_pos hlt
  show (t.rows.fetch node >>= _) = _
  rw [Table.fetch_eq_ok_iff.mpr hrow]
  show (t.rows.assign node ⟨r, some edges⟩ >>= _) = _
  rw [hassign]
  rfl

theorem getElem?_store {edges : Option (List Hyperedge)} (hrow : t.rows[node]? = some ⟨r, none⟩)
    (n : NodeId) : (t.rows.setIfInBounds node ⟨r, edges⟩)[n]? =
      if n = node then some ⟨r, edges⟩ else t.rows[n]? := by
  have hlt : node < t.rows.size := (Array.getElem?_eq_some_iff.mp hrow).1
  rw [Array.getElem?_setIfInBounds]
  by_cases hn : node = n
  · subst hn
    simp [hlt]
  · rw [if_neg hn, if_neg (Ne.symm hn)]

theorem name_store {edges : Option (List Hyperedge)} (hrow : t.rows[node]? = some ⟨r, none⟩) :
    (⟨t.rows.setIfInBounds node ⟨r, edges⟩, t.index⟩ : NodeTable ρ).name = t.name := by
  funext n
  unfold name
  rw [getElem?_store hrow]
  split
  · next heq =>
    rw [heq, hrow]
    rfl
  · rfl

/-- Only a node that is not yet built is given hyperedges. -/
theorem grows_store {edges : Option (List Hyperedge)} (hrow : t.rows[node]? = some ⟨r, none⟩) :
    Grows t ⟨t.rows.setIfInBounds node ⟨r, edges⟩, t.index⟩ where
  name := by
    intro n q hn
    rwa [name_store hrow]
  built := by
    intro n row hn hbuilt
    have hne : n ≠ node := by
      intro heq
      rw [heq, hrow] at hn
      obtain rfl := Option.some.inj hn
      simp at hbuilt
    exact (getElem?_store hrow n).trans ((if_neg hne).trans hn)

theorem sharedRecords_store {edges : Option (List Hyperedge)}
    (hrow : t.rows[node]? = some ⟨r, none⟩) :
    sharedRecords S ⟨t.rows.setIfInBounds node ⟨r, edges⟩, t.index⟩ = t.sharedRecords S := by
  unfold sharedRecords
  congr 1
  apply List.ext_getElem?
  intro n
  have hname : name ⟨t.rows.setIfInBounds node ⟨r, edges⟩, t.index⟩ n = t.name n :=
    congrFun (name_store hrow) n
  rw [List.getElem?_map, List.getElem?_map, Array.getElem?_toList, Array.getElem?_toList]
  exact hname

/-- A node that gets its hyperedges gives back what they cost. -/
theorem Faithful.store {edges : List Hyperedge} {cost : Nat} (h : Faithful T (credit + cost) t)
    (hrow : t.rows[node]? = some ⟨r, none⟩) (hspells : Spells t.name edges (T.equations r))
    (hcost : cost + 1 ≤ T.allowance r) :
    Faithful T credit ⟨t.rows.setIfInBounds node ⟨r, some edges⟩, t.index⟩ := by
  refine ⟨?_, ?_, ?_, ?_, ?_⟩
  · intro n row hn
    rw [getElem?_store hrow] at hn
    split at hn
    · obtain rfl := Option.some.inj hn
      exact h.occurs node ⟨r, none⟩ hrow
    · exact h.occurs n row hn
  · intro n row edges' hn hedges
    rw [name_store hrow]
    rw [getElem?_store hrow] at hn
    split at hn
    · obtain rfl := Option.some.inj hn
      obtain rfl := Option.some.inj hedges
      exact hspells
    · exact h.spelled n row edges' hn hedges
  · intro n row key hn hkey
    rw [getElem?_store hrow] at hn
    split at hn
    · next heq =>
      obtain rfl := Option.some.inj hn
      exact heq ▸ h.filed node ⟨r, none⟩ key hrow hkey
    · exact h.filed n row key hn hkey
  · rw [sharedRecords_store hrow]
    exact h.distinct
  -- the allowance of the record covers the hyperedges and the row itself
  · have hpaid := h.paid
    have htotal := Table.total_setIfInBounds T.rowCost t.rows hrow ⟨r, some edges⟩
    have hbuilt : T.rowCost ⟨r, some edges⟩ = 1 := rfl
    have hunbuilt : T.rowCost ⟨r, none⟩ = T.allowance r := rfl
    rw [sharedRecords_store hrow]
    show Table.total T.rowCost (t.rows.setIfInBounds node ⟨r, some edges⟩) ≤ _
    omega

variable [DecidableEq ρ]

theorem Faithful.name_ne_of_find?_eq_none {key : Nat} (h : Faithful T credit t)
    (hkey : S.key? r = some key) (hnone : t.find? key r = none) : ∀ n, t.name n ≠ some r := by
  intro n hn
  obtain ⟨row, hrow, rfl⟩ := name_eq_some_iff.mp hn
  have hfiled := h.filed n row key hrow hkey
  have hany := List.find?_eq_none.mp hnone n hfiled
  simp [hrow] at hany

theorem Faithful.find?_eq_some_iff {key : Nat} (h : Faithful T credit t)
    (hkey : S.key? r = some key) : t.find? key r = some node ↔ t.name node = some r := by
  refine ⟨name_of_find?, fun hname => ?_⟩
  cases hfind : t.find? key r with
  | none => exact absurd hname (h.name_ne_of_find?_eq_none hkey hfind node)
  | some m =>
    have hshared : (S.key? r).isSome = true := by rw [hkey]; rfl
    rw [h.node_unique hshared (name_of_find? hfind) hname]

theorem intern_found {key : Nat} (h : t.find? key r = some node) :
    t.intern (some key) r = (t, node) := by
  simp [NodeTable.intern, h]

theorem intern_new {key : Nat} (h : t.find? key r = none) :
    t.intern (some key) r = t.file key r := by
  simp [NodeTable.intern, h]

theorem name_intern (t : NodeTable ρ) (key? : Option Nat) (r : ρ) :
    (t.intern key? r).1.name (t.intern key? r).2 = some r := by
  cases key? with
  | none => exact name_push _ _
  | some key =>
    cases hfind : t.find? key r with
    | some node =>
      rw [intern_found hfind]
      exact name_of_find? hfind
    | none =>
      rw [intern_new hfind]
      exact name_push _ _

theorem Faithful.file {key : Nat} (h : Faithful T credit t) (hr : T.Occurs r)
    (hkey : S.key? r = some key) (hnone : t.find? key r = none) :
    Faithful T credit (t.file key r).1 := by
  have hpush := h.push ⟨r, none⟩ (t.index.file key t.rows.size) hr (by simp) ?_ ?_
  · simpa [hkey, file_eq] using hpush
  · intro k n hn
    rw [Index.under_file]
    split
    · next heq => exact List.mem_cons_of_mem _ (heq ▸ hn)
    · exact hn
  · intro k hk
    obtain rfl : key = k := Option.some.inj (hkey.symm.trans hk)
    exact ⟨by simp [Index.under_file], h.name_ne_of_find?_eq_none hkey hnone⟩

/-- Interning gives the record a node, at its price. -/
theorem Faithful.intern (h : Faithful T credit t) (hr : T.Occurs r) :
    Faithful T (credit + T.price r) (t.intern (S.key? r) r).1 ∧
      Extends t (t.intern (S.key? r) r).1 := by
  cases hkey : S.key? r with
  | none =>
    have hprice : T.price r = T.allowance r := by simp [System.Theory.price, hkey]
    rw [hprice]
    exact ⟨h.add hr hkey, extends_push _ _⟩
  | some key =>
    have hprice : T.price r = 0 := by simp [System.Theory.price, hkey]
    rw [hprice, Nat.add_zero]
    cases hfind : t.find? key r with
    | some node =>
      rw [intern_found hfind]
      exact ⟨h, .refl t⟩
    | none =>
      rw [intern_new hfind]
      exact ⟨h.file hr hkey hfind, extends_push _ _⟩

/-- The nodes of a hyperedge stand for its records, and are paid for by their prices. -/
theorem Faithful.internEdge {us : List ρ} (h : Faithful T credit t) (hus : ∀ q ∈ us, T.Occurs q) :
    Faithful T (credit + (us.map T.price).sum) (t.internEdge S.key? us).1 ∧
      Extends t (t.internEdge S.key? us).1 ∧
      Stands (t.internEdge S.key? us).1.name (t.internEdge S.key? us).2 us := by
  unfold NodeTable.internEdge
  induction us generalizing t credit with
  | nil => exact ⟨by simpa using h, .refl t, .nil⟩
  | cons q us ih =>
    obtain ⟨hq, hext⟩ := h.intern (hus q List.mem_cons_self)
    have hname := name_intern t (S.key? q) q
    obtain ⟨hrest, hext', hstands⟩ := ih hq fun q' hq' => hus q' (List.mem_cons_of_mem q hq')
    simp only [thread_cons, List.map_cons, List.sum_cons]
    refine ⟨?_, hext.trans hext', .cons (hext'.name _ _ hname) hstands⟩
    rwa [Nat.add_assoc] at hrest

theorem Faithful.internEdges {equation : List (List ρ)} (h : Faithful T credit t)
    (hequation : ∀ us ∈ equation, ∀ q ∈ us, T.Occurs q) :
    Faithful T (credit + (equation.flatten.map T.price).sum) (t.internEdges S.key? equation).1 ∧
      Extends t (t.internEdges S.key? equation).1 ∧
      Spells (t.internEdges S.key? equation).1.name (t.internEdges S.key? equation).2 equation := by
  unfold NodeTable.internEdges
  induction equation generalizing t credit with
  | nil => exact ⟨by simpa using h, .refl t, .nil⟩
  | cons us equation ih =>
    obtain ⟨hus, hext, hstands⟩ := h.internEdge (hequation us List.mem_cons_self)
    obtain ⟨hrest, hext', hspells⟩ := ih hus fun us' hus' =>
      hequation us' (List.mem_cons_of_mem us hus')
    simp only [thread_cons, List.flatten_cons, List.map_append, List.sum_append]
    refine ⟨?_, hext.trans hext', .cons (hstands.mono hext'.name) hspells⟩
    rwa [Nat.add_assoc] at hrest

end NodeTable

end ProcessLogic
