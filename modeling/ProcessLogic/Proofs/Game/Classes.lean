import ProcessLogic.Proofs.Game.Collapse

/-!
# The classes of a partition

Each state of a game is in exactly one class, the classes are listed once each, and two states are in
one class exactly if the least equivalence that contains the pairs marked unproved relates them.
This holds for every game and every marking.
-/

set_option autoImplicit false

namespace ProcessLogic

namespace Partition

variable {p : Partition} {s t leader : StateId} {c : StateId × List StateId}

/-- A partition of the states `Seen` into the classes of the least equivalence that contains
`United`. -/
structure Classifies (p : Partition) (Seen : StateId → Prop) (United : StateId → StateId → Prop) :
    Prop where
  representative_eq_iff : ∀ s t, Seen s → Seen t →
    (p.representative s = p.representative t ↔ Relation.EqvGen United s t)
  idempotent : ∀ s, p.representative (p.representative s) = p.representative s
  representative_mem : ∀ s, Seen s → p.representative s ∈ p.classOf s
  nonempty : ∀ c ∈ p.classes, c.2 ≠ []
  disjoint : (p.classes.map Prod.snd).Pairwise List.Disjoint
  distinct : (p.classes.map Prod.snd).Nodup
  mem_iff : ∀ s, s ∈ (p.classes.map Prod.snd).flatten ↔ Seen s
  once : (p.classes.map Prod.snd).flatten.Nodup
  /-- The first component is the representative of the class. -/
  leader_eq : ∀ c ∈ p.classes, ∀ s ∈ c.2, p.representative s = c.1
  classOf_eq : ∀ c ∈ p.classes, ∀ s ∈ c.2, p.classOf s = c.2
  classOf_unseen : ∀ s, ¬ Seen s → p.classOf s = [s]

/-- Every state is listed once, with its representative, which is in its own class. -/
structure Led (p : Partition) : Prop where
  filed : p.states.Filed
  nodup : p.states.toList.Nodup
  leaders_eq : p.leaders.toList = p.states.toList.map p.representative
  representative_mem : ∀ s ∈ p.states.toList, p.representative s ∈ p.states.toList
  idempotent : ∀ s, p.representative (p.representative s) = p.representative s

namespace Led

theorem contains_iff (h : p.Led) : p.states.contains s = true ↔ s ∈ p.states.toList :=
  (Numbering.contains_iff h.filed).trans Array.mem_toList_iff.symm

theorem members_eq (h : p.Led) (leader : StateId) :
    p.members leader = p.states.toList.filter fun s => p.representative s = leader := by
  unfold members
  rw [h.leaders_eq]
  induction p.states.toList with
  | nil => rfl
  | cons s states ih =>
    rw [List.map_cons, List.zip_cons_cons, List.filter_cons, List.filter_cons, ← ih]
    by_cases hs : p.representative s = leader <;> simp [hs]

theorem mem_members (h : p.Led) :
    s ∈ p.members leader ↔ s ∈ p.states.toList ∧ p.representative s = leader := by
  rw [h.members_eq, List.mem_filter, decide_eq_true_iff]

theorem nodup_members (h : p.Led) (leader : StateId) : (p.members leader).Nodup := by
  rw [h.members_eq]
  exact h.nodup.filter _

/-- The leaders are the states that stand for themselves. -/
theorem mem_classes (h : p.Led) : c ∈ p.classes ↔
    (c.1 ∈ p.states.toList ∧ p.representative c.1 = c.1) ∧ c.2 = p.members c.1 := by
  have hleader : ∀ leader, leader ∈ (Numbering.ofList p.leaders.toList).toList ↔
      leader ∈ p.states.toList ∧ p.representative leader = leader := by
    intro leader
    rw [Numbering.toList, Array.mem_toList_iff, Numbering.mem_ofList, h.leaders_eq, List.mem_map]
    constructor
    · rintro ⟨s, hs, rfl⟩
      exact ⟨h.representative_mem s hs, h.idempotent s⟩
    · rintro ⟨hmem, hself⟩
      exact ⟨leader, hmem, hself⟩
  obtain ⟨leader, members⟩ := c
  unfold classes
  rw [List.mem_map]
  constructor
  · rintro ⟨leader', hmem, heq⟩
    obtain ⟨rfl, rfl⟩ := Prod.mk.inj heq
    exact ⟨(hleader leader').mp hmem, rfl⟩
  · rintro ⟨hself, hmembers⟩
    exact ⟨leader, (hleader leader).mpr hself, congrArg (Prod.mk leader) hmembers.symm⟩

theorem mem_class (h : p.Led) (hc : c ∈ p.classes) :
    s ∈ c.2 ↔ s ∈ p.states.toList ∧ p.representative s = c.1 := by
  rw [(h.mem_classes.mp hc).2, h.mem_members]

theorem nodup_leaders (p : Partition) : (p.classes.map Prod.fst).Nodup := by
  have hfst : p.classes.map Prod.fst = (Numbering.ofList p.leaders.toList).toList := by
    simp [classes, Function.comp_def]
  rw [hfst]
  exact Numbering.nodup_ofList _

/-- A state in two classes would have two representatives. -/
theorem disjoint_classes (h : p.Led) : (p.classes.map Prod.snd).Pairwise List.Disjoint := by
  have hleaders : p.classes.Pairwise fun c d => c.1 ≠ d.1 :=
    List.pairwise_map.mp (nodup_leaders p)
  rw [List.pairwise_map]
  refine hleaders.imp_of_mem ?_
  intro c d hc hd hne s hsc hsd
  have hleft := ((h.mem_class hc).mp hsc).2
  have hright := ((h.mem_class hd).mp hsd).2
  exact hne (hleft.symm.trans hright)

theorem ne_nil_of_mem_classes (h : p.Led) (hc : c ∈ p.classes) : c.2 ≠ [] :=
  List.ne_nil_of_mem ((h.mem_class hc).mpr (h.mem_classes.mp hc).1)

theorem nodup_flatten_classes (h : p.Led) : (p.classes.map Prod.snd).flatten.Nodup := by
  rw [List.nodup_flatten]
  refine ⟨?_, h.disjoint_classes⟩
  intro members hmembers
  obtain ⟨c, hc, rfl⟩ := List.mem_map.mp hmembers
  rw [(h.mem_classes.mp hc).2]
  exact h.nodup_members c.1

/-- A list that appeared twice would be disjoint from itself. -/
theorem nodup_classes (h : p.Led) : (p.classes.map Prod.snd).Nodup := by
  refine h.disjoint_classes.imp_of_mem ?_
  intro members members' hmem _ hdisjoint heq
  obtain ⟨c, hc, rfl⟩ := List.mem_map.mp hmem
  obtain ⟨s, hs⟩ := List.exists_mem_of_ne_nil _ (h.ne_nil_of_mem_classes hc)
  exact hdisjoint hs (heq ▸ hs)

theorem mem_flatten_classes (h : p.Led) :
    s ∈ (p.classes.map Prod.snd).flatten ↔ s ∈ p.states.toList := by
  rw [List.mem_flatten]
  constructor
  · rintro ⟨members, hmembers, hs⟩
    obtain ⟨c, hc, rfl⟩ := List.mem_map.mp hmembers
    exact ((h.mem_class hc).mp hs).1
  · intro hs
    have hc : (p.representative s, p.members (p.representative s)) ∈ p.classes :=
      h.mem_classes.mpr ⟨⟨h.representative_mem s hs, h.idempotent s⟩, rfl⟩
    exact ⟨_, List.mem_map_of_mem hc, (h.mem_class hc).mpr ⟨hs, rfl⟩⟩

theorem classOf_of_mem (h : p.Led) (hs : s ∈ p.states.toList) :
    p.classOf s = p.members (p.representative s) := by
  rw [classOf, if_pos (h.contains_iff.mpr hs)]

theorem classOf_of_not_mem (h : p.Led) (hs : s ∉ p.states.toList) : p.classOf s = [s] := by
  rw [classOf, if_neg (mt h.contains_iff.mp hs)]

theorem classifies (h : p.Led) {United : StateId → StateId → Prop}
    (hrepresentative : ∀ s t, p.representative s = p.representative t ↔
      Relation.EqvGen United s t) :
    p.Classifies (· ∈ p.states.toList) United where
  representative_eq_iff := fun s t _ _ => hrepresentative s t
  idempotent := h.idempotent
  representative_mem := by
    intro s hs
    rw [h.classOf_of_mem hs]
    exact h.mem_members.mpr ⟨h.representative_mem s hs, h.idempotent s⟩
  nonempty := fun _ hc => h.ne_nil_of_mem_classes hc
  disjoint := h.disjoint_classes
  distinct := h.nodup_classes
  mem_iff := fun _ => h.mem_flatten_classes
  once := h.nodup_flatten_classes
  leader_eq := fun _ hc _ hs => ((h.mem_class hc).mp hs).2
  classOf_eq := by
    intro c hc s hs
    obtain ⟨hmem, hleader⟩ := (h.mem_class hc).mp hs
    rw [h.classOf_of_mem hmem, hleader, (h.mem_classes.mp hc).2]
  classOf_unseen := fun _ hs => h.classOf_of_not_mem hs

end Led

theorem Classifies.congr {Seen Seen' : StateId → Prop} {United United' : StateId → StateId → Prop}
    (h : p.Classifies Seen United) (hseen : ∀ s, Seen' s ↔ Seen s)
    (hunited : ∀ s t, United' s t ↔ United s t) : p.Classifies Seen' United' := by
  obtain rfl : Seen' = Seen := funext fun s => propext (hseen s)
  obtain rfl : United' = United := funext fun s => funext fun t => propext (hunited s t)
  exact h

end Partition

theorem Forest.rootOf_rootOf {f : Forest} {a : Nat} (hf : f.Ranked) (ha : a < f.size) :
    f.rootOf (f.rootOf a) = f.rootOf a :=
  (Climbs.root (climbs_rootOf hf ha).isRoot).rootOf_eq hf (rootOf_lt_size hf ha)

namespace Gathering

variable {g : Gathering} {V : StateId → StateId → Prop} {s : StateId}

theorem Gathers.representative_representative (h : g.Gathers V) (s : StateId) :
    g.partition.representative (g.partition.representative s) = g.partition.representative s := by
  by_cases hs : s ∈ g.states.items
  · obtain ⟨i, hi⟩ := Array.getElem?_of_mem hs
    obtain ⟨U, hU, -⟩ := h.generates
    have hroot := h.getElem?_rootOf hi
    have htwice := h.getElem?_rootOf hroot
    rw [Forest.rootOf_rootOf hU.ranked (h.lt_size hi), hroot] at htwice
    exact (Option.some.inj htwice).symm
  · rw [representative_eq_self hs, representative_eq_self hs]

/-- The leader of a slot is the representative of the state in it. -/
theorem Gathers.leaders_eq (h : g.Gathers V) :
    g.partition.leaders.toList = g.states.toList.map g.partition.representative := by
  apply List.ext_getElem?
  intro i
  rw [List.getElem?_map, Array.getElem?_toList, Numbering.toList, Array.getElem?_toList]
  cases hi : g.states.items[i]? with
  | none =>
    have hsize : g.partition.leaders.size = g.states.items.size := by
      simp [Gathering.partition, h.roots_eq, Numbering.size]
    have hlast : g.partition.leaders.size ≤ i := hsize ▸ Array.getElem?_eq_none_iff.mp hi
    exact Array.getElem?_eq_none hlast
  | some s =>
    have hlt : i < g.states.size := (Array.getElem?_eq_some_iff.mp hi).1
    rw [h.getElem?_leaders hlt, h.getElem?_rootOf hi]
    rfl

theorem Gathers.led (h : g.Gathers V) : g.partition.Led where
  filed := h.filed
  nodup := h.nodup
  leaders_eq := h.leaders_eq
  representative_mem := by
    intro s hs
    exact Array.mem_toList_iff.mpr (h.representative_mem (Array.mem_toList_iff.mp hs))
  idempotent := h.representative_representative

end Gathering

theorem Partition.led_ofPairs (pairs : List (NodeId × StateId × StateId))
    (status : NodeId → Status) : (ofPairs pairs status).Led :=
  (Gathering.gathers_empty.foldl pairs status).led

namespace Game

/-- The state is in a pair of the game. -/
def Sees (g : Game) (s : StateId) : Prop :=
  ∃ n p q, g.record? n = some (.pair p q) ∧ (s = p ∨ s = q)

/-- Some node of the pair is marked unproved. -/
def Unites (g : Game) (status : NodeId → Status) (p q : StateId) : Prop :=
  ∃ n, g.record? n = some (.pair p q) ∧ status n = .unproved

/-- The partition of a game by a marking consists of the classes of the least equivalence that
contains the unproved pairs. -/
theorem partition_classifies (g : Game) (status : NodeId → Status) :
    ∃ P, (g.partition status).value = .ok P ∧ P.Classifies g.Sees (g.Unites status) := by
  refine ⟨Partition.ofPairs g.pairs status, rfl, ?_⟩
  have h := (Partition.led_ofPairs g.pairs status).classifies fun _ _ =>
    Partition.representative_ofPairs_eq_iff
  exact h.congr (fun _ => Game.mem_states_ofPairs.symm) fun _ _ => Game.united_iff.symm

end Game

end ProcessLogic
