import ProcessLogic.Game.Partition
import ProcessLogic.Proofs.Game.Forest

/-!
# Classes of states

Two states have one representative exactly if they are in the least equivalence that contains the
pairs marked unproved.
-/

set_option autoImplicit false

namespace ProcessLogic

/-- Finding a slot moves no other slot to another root. -/
theorem Forest.thread_find {f : Forest} (hf : f.Ranked) {slots : List Nat}
    (h : ∀ a ∈ slots, a < f.size) :
    (thread (fun f slot => (f.find slot).swap) f slots).2 = slots.map f.rootOf := by
  induction slots generalizing f with
  | nil => rfl
  | cons a slots ih =>
    have hkeeps := keeps_find hf (h a List.mem_cons_self)
    have hslots : ∀ b ∈ slots, b < f.size := fun b hb => h b (List.mem_cons_of_mem a hb)
    have hrest := ih hkeeps.ranked fun b hb => hkeeps.size_eq ▸ hslots b hb
    rw [thread_cons, List.map_cons]
    refine congrArg (f.rootOf a :: ·) (hrest.trans ?_)
    exact List.map_congr_left fun b hb => hkeeps.rootOf_eq hf (hslots b hb)

namespace Gathering

variable {g : Gathering} {V : StateId → StateId → Prop} {s t : StateId} {i j : Nat}

/-- Every state seen has a slot, and the forest generates the pairs `V` on the slots. -/
structure Gathers (g : Gathering) (V : StateId → StateId → Prop) : Prop where
  filed : g.states.Filed
  nodup : g.states.toList.Nodup
  size_eq : g.forest.size = g.states.size
  generates : ∃ U, g.forest.Generates U ∧ ∀ s t, V s t ↔
    ∃ i j, U i j ∧ g.states.items[i]? = some s ∧ g.states.items[j]? = some t

theorem gathers_empty : Gathers {} (fun _ _ => False) where
  filed := Numbering.filed_empty
  nodup := List.nodup_nil
  size_eq := rfl
  generates := ⟨_, Forest.generates_empty, by simp⟩

theorem Gathers.congr {V' : StateId → StateId → Prop} (h : g.Gathers V)
    (hV : ∀ s t, V' s t ↔ V s t) : g.Gathers V' := by
  obtain rfl : V' = V := funext fun s => funext fun t => propext (hV s t)
  exact h

theorem Gathers.lt_size (h : g.Gathers V) (hs : g.states.items[i]? = some s) :
    i < g.forest.size := by
  rw [h.size_eq]
  exact (Array.getElem?_eq_some_iff.mp hs).1

theorem Gathers.slot_unique (h : g.Gathers V) (hi : g.states.items[i]? = some s)
    (hj : g.states.items[j]? = some s) : i = j := by
  have hindex := (Numbering.index?_eq_some_iff h.filed h.nodup).mpr hi
  rw [(Numbering.index?_eq_some_iff h.filed h.nodup).mpr hj] at hindex
  exact (Option.some.inj hindex).symm

theorem see_cases (g : Gathering) (s : StateId) :
    (∃ i, g.states.items[i]? = some s ∧ g.see s = (g, i)) ∨
      (g.see s = (⟨g.states.insert s, g.forest.add⟩, g.states.size) ∧
        (g.states.insert s).items = g.states.items.push s) := by
  cases hindex : g.states.index? s with
  | some i => exact .inl ⟨i, Numbering.getElem?_of_index? hindex, by simp only [see, hindex]⟩
  | none =>
    refine .inr ⟨by simp only [see, hindex], ?_⟩
    simp [Numbering.insert, Numbering.contains, hindex]

theorem getElem?_see (g : Gathering) (s : StateId) :
    (g.see s).1.states.items[(g.see s).2]? = some s ∧
      ∀ (i : Nat) (t : StateId), g.states.items[i]? = some t →
        (g.see s).1.states.items[i]? = some t := by
  rcases see_cases g s with ⟨i, hi, hsee⟩ | ⟨hsee, hitems⟩
  · rw [hsee]
    exact ⟨hi, fun _ _ h => h⟩
  · rw [hsee]
    simp only [hitems, Array.getElem?_push]
    refine ⟨if_pos rfl, ?_⟩
    intro i t ht
    have hi : i < g.states.items.size := (Array.getElem?_eq_some_iff.mp ht).1
    rw [if_neg (Nat.ne_of_lt hi), ht]

theorem mem_see : t ∈ (g.see s).1.states.items ↔ t ∈ g.states.items ∨ t = s := by
  rcases see_cases g s with ⟨i, hi, hsee⟩ | ⟨hsee, -⟩
  · rw [hsee]
    refine ⟨.inl, ?_⟩
    intro ht
    rcases ht with ht | rfl
    · exact ht
    · exact Array.mem_of_getElem? hi
  · rw [hsee]
    exact Numbering.mem_insert

theorem Gathers.see (h : g.Gathers V) (s : StateId) : (g.see s).1.Gathers V := by
  have hkept := (getElem?_see g s).2
  rcases see_cases g s with ⟨i, -, hsee⟩ | ⟨hsee, hitems⟩
  · rw [hsee]
    exact h
  · rw [hsee] at hkept ⊢
    have hsize : (g.states.insert s).size = g.states.size + 1 := by
      simp [Numbering.size, hitems]
    obtain ⟨U, hU, hV⟩ := h.generates
    -- slots that were united existed before, so they keep their states
    have hold : ∀ (i : Nat) (t : StateId), i < g.forest.size →
        ((g.states.insert s).items[i]? = some t ↔ g.states.items[i]? = some t) := by
      intro i t hi
      rw [h.size_eq] at hi
      have hne : i ≠ g.states.items.size := Nat.ne_of_lt hi
      rw [hitems, Array.getElem?_push, if_neg hne]
    refine ⟨Numbering.filed_insert h.filed s, Numbering.nodup_insert h.filed h.nodup, ?_, U,
      hU.add, ?_⟩
    · rw [Forest.size_add, hsize, h.size_eq]
    · intro a b
      rw [hV]
      apply exists_congr
      intro i
      apply exists_congr
      intro j
      apply and_congr_right
      intro hij
      obtain ⟨hi, hj⟩ := hU.lt_size i j hij
      rw [hold i a hi, hold j b hj]

theorem Gathers.union (h : g.Gathers V) (hs : g.states.items[i]? = some s)
    (ht : g.states.items[j]? = some t) :
    Gathers ⟨g.states, g.forest.union i j⟩ (fun a b => V a b ∨ (a = s ∧ b = t)) := by
  obtain ⟨U, hU, hV⟩ := h.generates
  have hi := h.lt_size hs
  have hj := h.lt_size ht
  refine ⟨h.filed, h.nodup, ?_, _, hU.union hi hj, ?_⟩
  · exact (Forest.joins_union hU.ranked hi hj).size_eq.trans h.size_eq
  · intro a b
    rw [hV]
    constructor
    · intro hab
      rcases hab with ⟨c, d, hcd, hc, hd⟩ | ⟨rfl, rfl⟩
      · exact ⟨c, d, .inl hcd, hc, hd⟩
      · exact ⟨i, j, .inr ⟨rfl, rfl⟩, hs, ht⟩
    · intro hab
      obtain ⟨c, d, hcd | ⟨rfl, rfl⟩, hc, hd⟩ := hab
      · exact .inl ⟨c, d, hcd, hc, hd⟩
      · rw [hs] at hc
        rw [ht] at hd
        exact .inr ⟨(Option.some.inj hc).symm, (Option.some.inj hd).symm⟩

theorem states_addPair (g : Gathering) (united : Bool) (l r : StateId) :
    (g.addPair united l r).states = ((g.see l).1.see r).1.states := by
  cases united <;> rfl

theorem mem_addPair {united : Bool} {l r : StateId} :
    t ∈ (g.addPair united l r).states.items ↔ t ∈ g.states.items ∨ t = l ∨ t = r := by
  rw [states_addPair, mem_see, mem_see, or_assoc]

theorem Gathers.addPair (h : g.Gathers V) (united : Bool) (l r : StateId) :
    (g.addPair united l r).Gathers (fun s t => V s t ∨ (united = true ∧ s = l ∧ t = r)) := by
  have hseen := (h.see l).see r
  cases united with
  | false =>
    apply Gathers.congr hseen
    simp
  | true =>
    have hl := (getElem?_see (g.see l).1 r).2 _ _ (getElem?_see g l).1
    have hr := (getElem?_see (g.see l).1 r).1
    apply Gathers.congr (hseen.union hl hr)
    simp

/-- The pairs whose node is marked unproved. -/
def United (pairs : List (NodeId × StateId × StateId)) (status : NodeId → Status) (s t : StateId) :
    Prop :=
  ∃ n, (n, s, t) ∈ pairs ∧ status n = .unproved

variable (pairs : List (NodeId × StateId × StateId)) (status : NodeId → Status)

theorem united_cons (p : NodeId × StateId × StateId) :
    United (p :: pairs) status s t ↔
      (status p.1 = .unproved ∧ s = p.2.1 ∧ t = p.2.2) ∨ United pairs status s t := by
  obtain ⟨n, l, r⟩ := p
  constructor
  · intro h
    obtain ⟨m, hm, hstatus⟩ := h
    rcases List.mem_cons.mp hm with heq | hm
    · cases heq
      exact .inl ⟨hstatus, rfl, rfl⟩
    · exact .inr ⟨m, hm, hstatus⟩
  · intro h
    rcases h with ⟨hstatus, rfl, rfl⟩ | ⟨m, hm, hstatus⟩
    · exact ⟨n, List.mem_cons_self, hstatus⟩
    · exact ⟨m, List.mem_cons_of_mem _ hm, hstatus⟩

theorem Gathers.foldl (h : g.Gathers V) :
    (pairs.foldl (fun g (node, l, r) => g.addPair (status node = .unproved) l r) g).Gathers
      (fun s t => V s t ∨ United pairs status s t) := by
  induction pairs generalizing g V with
  | nil => exact h.congr (by simp [United])
  | cons p pairs ih =>
    apply Gathers.congr (ih (h.addPair (status p.1 = .unproved) p.2.1 p.2.2))
    intro s t
    rw [united_cons, decide_eq_true_iff, or_assoc]

theorem mem_foldl_addPair (g : Gathering) (t : StateId) :
    t ∈ (pairs.foldl (fun g (node, l, r) => g.addPair (status node = .unproved) l r)
        g).states.items ↔
      t ∈ g.states.items ∨ ∃ p ∈ pairs, t = p.2.1 ∨ t = p.2.2 := by
  induction pairs generalizing g with
  | nil => simp
  | cons p pairs ih =>
    rw [List.foldl_cons, ih, mem_addPair, List.exists_mem_cons_iff, or_assoc]

theorem Gathers.roots_eq (h : g.Gathers V) :
    g.roots = (List.range g.states.size).map g.forest.rootOf := by
  obtain ⟨U, hU, -⟩ := h.generates
  apply Forest.thread_find hU.ranked
  intro a ha
  rw [h.size_eq]
  exact List.mem_range.mp ha

theorem Gathers.getElem?_leaders (h : g.Gathers V) (hi : i < g.states.size) :
    g.partition.leaders[i]? = some (g.states.items[g.forest.rootOf i]?.getD 0) := by
  simp [partition, h.roots_eq, hi]

theorem Gathers.getElem?_rootOf (h : g.Gathers V) (hs : g.states.items[i]? = some s) :
    g.states.items[g.forest.rootOf i]? = some (g.partition.representative s) := by
  have hi := h.lt_size hs
  obtain ⟨U, hU, -⟩ := h.generates
  have hroot := Forest.rootOf_lt_size hU.ranked hi
  rw [h.size_eq] at hi hroot
  have hindex : g.partition.states.index? s = some i :=
    (Numbering.index?_eq_some_iff h.filed h.nodup).mpr hs
  have hroot : g.forest.rootOf i < g.states.items.size := hroot
  simp only [Partition.representative, hindex, h.getElem?_leaders hi]
  simp [hroot]

theorem Gathers.representative_mem (h : g.Gathers V) (hs : s ∈ g.states.items) :
    g.partition.representative s ∈ g.states.items := by
  obtain ⟨i, hi⟩ := Array.getElem?_of_mem hs
  exact Array.mem_of_getElem? (h.getElem?_rootOf hi)

theorem representative_eq_self (hs : s ∉ g.states.items) : g.partition.representative s = s := by
  have hindex : g.partition.states.index? s = none := by
    by_contra hne
    exact hs (Numbering.mem_of_contains (Option.isSome_iff_ne_none.mpr hne))
  simp [Partition.representative, hindex]

theorem Gathers.eqvGen_of_representative_eq (h : g.Gathers V) (hs : s ∈ g.states.items)
    (ht : t ∈ g.states.items) (heq : g.partition.representative s = g.partition.representative t) :
    Relation.EqvGen V s t := by
  obtain ⟨i, hi⟩ := Array.getElem?_of_mem hs
  obtain ⟨j, hj⟩ := Array.getElem?_of_mem ht
  obtain ⟨U, hU, hV⟩ := h.generates
  have hroots : g.forest.rootOf i = g.forest.rootOf j :=
    h.slot_unique (h.getElem?_rootOf hi) (heq ▸ h.getElem?_rootOf hj)
  have hslots := (hU.rootOf_eq_iff (h.lt_size hi) (h.lt_size hj)).mp hroots
  have hlift : ∀ c d, U c d →
      Relation.EqvGen V (g.states.items[c]?.getD 0) (g.states.items[d]?.getD 0) := by
    intro c d hcd
    obtain ⟨hc, hd⟩ := hU.lt_size c d hcd
    apply Relation.EqvGen.rel
    rw [h.size_eq] at hc hd
    refine (hV _ _).mpr ⟨c, d, hcd, ?_, ?_⟩
    · simp [Array.getElem?_eq_getElem (show c < g.states.items.size from hc)]
    · simp [Array.getElem?_eq_getElem (show d < g.states.items.size from hd)]
  have hstates := eqvGen_lift (Relation.EqvGen.is_equivalence V) hlift hslots
  simpa [hi, hj] using hstates

theorem Gathers.representative_eq_iff (h : g.Gathers V) (s t : StateId) :
    g.partition.representative s = g.partition.representative t ↔ Relation.EqvGen V s t := by
  constructor
  · intro heq
    by_cases hs : s ∈ g.states.items
    · by_cases ht : t ∈ g.states.items
      · exact h.eqvGen_of_representative_eq hs ht heq
      · rw [representative_eq_self ht] at heq
        exact absurd (heq ▸ h.representative_mem hs) ht
    · by_cases ht : t ∈ g.states.items
      · rw [representative_eq_self hs] at heq
        exact absurd (heq ▸ h.representative_mem ht) hs
      · rw [representative_eq_self hs, representative_eq_self ht] at heq
        exact heq ▸ .refl s
  · apply eqvGen_lift eq_equivalence
    intro a b hab
    obtain ⟨U, hU, hV⟩ := h.generates
    obtain ⟨i, j, hij, hi, hj⟩ := (hV a b).mp hab
    have ha := h.getElem?_rootOf hi
    rw [hU.joined i j hij, h.getElem?_rootOf hj] at ha
    exact (Option.some.inj ha).symm

end Gathering

namespace Partition

variable {pairs : List (NodeId × StateId × StateId)} {status : NodeId → Status}

theorem mem_states_ofPairs {s : StateId} :
    s ∈ (ofPairs pairs status).states.toList ↔ ∃ p ∈ pairs, s = p.2.1 ∨ s = p.2.2 := by
  have hempty : s ∉ ({} : Gathering).states.items := by simp
  rw [Numbering.toList, Array.mem_toList_iff]
  exact (Gathering.mem_foldl_addPair pairs status {} s).trans (or_iff_right hempty)

theorem representative_ofPairs_eq_iff {s t : StateId} :
    (ofPairs pairs status).representative s = (ofPairs pairs status).representative t ↔
      Relation.EqvGen (Gathering.United pairs status) s t := by
  have h := Gathering.gathers_empty.foldl pairs status
  simp only [false_or] at h
  exact h.representative_eq_iff s t

end Partition

end ProcessLogic
