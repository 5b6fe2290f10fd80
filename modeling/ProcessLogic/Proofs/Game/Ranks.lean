import ProcessLogic.Proofs.Game.Forest

/-!
# Forests under any calls

Slots may be added, found and united in any order. Whatever was called before, both loops of a
search come to an end, and two slots have the same root exactly if they are in the least equivalence
that contains the united pairs. Searches leave the roots and the ranks alone. A rank grows only where
two sets of that rank become one, so a root of rank `r` has at least `2 ^ r` slots below it, and with
fewer than `2 ^ 64` slots all ranks fit into a byte.
-/

set_option autoImplicit false

namespace ProcessLogic.Forest

variable {f f' : Forest} {a b c r : Nat} {ranks : Table Nat}

/-- Slots on the way up are hung below the root, until one is there already. -/
inductive Shortens (root : Nat) : Nat → Forest → Forest → Prop where
  | done {a : Nat} {f : Forest} : f.parent a = root → Shortens root a f f
  | step {a : Nat} {f f' : Forest} : f.parent a ≠ root →
      Shortens root (f.parent a) (f.hang a root f.ranks) f' → Shortens root a f f'

theorem higher_hang : (f.hang a b f.ranks).higher c = f.higher c := by
  unfold higher
  rw [size_hang]
  rfl

theorem shortens_compress (hf : f.Ranked) {fuel : Nat} (ha : a < f.size) (h : Climbs f a r)
    (hfuel : (f.higher a).card ≤ fuel) : Shortens r a f (compress r fuel a f) := by
  induction fuel generalizing f a with
  | zero =>
    -- nothing is higher than `a`, so it is the root itself
    have hroot : f.parent a = a := by
      by_contra hne
      have hlt := card_higher_parent_lt hf ha hne
      omega
    apply Shortens.done
    rw [hroot, h.eq_of_root hroot]
  | succ fuel ih =>
    unfold compress
    split
    · next hparent => exact .done hparent
    · next hparent =>
      have hne : a ≠ r := fun heq => hparent (heq ▸ h.isRoot)
      have hnotRoot : f.parent a ≠ a := fun hroot => hne (h.eq_of_root hroot).symm
      have hlt := card_higher_parent_lt hf ha hnotRoot
      have hkeeps := Keeps.hang hf ha h hne
      apply Shortens.step hparent
      apply ih hkeeps.ranked (hkeeps.size_eq ▸ hf.parent_lt a ha) (hkeeps.climbs _ _ (h.parent hne))
      rw [higher_hang]
      omega

theorem shortens_find (hf : f.Ranked) (ha : a < f.size) :
    Shortens (f.find a).1 a f (f.find a).2 :=
  shortens_compress hf ha (climbs_rootOf hf ha) (Nat.le_of_lt (card_higher_lt_size ha))

def members (f : Forest) (r : Nat) : Finset Nat :=
  (Finset.range f.size).filter fun a => f.rootOf a = r

theorem mem_members : a ∈ f.members r ↔ a < f.size ∧ f.rootOf a = r := by
  simp [members]

theorem card_members_le (f : Forest) (r : Nat) : (f.members r).card ≤ f.size :=
  (Finset.card_le_card (Finset.filter_subset _ _)).trans_eq (Finset.card_range f.size)

/-- A root of rank `r` has at least `2 ^ r` slots below it. -/
def Populous (f : Forest) : Prop :=
  ∀ r, r < f.size → f.parent r = r → 2 ^ f.rank r ≤ (f.members r).card

theorem rootOf_of_root (hf : f.Ranked) (hr : r < f.size) (hroot : f.parent r = r) :
    f.rootOf r = r :=
  (Climbs.root hroot).rootOf_eq hf hr

theorem populous_empty : Populous {} := fun r hr => absurd hr (Nat.not_lt_zero r)

theorem Populous.add (h : f.Populous) (hf : f.Ranked) : f.add.Populous := by
  intro r hr hroot
  rw [size_add] at hr
  rw [parent_add] at hroot
  rw [rank_add]
  rcases Nat.lt_succ_iff_lt_or_eq.mp hr with hr | rfl
  · apply (h r hr hroot).trans
    apply Finset.card_le_card
    intro a ha
    obtain ⟨hlt, heq⟩ := mem_members.mp ha
    rw [mem_members, size_add, rootOf_add hf hlt]
    exact ⟨Nat.lt_succ_of_lt hlt, heq⟩
  · have hrank : f.rank f.size = 0 := by
      have hsize : ¬ f.size < f.ranks.size := by rw [hf.ranks_size]; exact Nat.lt_irrefl _
      simp [rank, hsize]
    have hmem : f.size ∈ f.add.members f.size :=
      mem_members.mpr ⟨size_add ▸ Nat.lt_succ_self _, rootOf_add_size hf⟩
    rw [hrank]
    exact Finset.card_pos.mpr ⟨_, hmem⟩

theorem Keeps.members_eq (h : Keeps f f') (hf : f.Ranked) : f'.members r = f.members r := by
  ext a
  rw [mem_members, mem_members, h.size_eq]
  apply and_congr_right
  intro ha
  rw [h.rootOf_eq hf ha]

theorem Populous.keeps (h : f.Populous) (hf : f.Ranked) (hkeeps : Keeps f f') : f'.Populous := by
  intro r hr hroot
  have hr' : r < f.size := hkeeps.size_eq ▸ hr
  -- a root that is kept was one before
  have hold : f.parent r = r := by
    have hsame := hkeeps.rootOf_eq hf hr'
    rw [rootOf_of_root hkeeps.ranked hr hroot] at hsame
    have hclimbs := (climbs_rootOf hf hr').isRoot
    rwa [← hsame] at hclimbs
  have hrank : f'.rank r = f.rank r := by rw [rank, hkeeps.ranks_eq]; rfl
  rw [hrank, hkeeps.members_eq hf]
  exact h r hr' hold

theorem mem_members_hang (hf : f.Ranked) (ha : a < f.size) (hb : b < f.size) (hra : f.parent a = a)
    (hrb : f.parent b = b) (hne : a ≠ b) (hraises : Raises f a b ranks) :
    c ∈ (f.hang a b ranks).members r ↔
      c < f.size ∧ (if f.rootOf c = a then b else f.rootOf c) = r := by
  rw [mem_members, size_hang]
  apply and_congr_right
  intro hc
  have hclimbs : Climbs (f.hang a b ranks) c _ := (climbs_rootOf hf hc).hang ha hrb hne (.inl hra)
  rw [hclimbs.rootOf_eq (hf.hang ha hb hrb hne hraises) (size_hang.symm ▸ hc)]

/-- The slots of two sets are in one of them now, so their numbers add up. -/
theorem Populous.hang (h : f.Populous) (hf : f.Ranked) (ha : a < f.size) (hb : b < f.size)
    (hra : f.parent a = a) (hrb : f.parent b = b) (hne : a ≠ b) (hraises : Raises f a b ranks) :
    (f.hang a b ranks).Populous := by
  intro r hr hroot
  rw [size_hang] at hr
  rw [parent_hang ha] at hroot
  have hmem : ∀ {c}, c ∈ (f.hang a b ranks).members r ↔ _ :=
    mem_members_hang hf ha hb hra hrb hne hraises
  have hrank : (f.hang a b ranks).rank r = ranks[r]?.getD 0 := rfl
  rw [hrank]
  split at hroot
  · next hr => exact absurd (hr.symm.trans hroot.symm) hne
  · next hra' =>
    by_cases hrb' : r = b
    · subst hrb'
      have hdisjoint : Disjoint (f.members a) (f.members r) := by
        apply Finset.disjoint_left.mpr
        intro c hca hcr
        exact hne ((mem_members.mp hca).2.symm.trans (mem_members.mp hcr).2)
      calc
        2 ^ (ranks[r]?.getD 0) ≤ 2 ^ f.rank a + 2 ^ f.rank r := hraises.pow_le
        _ ≤ (f.members a).card + (f.members r).card := Nat.add_le_add (h a ha hra) (h r hb hrb)
        _ = (f.members a ∪ f.members r).card := (Finset.card_union_of_disjoint hdisjoint).symm
        _ ≤ ((f.hang a r ranks).members r).card := by
          apply Finset.card_le_card
          intro c hc
          rcases Finset.mem_union.mp hc with hc | hc
          · obtain ⟨hlt, heq⟩ := mem_members.mp hc
            exact hmem.mpr ⟨hlt, if_pos heq⟩
          · obtain ⟨hlt, heq⟩ := mem_members.mp hc
            exact hmem.mpr ⟨hlt, by rw [heq, if_neg hra']⟩
    · rw [hraises.rank_eq r hrb']
      apply (h r hr hroot).trans
      apply Finset.card_le_card
      intro c hc
      obtain ⟨hlt, heq⟩ := mem_members.mp hc
      exact hmem.mpr ⟨hlt, by rw [heq, if_neg hra']⟩

theorem Populous.link (h : f.Populous) (hf : f.Ranked) (ha : a < f.size) (hb : b < f.size)
    (hra : f.parent a = a) (hrb : f.parent b = b) : (f.link a b).Populous := by
  by_cases heq : a = b
  · have hlink : f.link a b = f := if_pos heq
    rwa [hlink]
  · rcases link_cases hf ha heq with ⟨ranks, hlink, hraises⟩ | ⟨ranks, hlink, hraises⟩
    · rw [hlink]
      exact h.hang hf ha hb hra hrb heq hraises
    · rw [hlink]
      exact h.hang hf hb ha hrb hra (Ne.symm heq) hraises

theorem Populous.union (h : f.Populous) (hf : f.Ranked) (ha : a < f.size) (hb : b < f.size) :
    (f.union a b).Populous := by
  obtain ⟨g, hkeeps, hunion⟩ := exists_union_eq_link hf ha hb
  obtain ⟨hlta, hra⟩ := hkeeps.root hf ha
  obtain ⟨hltb, hrb⟩ := hkeeps.root hf hb
  rw [hunion]
  exact (h.keeps hf hkeeps).link hkeeps.ranked hlta hltb hra hrb

/-- Ranks are at most the logarithm of the number of slots. -/
theorem Populous.pow_rank_le (h : f.Populous) (hf : f.Ranked) (ha : a < f.size) :
    2 ^ f.rank a ≤ f.size := by
  have hclimbs := climbs_rootOf hf ha
  calc
    2 ^ f.rank a ≤ 2 ^ f.rank (f.rootOf a) :=
      Nat.pow_le_pow_right (by decide) (hclimbs.rank_le hf)
    _ ≤ (f.members (f.rootOf a)).card := h _ (rootOf_lt_size hf ha) hclimbs.isRoot
    _ ≤ f.size := f.card_members_le _

inductive Call where
  | add
  | find (slot : Nat)
  | union (a b : Nat)
deriving DecidableEq, Repr

/-- The forest after a call, if the slots that it names exist. -/
def Call.run? (f : Forest) : Call → Option Forest
  | .add => some f.add
  | .find slot => if slot < f.size then some (f.find slot).2 else none
  | .union a b => if a < f.size ∧ b < f.size then some (f.union a b) else none

/-- What holds of a forest after some calls. -/
structure Built (calls : List Call) (f : Forest) : Prop where
  generates : f.Generates fun a b => Call.union a b ∈ calls
  populous : f.Populous

theorem Generates.congr {U V : Nat → Nat → Prop} (h : f.Generates U) (hiff : ∀ a b, U a b ↔ V a b) :
    f.Generates V := by
  obtain rfl : U = V := by
    funext a b
    exact propext (hiff a b)
  exact h

theorem Generates.keeps {U : Nat → Nat → Prop} (h : f.Generates U) (hkeeps : Keeps f f') :
    f'.Generates U where
  ranked := hkeeps.ranked
  lt_size := hkeeps.size_eq ▸ h.lt_size
  joined := by
    intro a b hab
    obtain ⟨ha, hb⟩ := h.lt_size a b hab
    rw [hkeeps.rootOf_eq h.ranked ha, hkeeps.rootOf_eq h.ranked hb]
    exact h.joined a b hab
  sound := by
    intro a b ha hb heq
    rw [hkeeps.size_eq] at ha hb
    rw [hkeeps.rootOf_eq h.ranked ha, hkeeps.rootOf_eq h.ranked hb] at heq
    exact h.sound a b ha hb heq

theorem Built.call {calls : List Call} {call : Call} (h : Built calls f)
    (hrun : call.run? f = some f') : Built (calls ++ [call]) f' := by
  have hranked := h.generates.ranked
  cases call with
  | add =>
    obtain rfl := Option.some.inj hrun
    exact ⟨h.generates.add.congr (by simp), h.populous.add hranked⟩
  | find slot =>
    obtain ⟨hslot, hrun⟩ := Option.ite_none_right_eq_some.mp hrun
    obtain rfl := Option.some.inj hrun
    have hkeeps := keeps_find hranked hslot
    exact ⟨(h.generates.keeps hkeeps).congr (by simp), h.populous.keeps hranked hkeeps⟩
  | union a b =>
    obtain ⟨⟨ha, hb⟩, hrun⟩ := Option.ite_none_right_eq_some.mp hrun
    obtain rfl := Option.some.inj hrun
    exact ⟨(h.generates.union ha hb).congr (by simp), h.populous.union hranked ha hb⟩

theorem built_of_calls {calls : List Call} (h : calls.foldlM Call.run? {} = some f) :
    Built calls f := by
  induction calls using List.reverseRecOn generalizing f with
  | nil =>
    obtain rfl := Option.some.inj h
    exact ⟨generates_empty.congr (by simp), populous_empty⟩
  | append_singleton calls call ih =>
    rw [List.foldlM_append] at h
    obtain ⟨g, hg, hcall⟩ := Option.bind_eq_some_iff.mp h
    exact (ih hg).call (by simpa using hcall)

/-- After any calls a search ends and tells the sets of the least equivalence apart, changes neither
them nor the ranks, and the ranks are small. -/
theorem find_of_calls {calls : List Call} (h : calls.foldlM Call.run? {} = some f)
    (hsize : f.size < 2 ^ 64) :
    (∀ a, a < f.size →
      Climbs f a (f.find a).1 ∧ Shortens (f.find a).1 a f (f.find a).2) ∧
    (∀ a b, a < f.size → b < f.size → ((f.find a).1 = ((f.find a).2.find b).1 ↔
      Relation.EqvGen (fun c d => Call.union c d ∈ calls) a b)) ∧
    (∀ a b, a < f.size → b < f.size →
      ((f.find a).2.find b).1 = (f.find b).1 ∧ (f.find a).2.rank b = f.rank b) ∧
    (∀ r, r < f.size → f.parent r = r → 2 ^ f.rank r ≤ (f.members r).card) ∧
    ∀ a, a < f.size → f.rank a + 1 < 2 ^ 8 := by
  obtain ⟨hgenerates, hpopulous⟩ := built_of_calls h
  have hranked := hgenerates.ranked
  have hfind : ∀ a b, a < f.size → b < f.size → ((f.find a).2.find b).1 = (f.find b).1 :=
    fun a b ha hb => (keeps_find hranked ha).rootOf_eq hranked hb
  refine ⟨?_, ?_, ?_, hpopulous, ?_⟩
  · exact fun a ha => ⟨climbs_rootOf hranked ha, shortens_find hranked ha⟩
  · intro a b ha hb
    rw [hfind a b ha hb]
    exact hgenerates.rootOf_eq_iff ha hb
  · intro a b ha hb
    refine ⟨hfind a b ha hb, ?_⟩
    rw [rank, (keeps_find hranked ha).ranks_eq]
    rfl
  · intro a ha
    have hpow : 2 ^ f.rank a < 2 ^ 64 := (hpopulous.pow_rank_le hranked ha).trans_lt hsize
    have hrank : f.rank a < 64 := (Nat.pow_lt_pow_iff_right (by decide)).mp hpow
    omega

/-- Two sets of two slots become one of rank two, which then takes in another slot. -/
def Call.merging : List Call :=
  [.add, .add, .add, .add, .add, .union 0 1, .union 2 3, .union 3 1, .find 0, .add, .union 4 0]

def merged : Forest := ⟨#[2, 0, 2, 2, 2, 5], #[1, 0, 2, 0, 0, 0]⟩

theorem find_of_calls_merging : Call.merging.foldlM Call.run? {} = some merged ∧
    merged.size < 2 ^ 64 ∧ Climbs merged 1 2 ∧
    Shortens 2 1 merged ⟨#[2, 2, 2, 2, 2, 5], merged.ranks⟩ ∧
    Relation.EqvGen (fun c d => Call.union c d ∈ Call.merging) 1 4 ∧
    ¬ Relation.EqvGen (fun c d => Call.union c d ∈ Call.merging) 1 5 ∧
    2 ^ merged.rank 2 ≤ (merged.members 2).card ∧ merged.rank 2 + 1 < 2 ^ 8 := by
  have hrun : Call.merging.foldlM Call.run? {} = some merged := by decide
  have hsize : merged.size < 2 ^ 64 := by decide
  obtain ⟨hends, hiff, -, hmembers, hrank⟩ := find_of_calls hrun hsize
  obtain ⟨hclimbs, hshortens⟩ := hends 1 (by decide)
  exact ⟨hrun, hsize, hclimbs, hshortens, (hiff 1 4 (by decide) (by decide)).mp (by decide),
    mt (hiff 1 5 (by decide) (by decide)).mpr (by decide), hmembers 2 (by decide) (by decide),
    hrank 2 (by decide)⟩

end ProcessLogic.Forest
