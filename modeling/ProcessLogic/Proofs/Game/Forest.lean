import Mathlib
import ProcessLogic.Game.Forest

/-!
# Roots of a forest

Ranks grow on the way from a slot to its root, so every way ends, within the number of slots.
Finding a root shortens ways and keeps the roots; a union gives the slots below two roots one of
them. Two slots therefore have one root exactly if they are in the least equivalence that contains
the pairs united so far.
-/

set_option autoImplicit false

namespace ProcessLogic

theorem eqvGen_lift {α β : Type} {r : α → α → Prop} {s : β → β → Prop} (hs : Equivalence s)
    {f : α → β} (h : ∀ a b, r a b → s (f a) (f b)) {a b : α} (hab : Relation.EqvGen r a b) :
    s (f a) (f b) :=
  (hs.comap f).eqvGen_iff.mp (Relation.EqvGen.mono h a b hab)

namespace Forest

/-- The way from a slot to its root. -/
inductive Climbs (f : Forest) : Nat → Nat → Prop where
  | root {a : Nat} : f.parent a = a → Climbs f a a
  | up {a r : Nat} : Climbs f (f.parent a) r → Climbs f a r

structure Ranked (f : Forest) : Prop where
  ranks_size : f.ranks.size = f.size
  parent_lt : ∀ a, a < f.size → f.parent a < f.size
  rank_lt : ∀ a, f.parent a ≠ a → f.rank a < f.rank (f.parent a)

variable {f f' f'' : Forest} {a b c d r r' : Nat} {ranks : Table Nat}

theorem Climbs.isRoot (h : Climbs f a r) : f.parent r = r := by
  induction h with
  | root ha => exact ha
  | up _ ih => exact ih

theorem Climbs.eq_of_root (h : Climbs f a r) (ha : f.parent a = a) : r = a := by
  induction h with
  | root _ => rfl
  | up _ ih =>
    rw [ha] at ih
    exact ih ha

theorem Climbs.parent (h : Climbs f a r) (hne : a ≠ r) : Climbs f (f.parent a) r := by
  cases h with
  | root _ => exact absurd rfl hne
  | up hup => exact hup

theorem Climbs.unique (h : Climbs f a r) (h' : Climbs f a r') : r = r' := by
  induction h with
  | root ha => exact (h'.eq_of_root ha).symm
  | up hup ih =>
    cases h' with
    | root ha =>
      rw [ha] at hup
      exact hup.eq_of_root ha
    | up hup' => exact ih hup'

theorem Climbs.lt_size (h : Climbs f a r) (hf : f.Ranked) (ha : a < f.size) : r < f.size := by
  induction h with
  | root _ => exact ha
  | up _ ih => exact ih (hf.parent_lt _ ha)

theorem Climbs.rank_le (h : Climbs f a r) (hf : f.Ranked) : f.rank a ≤ f.rank r := by
  induction h with
  | root _ => exact Nat.le_refl _
  | @up a r _ ih =>
    by_cases ha : f.parent a = a
    · rwa [ha] at ih
    · exact (Nat.le_of_lt (hf.rank_lt a ha)).trans ih

theorem Climbs.rank_lt (h : Climbs f a r) (hf : f.Ranked) (hne : a ≠ r) : f.rank a < f.rank r := by
  cases h with
  | root _ => exact absurd rfl hne
  | up hup =>
    by_cases ha : f.parent a = a
    · rw [ha] at hup
      exact absurd (hup.eq_of_root ha).symm hne
    · exact (hf.rank_lt a ha).trans_le (hup.rank_le hf)

/-- The slots of higher rank: a way from `a` meets no other ones. -/
def higher (f : Forest) (a : Nat) : Finset Nat :=
  (Finset.range f.size).filter fun b => f.rank a < f.rank b

theorem card_higher_lt_size (ha : a < f.size) : (f.higher a).card < f.size := by
  have hsub : f.higher a ⊂ Finset.range f.size :=
    Finset.filter_ssubset.mpr ⟨a, Finset.mem_range.mpr ha, Nat.lt_irrefl _⟩
  simpa using Finset.card_lt_card hsub

theorem card_higher_parent_lt (hf : f.Ranked) (ha : a < f.size) (hne : f.parent a ≠ a) :
    (f.higher (f.parent a)).card < (f.higher a).card := by
  have hrank := hf.rank_lt a hne
  have hsub : f.higher (f.parent a) ⊆ f.higher a := by
    intro b hb
    obtain ⟨hlt, hb⟩ := Finset.mem_filter.mp hb
    exact Finset.mem_filter.mpr ⟨hlt, hrank.trans hb⟩
  apply Finset.card_lt_card
  apply (Finset.ssubset_iff_of_subset hsub).mpr
  refine ⟨f.parent a, ?_, ?_⟩
  · exact Finset.mem_filter.mpr ⟨Finset.mem_range.mpr (hf.parent_lt a ha), hrank⟩
  · simp [higher]

theorem climbs_climb (hf : f.Ranked) {fuel : Nat} (ha : a < f.size)
    (hfuel : (f.higher a).card ≤ fuel) : Climbs f a (f.climb fuel a) := by
  induction fuel generalizing a with
  | zero =>
    apply Climbs.root
    by_contra hne
    have hlt := card_higher_parent_lt hf ha hne
    omega
  | succ fuel ih =>
    unfold climb
    split
    · next hroot => exact .root hroot
    · next hne =>
      have hlt := card_higher_parent_lt hf ha hne
      exact .up (ih (hf.parent_lt a ha) (by omega))

theorem climbs_rootOf (hf : f.Ranked) (ha : a < f.size) : Climbs f a (f.rootOf a) :=
  climbs_climb hf ha (Nat.le_of_lt (card_higher_lt_size ha))

theorem Climbs.rootOf_eq (h : Climbs f a r) (hf : f.Ranked) (ha : a < f.size) : f.rootOf a = r :=
  (climbs_rootOf hf ha).unique h

theorem rootOf_lt_size (hf : f.Ranked) (ha : a < f.size) : f.rootOf a < f.size :=
  (climbs_rootOf hf ha).lt_size hf ha

def hang (f : Forest) (a b : Nat) (ranks : Table Nat) : Forest :=
  ⟨f.parents.setIfInBounds a b, ranks⟩

theorem size_hang : (f.hang a b ranks).size = f.size := Array.size_setIfInBounds

theorem parent_hang (ha : a < f.size) :
    (f.hang a b ranks).parent c = if c = a then b else f.parent c := by
  have ha : a < f.parents.size := ha
  unfold parent hang
  rw [Array.getElem?_setIfInBounds]
  by_cases hc : a = c
  · subst hc
    simp [ha]
  · rw [if_neg hc, if_neg (Ne.symm hc)]

/-- Ranks that fit once `a` hangs below `b`: only `b` may have risen, and no further than the slots
below both allow. -/
structure Raises (f : Forest) (a b : Nat) (ranks : Table Nat) : Prop where
  size_eq : ranks.size = f.size
  rank_eq : ∀ c, c ≠ b → ranks[c]?.getD 0 = f.rank c
  rank_le : f.rank b ≤ ranks[b]?.getD 0
  rank_lt : f.rank a < ranks[b]?.getD 0
  pow_le : 2 ^ (ranks[b]?.getD 0) ≤ 2 ^ f.rank a + 2 ^ f.rank b

theorem Raises.of_lt (hf : f.Ranked) (h : f.rank a < f.rank b) : Raises f a b f.ranks :=
  ⟨hf.ranks_size, fun _ _ => rfl, Nat.le_refl _, h, Nat.le_add_left _ _⟩

theorem Raises.of_eq (hf : f.Ranked) (hb : b < f.size) (h : f.rank a = f.rank b) :
    Raises f a b (f.ranks.setIfInBounds b (f.rank b + 1)) := by
  have hb : b < f.ranks.size := hf.ranks_size ▸ hb
  have hraised : (f.ranks.setIfInBounds b (f.rank b + 1))[b]?.getD 0 = f.rank b + 1 := by
    simp [hb]
  refine ⟨Array.size_setIfInBounds.trans hf.ranks_size, ?_, ?_, ?_, ?_⟩
  · intro c hc
    rw [Array.getElem?_setIfInBounds_ne (Ne.symm hc)]
    rfl
  · omega
  · omega
  · rw [hraised, h, Nat.pow_succ]
    omega

/-- Of two slots the one of lower rank is hung below the other, which rises if they are equal. -/
theorem link_cases (hf : f.Ranked) (ha : a < f.size) (hne : a ≠ b) :
    (∃ ranks, f.link a b = f.hang a b ranks ∧ Raises f a b ranks) ∨
      ∃ ranks, f.link a b = f.hang b a ranks ∧ Raises f b a ranks := by
  unfold link
  rw [if_neg hne]
  split
  · next hlt => exact .inl ⟨f.ranks, rfl, .of_lt hf hlt⟩
  · next hle =>
    split
    · next hlt => exact .inr ⟨f.ranks, rfl, .of_lt hf hlt⟩
    · next hge => exact .inr ⟨_, rfl, .of_eq hf ha (by omega)⟩

theorem Ranked.hang (hf : f.Ranked) (ha : a < f.size) (hb : b < f.size) (hroot : f.parent b = b)
    (hne : a ≠ b) (h : Raises f a b ranks) : (f.hang a b ranks).Ranked := by
  have hrank : ∀ c, (f.hang a b ranks).rank c = ranks[c]?.getD 0 := fun _ => rfl
  have hle : ∀ c, f.rank c ≤ ranks[c]?.getD 0 := by
    intro c
    by_cases hc : c = b
    · exact hc ▸ h.rank_le
    · exact Nat.le_of_eq (h.rank_eq c hc).symm
  refine ⟨h.size_eq.trans size_hang.symm, ?_, ?_⟩
  · intro c hc
    rw [size_hang] at hc ⊢
    rw [parent_hang ha]
    split
    · exact hb
    · exact hf.parent_lt c hc
  · intro c hc
    rw [parent_hang ha] at hc ⊢
    rw [hrank, hrank]
    split at hc
    · next hca =>
      rw [if_pos hca, hca, h.rank_eq a hne]
      exact h.rank_lt
    · next hca =>
      have hcb : c ≠ b := fun heq => hc (heq ▸ hroot)
      rw [if_neg hca, h.rank_eq c hcb]
      exact (hf.rank_lt c hc).trans_le (hle _)

/-- Every slot keeps its root, except that what was below `a`, if `a` was a root, is now
below `b`. -/
theorem Climbs.hang (hc : Climbs f c r) (ha : a < f.size) (hroot : f.parent b = b) (hne : a ≠ b)
    (h : f.parent a = a ∨ Climbs f a b) :
    Climbs (f.hang a b ranks) c (if r = a then b else r) := by
  have hbelow : Climbs (f.hang a b ranks) a b := by
    apply Climbs.up
    rw [parent_hang ha, if_pos rfl]
    apply Climbs.root
    rw [parent_hang ha, if_neg (Ne.symm hne), hroot]
  induction hc with
  | @root c hc =>
    by_cases hca : c = a
    · rw [if_pos hca, hca]
      exact hbelow
    · rw [if_neg hca]
      apply Climbs.root
      rw [parent_hang ha, if_neg hca, hc]
  | @up c r hup ih =>
    by_cases hca : c = a
    · subst hca
      rcases h with hca | hcb
      · rwa [hca] at ih
      · rw [(Climbs.up hup).unique hcb, ite_self]
        exact hbelow
    · apply Climbs.up
      rwa [parent_hang ha, if_neg hca]

structure Keeps (f f' : Forest) : Prop where
  ranked : f'.Ranked
  size_eq : f'.size = f.size
  ranks_eq : f'.ranks = f.ranks
  climbs : ∀ a r, Climbs f a r → Climbs f' a r

theorem Keeps.refl (hf : f.Ranked) : Keeps f f := ⟨hf, rfl, rfl, fun _ _ h => h⟩

theorem Keeps.trans (h : Keeps f f') (h' : Keeps f' f'') : Keeps f f'' where
  ranked := h'.ranked
  size_eq := h'.size_eq.trans h.size_eq
  ranks_eq := h'.ranks_eq.trans h.ranks_eq
  climbs := fun a r ha => h'.climbs a r (h.climbs a r ha)

theorem Keeps.rootOf_eq (h : Keeps f f') (hf : f.Ranked) (ha : a < f.size) :
    f'.rootOf a = f.rootOf a :=
  (h.climbs _ _ (climbs_rootOf hf ha)).rootOf_eq h.ranked (h.size_eq ▸ ha)

theorem Keeps.hang (hf : f.Ranked) (ha : a < f.size) (h : Climbs f a r) (hne : a ≠ r) :
    Keeps f (f.hang a r f.ranks) := by
  have hraises := Raises.of_lt hf (h.rank_lt hf hne)
  refine ⟨hf.hang ha (h.lt_size hf ha) h.isRoot hne hraises, size_hang, rfl, ?_⟩
  intro c r' hc
  have hr' : r' ≠ a := fun heq => hne (h.eq_of_root (heq ▸ hc.isRoot)).symm
  have hhang : Climbs (f.hang a r f.ranks) c _ := hc.hang ha h.isRoot hne (.inr h)
  rwa [if_neg hr'] at hhang

theorem keeps_compress (hf : f.Ranked) (ha : a < f.size) (h : Climbs f a r) (fuel : Nat) :
    Keeps f (compress r fuel a f) := by
  induction fuel generalizing f a with
  | zero => exact .refl hf
  | succ fuel ih =>
    unfold compress
    split
    · exact .refl hf
    · next hparent =>
      -- a root would be its own parent
      have hne : a ≠ r := fun heq => hparent (heq ▸ h.isRoot)
      have hhang := Keeps.hang hf ha h hne
      apply hhang.trans
      exact ih hhang.ranked (hhang.size_eq ▸ hf.parent_lt a ha) (hhang.climbs _ _ (h.parent hne))

theorem keeps_find (hf : f.Ranked) (ha : a < f.size) : Keeps f (f.find a).2 :=
  keeps_compress hf ha (climbs_rootOf hf ha) f.size

/-- One of the roots `a` and `b` takes the slots of both. -/
structure Joins (f f' : Forest) (a b : Nat) : Prop where
  ranked : f'.Ranked
  size_eq : f'.size = f.size
  climbs : ∃ r, (r = a ∨ r = b) ∧
    ∀ c s, Climbs f c s → Climbs f' c (if s = a ∨ s = b then r else s)

theorem Joins.comm (h : Joins f f' a b) : Joins f f' b a := by
  obtain ⟨r, hr, hclimbs⟩ := h.climbs
  refine ⟨h.ranked, h.size_eq, r, hr.symm, ?_⟩
  intro c s hc
  simpa only [or_comm] using hclimbs c s hc

theorem Joins.hang (hf : f.Ranked) (ha : a < f.size) (hb : b < f.size) (hra : f.parent a = a)
    (hrb : f.parent b = b) (hne : a ≠ b) (h : Raises f a b ranks) :
    Joins f (f.hang a b ranks) a b := by
  refine ⟨hf.hang ha hb hrb hne h, size_hang, b, .inr rfl, ?_⟩
  intro c s hc
  have hhang : Climbs (f.hang a b ranks) c _ := hc.hang ha hrb hne (.inl hra)
  by_cases hs : s = b
  · rw [if_pos (.inr hs)]
    rwa [hs, if_neg (Ne.symm hne)] at hhang
  · simpa [hs] using hhang

theorem joins_link (hf : f.Ranked) (ha : a < f.size) (hb : b < f.size) (hra : f.parent a = a)
    (hrb : f.parent b = b) : Joins f (f.link a b) a b := by
  by_cases heq : a = b
  · have hlink : f.link a b = f := if_pos heq
    rw [hlink]
    refine ⟨hf, rfl, a, .inl rfl, ?_⟩
    intro c s hc
    by_cases hs : s = a
    · simpa [hs] using hs ▸ hc
    · simpa [hs, ← heq] using hc
  · rcases link_cases hf ha heq with ⟨ranks, hlink, hraises⟩ | ⟨ranks, hlink, hraises⟩
    · rw [hlink]
      exact .hang hf ha hb hra hrb heq hraises
    · rw [hlink]
      exact (Joins.hang hf hb ha hrb hra (Ne.symm heq) hraises).comm

theorem Keeps.joins (h : Keeps f f') (h' : Joins f' f'' a b) : Joins f f'' a b := by
  obtain ⟨r, hr, hclimbs⟩ := h'.climbs
  exact ⟨h'.ranked, h'.size_eq.trans h.size_eq, r, hr, fun c s hc => hclimbs c s (h.climbs c s hc)⟩

/-- A union links the two roots, once finding them has shortened ways. -/
theorem exists_union_eq_link (hf : f.Ranked) (ha : a < f.size) (hb : b < f.size) :
    ∃ g, Keeps f g ∧ f.union a b = g.link (f.rootOf a) (f.rootOf b) := by
  have hfirst := keeps_find hf ha
  have hboth := hfirst.trans (keeps_find hfirst.ranked (hfirst.size_eq ▸ hb))
  refine ⟨_, hboth, ?_⟩
  rw [← hfirst.rootOf_eq hf hb]
  rfl

theorem Keeps.root (h : Keeps f f') (hf : f.Ranked) (ha : a < f.size) :
    f.rootOf a < f'.size ∧ f'.parent (f.rootOf a) = f.rootOf a :=
  ⟨h.size_eq ▸ rootOf_lt_size hf ha, (h.climbs a _ (climbs_rootOf hf ha)).isRoot⟩

theorem joins_union (hf : f.Ranked) (ha : a < f.size) (hb : b < f.size) :
    Joins f (f.union a b) (f.rootOf a) (f.rootOf b) := by
  obtain ⟨g, hkeeps, hunion⟩ := exists_union_eq_link hf ha hb
  obtain ⟨hlta, hra⟩ := hkeeps.root hf ha
  obtain ⟨hltb, hrb⟩ := hkeeps.root hf hb
  rw [hunion]
  exact hkeeps.joins (joins_link hkeeps.ranked hlta hltb hra hrb)

theorem Joins.rootOf_eq_iff (h : Joins f f' a b) (hf : f.Ranked) (hc : c < f.size)
    (hd : d < f.size) :
    f'.rootOf c = f'.rootOf d ↔ f.rootOf c = f.rootOf d ∨
      (f.rootOf c = a ∧ f.rootOf d = b) ∨ (f.rootOf c = b ∧ f.rootOf d = a) := by
  obtain ⟨r, hr, hclimbs⟩ := h.climbs
  have hroot : ∀ e, e < f.size →
      f'.rootOf e = if f.rootOf e = a ∨ f.rootOf e = b then r else f.rootOf e :=
    fun e he => (hclimbs e _ (climbs_rootOf hf he)).rootOf_eq h.ranked (h.size_eq ▸ he)
  rw [hroot c hc, hroot d hd]
  grind

theorem parent_add : f.add.parent c = f.parent c := by
  simp only [parent, add, size, Array.getElem?_push]
  split
  · next hc => simp [hc]
  · rfl

theorem rank_add : f.add.rank c = f.rank c := by
  simp only [rank, add, Array.getElem?_push]
  split
  · next hc => simp [hc]
  · rfl

theorem size_add : f.add.size = f.size + 1 := Array.size_push _

theorem parent_size : f.parent f.size = f.size := by simp [parent, size]

theorem Climbs.add (h : Climbs f a r) : Climbs f.add a r := by
  induction h with
  | root ha => exact .root (parent_add.trans ha)
  | up _ ih =>
    apply Climbs.up
    rwa [parent_add]

theorem Ranked.add (hf : f.Ranked) : f.add.Ranked := by
  refine ⟨?_, ?_, ?_⟩
  · have hranks := hf.ranks_size
    have hsize : f.add.ranks.size = f.ranks.size + 1 := Array.size_push _
    rw [hsize, size_add, hranks]
  · intro a ha
    rw [size_add] at ha ⊢
    rw [parent_add]
    rcases Nat.lt_succ_iff_lt_or_eq.mp ha with ha | rfl
    · exact Nat.lt_succ_of_lt (hf.parent_lt a ha)
    · rw [parent_size]
      exact ha
  · intro a hne
    rw [parent_add] at hne ⊢
    rw [rank_add, rank_add]
    exact hf.rank_lt a hne

theorem rootOf_add (hf : f.Ranked) (ha : a < f.size) : f.add.rootOf a = f.rootOf a :=
  (climbs_rootOf hf ha).add.rootOf_eq hf.add (size_add ▸ Nat.lt_succ_of_lt ha)

theorem rootOf_add_size (hf : f.Ranked) : f.add.rootOf f.size = f.size :=
  (Climbs.root parent_size).add.rootOf_eq hf.add (size_add ▸ Nat.lt_succ_self _)

/-- `U` holds of the pairs united so far. -/
structure Generates (f : Forest) (U : Nat → Nat → Prop) : Prop where
  ranked : f.Ranked
  lt_size : ∀ a b, U a b → a < f.size ∧ b < f.size
  joined : ∀ a b, U a b → f.rootOf a = f.rootOf b
  sound : ∀ a b, a < f.size → b < f.size → f.rootOf a = f.rootOf b → Relation.EqvGen U a b

variable {U : Nat → Nat → Prop}

theorem Generates.rootOf_eq_iff (h : f.Generates U) (ha : a < f.size) (hb : b < f.size) :
    f.rootOf a = f.rootOf b ↔ Relation.EqvGen U a b :=
  ⟨h.sound a b ha hb, eqvGen_lift eq_equivalence h.joined⟩

theorem generates_empty : Generates {} (fun _ _ => False) where
  ranked := ⟨rfl, fun a ha => absurd ha (Nat.not_lt_zero a), fun _ ha => absurd rfl ha⟩
  lt_size := fun _ _ h => h.elim
  joined := fun _ _ h => h.elim
  sound := fun a _ ha => absurd ha (Nat.not_lt_zero a)

theorem Generates.add (h : f.Generates U) : f.add.Generates U := by
  refine ⟨h.ranked.add, ?_, ?_, ?_⟩
  · intro a b hab
    have hlt := h.lt_size a b hab
    rw [size_add]
    omega
  · intro a b hab
    have hlt := h.lt_size a b hab
    rw [rootOf_add h.ranked hlt.1, rootOf_add h.ranked hlt.2]
    exact h.joined a b hab
  · intro a b ha hb heq
    rw [size_add] at ha hb
    have hold : ∀ c, c < f.size → f.add.rootOf c = f.rootOf c ∧ f.rootOf c < f.size :=
      fun c hc => ⟨rootOf_add h.ranked hc, rootOf_lt_size h.ranked hc⟩
    have hnew := rootOf_add_size h.ranked
    rcases Nat.lt_succ_iff_lt_or_eq.mp ha with ha | rfl
    · rcases Nat.lt_succ_iff_lt_or_eq.mp hb with hb | rfl
      · rw [(hold a ha).1, (hold b hb).1] at heq
        exact h.sound a b ha hb heq
      · have := hold a ha
        omega
    · rcases Nat.lt_succ_iff_lt_or_eq.mp hb with hb | rfl
      · have := hold b hb
        omega
      · exact .refl _

theorem Generates.union (h : f.Generates U) (ha : a < f.size) (hb : b < f.size) :
    (f.union a b).Generates (fun c d => U c d ∨ (c = a ∧ d = b)) := by
  have hjoins := joins_union h.ranked ha hb
  have hiff : ∀ c d, c < f.size → d < f.size → _ :=
    fun c d hc hd => hjoins.rootOf_eq_iff h.ranked hc hd
  have hmono : ∀ {c d}, Relation.EqvGen U c d →
      Relation.EqvGen (fun c d => U c d ∨ (c = a ∧ d = b)) c d :=
    fun hcd => Relation.EqvGen.mono (fun _ _ => Or.inl) _ _ hcd
  have hnew : Relation.EqvGen (fun c d => U c d ∨ (c = a ∧ d = b)) a b := .rel _ _ (.inr ⟨rfl, rfl⟩)
  refine ⟨hjoins.ranked, ?_, ?_, ?_⟩
  · intro c d hcd
    rw [hjoins.size_eq]
    rcases hcd with hcd | ⟨rfl, rfl⟩
    · exact h.lt_size c d hcd
    · exact ⟨ha, hb⟩
  · intro c d hcd
    rcases hcd with hcd | ⟨rfl, rfl⟩
    · obtain ⟨hc, hd⟩ := h.lt_size c d hcd
      exact (hiff c d hc hd).mpr (.inl (h.joined c d hcd))
    · exact (hiff _ _ ha hb).mpr (.inr (.inl ⟨rfl, rfl⟩))
  · intro c d hc hd heq
    rw [hjoins.size_eq] at hc hd
    rcases (hiff c d hc hd).mp heq with hcd | ⟨hca, hdb⟩ | ⟨hcb, hda⟩
    · exact hmono (h.sound c d hc hd hcd)
    · have hca := hmono (h.sound c a hc ha hca)
      have hbd := hmono (h.sound d b hd hb hdb).symm
      exact (hca.trans _ _ _ hnew).trans _ _ _ hbd
    · have hcb := hmono (h.sound c b hc hb hcb)
      have had := hmono (h.sound d a hd ha hda).symm
      exact (hcb.trans _ _ _ hnew.symm).trans _ _ _ had

end Forest

end ProcessLogic
