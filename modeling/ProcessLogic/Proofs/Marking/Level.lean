import ProcessLogic.Graph.Solution
import ProcessLogic.Marking.Level
import ProcessLogic.Proofs.Graph.Unfolding
import ProcessLogic.Proofs.Tally

/-!
# Levels are least depths

At the end of the levelling a node is at most at level `k` exactly when it is satisfied by a
derivation of depth `k`. Levels in use never exceed the number of nodes: a node of level `k` comes
with `k` distinct nodes of at most that level. So a node is lowered only so often, and the work that
lowering it makes can be prepaid.
-/

set_option autoImplicit false

namespace ProcessLogic

namespace Level

variable {a b : Level} {j k : Nat}

def AtMost : Level → Nat → Prop
  | .finite n, k => n ≤ k
  | .infinite, _ => False

theorem AtMost.mono (h : a.AtMost j) (hjk : j ≤ k) : a.AtMost k := by
  cases a with
  | finite n => exact Nat.le_trans h hjk
  | infinite => exact h

theorem AtMost.exists_eq (h : a.AtMost k) : ∃ j ≤ k, a = .finite j := by
  cases a with
  | finite n => exact ⟨n, h, rfl⟩
  | infinite => exact h.elim

theorem eq_finite_iff : a = .finite k ↔ IsLeast {j | a.AtMost j} k := by
  cases a with
  | infinite =>
    constructor
    · intro h
      cases h
    · intro h
      exact h.1.elim
  | finite n =>
    constructor
    · intro h
      cases h
      exact ⟨Nat.le_refl k, fun j hj => hj⟩
    · intro h
      have hle : n ≤ k := h.1
      have hge : k ≤ n := h.2 (Nat.le_refl n)
      rw [Nat.le_antisymm hle hge]

theorem eq_infinite_iff : a = .infinite ↔ ∀ k, ¬ a.AtMost k := by
  cases a with
  | infinite => simp [AtMost]
  | finite n =>
    constructor
    · intro h
      cases h
    · intro h
      exact absurd (Nat.le_refl n) (h n)

theorem isFinite_iff : a.isFinite = true ↔ ∃ k, a.AtMost k := by
  cases a with
  | finite n => exact ⟨fun _ => ⟨n, Nat.le_refl n⟩, fun _ => rfl⟩
  | infinite => simp [isFinite, AtMost]

theorem lt_iff : a.lt b = true ↔ ∃ k, a.AtMost k ∧ ¬ b.AtMost k := by
  cases a with
  | infinite => simp [lt, AtMost]
  | finite m =>
    cases b with
    | infinite => exact ⟨fun _ => ⟨m, Nat.le_refl m, id⟩, fun _ => rfl⟩
    | finite n =>
      simp only [lt, AtMost, decide_eq_true_eq]
      constructor
      · intro h
        exact ⟨m, Nat.le_refl m, by omega⟩
      · rintro ⟨k, hm, hn⟩
        omega

theorem AtMost.of_lt (hlt : a.lt b = true) (h : b.AtMost k) : a.AtMost k := by
  obtain ⟨j, ha, hb⟩ := lt_iff.mp hlt
  apply ha.mono
  by_contra hjk
  exact hb (h.mono (by omega))

theorem AtMost.of_not_lt (hlt : ¬ a.lt b = true) (h : a.AtMost k) : b.AtMost k := by
  by_contra hb
  exact hlt (lt_iff.mpr ⟨k, h, hb⟩)

theorem atMost_max : (a.max b).AtMost k ↔ a.AtMost k ∧ b.AtMost k := by
  unfold Level.max
  split
  · next hlt => exact ⟨fun h => ⟨h.of_lt hlt, h⟩, fun h => h.2⟩
  · next hlt => exact ⟨fun h => ⟨h, h.of_not_lt hlt⟩, fun h => h.1⟩

theorem atMost_succ : a.succ.AtMost (k + 1) ↔ a.AtMost k := by
  cases a with
  | finite n => exact Nat.succ_le_succ_iff
  | infinite => exact Iff.rfl

theorem not_atMost_succ_zero : ¬ a.succ.AtMost 0 := by
  cases a with
  | finite n => exact Nat.not_succ_le_zero n
  | infinite => exact id

end Level

section

variable {level : NodeId → Level} {edge : Hyperedge} {k : Nat}

theorem atMost_highest : (highest level edge).AtMost k ↔ ∀ n ∈ edge, (level n).AtMost k := by
  have hfold : ∀ a : Level, (edge.foldl (fun h node => h.max (level node)) a).AtMost k ↔
      a.AtMost k ∧ ∀ n ∈ edge, (level n).AtMost k := by
    induction edge with
    | nil => simp
    | cons n edge ih =>
      intro a
      rw [List.foldl_cons, ih, Level.atMost_max, List.forall_mem_cons, and_assoc]
  rw [highest, hfold]
  exact and_iff_right (Nat.zero_le k)

/-- A positive highest level is the level of one of the nodes. -/
theorem exists_highest (h : highest level edge = .finite (k + 1)) :
    ∃ n ∈ edge, level n = .finite (k + 1) := by
  have hall : ∀ n ∈ edge, (level n).AtMost (k + 1) := by
    apply atMost_highest.mp
    rw [h]
    exact Nat.le_refl _
  have hsome : ¬ ∀ n ∈ edge, (level n).AtMost k := by
    rw [← atMost_highest, h]
    exact Nat.not_succ_le_self k
  push Not at hsome
  obtain ⟨n, hn, hnk⟩ := hsome
  refine ⟨n, hn, ?_⟩
  have hle := hall n hn
  cases hlevel : level n with
  | infinite =>
    rw [hlevel] at hle
    exact hle.elim
  | finite j =>
    rw [hlevel] at hle hnk
    simp only [Level.AtMost] at hle hnk
    rw [show j = k + 1 by omega]

end

namespace Levelling

variable {s : Snapshot} {l : Levelling} {levels : Table Level} {n : NodeId} {k : Nat}

theorem levelAt_lt_size (h : (levelAt levels n).AtMost k) : n < levels.size := by
  by_contra hn
  rw [levelAt, Array.getElem?_eq_none (Nat.le_of_not_lt hn)] at h
  exact h

theorem levelAt_set {source : NodeId} (hsource : source < levels.size) (a : Level) :
    levelAt (levels.setIfInBounds source a) n = if n = source then a else levelAt levels n := by
  unfold levelAt
  rw [Array.getElem?_setIfInBounds]
  by_cases hn : source = n
  · subst hn
    simp [hsource]
  · rw [if_neg hn, if_neg (Ne.symm hn)]

/-- The hyperedge cannot lower the level of the node. -/
def Tight (levels : Table Level) (n : NodeId) (edge : Hyperedge) : Prop :=
  ∀ k, (∀ t ∈ edge, (levelAt levels t).AtMost k) → (levelAt levels n).AtMost (k + 1)

def Staged (s : Snapshot) (levels : Table Level) : Prop :=
  ∀ n k, (levelAt levels n).AtMost k → Stage s.equations k n

/-- As many distinct nodes as the level says are at most at that level. -/
def Chained (levels : Table Level) : Prop :=
  ∀ n k, levelAt levels n = .finite k → ∃ ns : List NodeId, ns.Nodup ∧ ns.length = k ∧
    ∀ m ∈ ns, (levelAt levels m).AtMost k

theorem Chained.le_size (h : Chained levels) (hn : levelAt levels n = .finite k) :
    k ≤ levels.size := by
  obtain ⟨ns, hnodup, hlength, hlevels⟩ := h n k hn
  have hsub : ns ⊆ List.range levels.size := by
    intro m hm
    rw [List.mem_range]
    exact levelAt_lt_size (hlevels m hm)
  have hcount := hnodup.length_le_of_subset hsub
  rw [List.length_range] at hcount
  omega

/-- The second table has the level of `r.source` that the hyperedge of `r` allows. -/
structure Lowered (r : Relaxation) (levels levels' : Table Level) : Prop where
  source : levelAt levels' r.source = (highest (levelAt levels) r.edge).succ
  other : ∀ n, n ≠ r.source → levelAt levels' n = levelAt levels n
  lt : (levelAt levels' r.source).lt (levelAt levels r.source) = true

namespace Lowered

variable {r : Relaxation} {levels' : Table Level} {edge : Hyperedge}

theorem of_lt (hsource : r.source < levels.size)
    (hlt : (highest (levelAt levels) r.edge).succ.lt (levelAt levels r.source) = true) :
    Lowered r levels (levels.setIfInBounds r.source (highest (levelAt levels) r.edge).succ) := by
  have hself : levelAt (levels.setIfInBounds r.source (highest (levelAt levels) r.edge).succ)
      r.source = (highest (levelAt levels) r.edge).succ :=
    (levelAt_set hsource _).trans (if_pos rfl)
  refine ⟨hself, fun n hn => (levelAt_set hsource _).trans (if_neg hn), ?_⟩
  rw [hself]
  exact hlt

theorem atMost (h : Lowered r levels levels') (hn : (levelAt levels n).AtMost k) :
    (levelAt levels' n).AtMost k := by
  by_cases heq : n = r.source
  · subst heq
    exact hn.of_lt h.lt
  · rw [h.other n heq]
    exact hn

theorem staged (h : Lowered r levels levels') (hr : r.edge ∈ s.equations r.source)
    (hstaged : Staged s levels) : Staged s levels' := by
  intro n k hn
  by_cases heq : n = r.source
  · subst heq
    rw [h.source] at hn
    cases k with
    | zero => exact absurd hn Level.not_atMost_succ_zero
    | succ k =>
      have htargets := atMost_highest.mp (Level.atMost_succ.mp hn)
      exact ⟨r.edge, hr, fun t ht => hstaged t k (htargets t ht)⟩
  · rw [h.other n heq] at hn
    exact hstaged n k hn

/-- A hyperedge that does not mention the source has targets of the same levels as before. -/
theorem targets (h : Lowered r levels levels') (hmem : r.source ∉ edge)
    (hk : ∀ t ∈ edge, (levelAt levels' t).AtMost k) :
    ∀ t ∈ edge, (levelAt levels t).AtMost k := by
  intro t ht
  have hne : t ≠ r.source := by
    rintro rfl
    exact hmem ht
  rw [← h.other t hne]
  exact hk t ht

theorem tight (h : Lowered r levels levels') (hmem : r.source ∉ edge)
    (htight : Tight levels n edge) : Tight levels' n edge :=
  fun k hk => h.atMost (htight k (h.targets hmem hk))

theorem tight_self (h : Lowered r levels levels') (hmem : r.source ∉ r.edge) :
    Tight levels' r.source r.edge := by
  intro k hk
  rw [h.source]
  exact Level.atMost_succ.mpr (atMost_highest.mpr (h.targets hmem hk))

theorem chained (h : Lowered r levels levels') (hchained : Chained levels) : Chained levels' := by
  intro n k hn
  by_cases heq : n = r.source
  · subst heq
    have hsource := h.source.symm.trans hn
    cases hhighest : highest (levelAt levels) r.edge with
    | infinite =>
      rw [hhighest] at hsource
      cases hsource
    | finite j =>
      rw [hhighest] at hsource
      cases hsource
      -- a level `j + 1` rests on a target of level `j`, and the source extends its chain
      have hbelow : ∃ ns : List NodeId, ns.Nodup ∧ ns.length = j ∧
          ∀ m ∈ ns, (levelAt levels m).AtMost j := by
        cases j with
        | zero => exact ⟨[], List.nodup_nil, rfl, by simp⟩
        | succ j =>
          obtain ⟨t, -, ht⟩ := exists_highest hhighest
          exact hchained t (j + 1) ht
      obtain ⟨ns, hnodup, hlength, hlevels⟩ := hbelow
      refine ⟨r.source :: ns, List.nodup_cons.mpr ⟨?_, hnodup⟩, by simp [hlength], ?_⟩
      · -- the source was above all nodes of the chain
        intro hmem
        have hself := (hlevels r.source hmem).of_lt h.lt
        rw [hn] at hself
        exact Nat.not_succ_le_self j hself
      · intro m hm
        rcases List.mem_cons.mp hm with rfl | hm
        · rw [hn]
          exact Nat.le_refl _
        · exact h.atMost ((hlevels m hm).mono (Nat.le_succ j))
  · rw [h.other n heq] at hn
    obtain ⟨ns, hnodup, hlength, hlevels⟩ := hchained n k hn
    exact ⟨ns, hnodup, hlength, fun m hm => h.atMost (hlevels m hm)⟩

end Lowered

/-- Kept while levels are lowered. -/
structure Sound (s : Snapshot) (l : Levelling) : Prop where
  size_eq : l.levels.size = s.size
  of_work : ∀ r ∈ l.work, r.edge ∈ s.equations r.source
  of_mentions : ∀ (t : NodeId) (r : Relaxation), r ∈ l.mentions[t]?.getD [] →
    r.edge ∈ s.equations r.source
  mentioned : ∀ (n : NodeId), ∀ edge ∈ s.equations n, ∀ t ∈ edge,
    ⟨n, edge⟩ ∈ l.mentions[t]?.getD []
  staged : Staged s l.levels
  tight : ∀ n, ∀ edge ∈ s.equations n, ⟨n, edge⟩ ∈ l.work ∨ Tight l.levels n edge
  chained : Chained l.levels

section

variable {mentions : Table (List Relaxation)} {work : List Relaxation} {steps : Nat}
  {r : Relaxation}

theorem tight_of_not_lt
    (h : ¬ (highest (levelAt levels) r.edge).succ.lt (levelAt levels r.source) = true) :
    Tight levels r.source r.edge := by
  intro k hk
  exact (Level.atMost_succ.mpr (atMost_highest.mpr hk)).of_not_lt h

theorem Sound.keep (h : Sound s ⟨levels, mentions, r :: work, steps⟩)
    (hlt : ¬ (highest (levelAt levels) r.edge).succ.lt (levelAt levels r.source) = true)
    (steps' : Nat) : Sound s ⟨levels, mentions, work, steps'⟩ := by
  refine ⟨h.size_eq, fun x hx => h.of_work x (List.mem_cons_of_mem r hx), h.of_mentions,
    h.mentioned, h.staged, ?_, h.chained⟩
  intro n edge hedge
  rcases h.tight n edge hedge with hmem | htight
  · rcases List.mem_cons.mp hmem with rfl | hmem
    · exact .inr (tight_of_not_lt hlt)
    · exact .inl hmem
  · exact .inr htight

theorem Sound.lower {levels' : Table Level} (h : Sound s ⟨levels, mentions, r :: work, steps⟩)
    (hsize : levels'.size = levels.size) (hlower : Lowered r levels levels') (steps' : Nat) :
    Sound s ⟨levels', mentions, mentions[r.source]?.getD [] ++ work, steps'⟩ := by
  refine ⟨hsize.trans h.size_eq, ?_, h.of_mentions, h.mentioned,
    hlower.staged (h.of_work r List.mem_cons_self) h.staged, ?_, hlower.chained h.chained⟩
  · intro x hx
    rcases List.mem_append.mp hx with hx | hx
    · exact h.of_mentions r.source x hx
    · exact h.of_work x (List.mem_cons_of_mem r hx)
  · intro n edge hedge
    by_cases hmem : r.source ∈ edge
    · exact .inl (List.mem_append_left _ (h.mentioned n edge hedge r.source hmem))
    · rcases h.tight n edge hedge with hwork | htight
      · rcases List.mem_cons.mp hwork with rfl | hwork
        · exact .inr (hlower.tight_self hmem)
        · exact .inl (List.mem_append_right _ hwork)
      · exact .inr (hlower.tight hmem htight)

/-- How often a node of this level can still be lowered. -/
def rank (size : Nat) : Level → Nat
  | .finite k => k
  | .infinite => size + 1

/-- The work that lowering the node can still make. -/
def share (s : Snapshot) (mentions : Table (List Relaxation)) (levels : Table Level)
    (n : Nat) : Nat :=
  (mentions[n]?.getD []).length * rank s.size (levelAt levels n)

def potential (s : Snapshot) (l : Levelling) : Nat :=
  l.work.length + ((List.range s.size).map (share s l.mentions l.levels)).sum

theorem rank_lt_rank {size : Nat} {a b : Level} (hlt : a.lt b = true)
    (ha : ∀ k, a = .finite k → k ≤ size) : rank size a < rank size b := by
  cases a with
  | infinite => simp [Level.lt] at hlt
  | finite m =>
    cases b with
    | infinite => exact Nat.lt_succ_of_le (ha m rfl)
    | finite n => simpa [Level.lt, rank] using hlt

theorem relax_spec (h : Sound s ⟨levels, mentions, r :: work, steps⟩) (steps' : Nat) :
    Sound s (relax ⟨levels, mentions, work, steps'⟩ r) ∧
      potential s (relax ⟨levels, mentions, work, steps'⟩ r) <
        potential s ⟨levels, mentions, r :: work, steps⟩ := by
  simp only [relax]
  split
  · next hlt =>
    have hr : r.source < s.size :=
      Snapshot.lt_size_of_mem_equations (h.of_work r List.mem_cons_self)
    have hsize : levels.size = s.size := h.size_eq
    have hlower := Lowered.of_lt (hsize ▸ hr) hlt
    have hsound := h.lower (Array.size_setIfInBounds ..) hlower steps'
    refine ⟨hsound, ?_⟩
    have hrank := rank_lt_rank hlower.lt fun k hk => hsound.size_eq ▸ hsound.chained.le_size hk
    -- the source's mentions come back to work, and its share pays for them
    have hshare : share s mentions (levels.setIfInBounds r.source
        (highest (levelAt levels) r.edge).succ) r.source + (mentions[r.source]?.getD []).length ≤
        share s mentions levels r.source := by
      unfold share
      rw [← Nat.mul_succ]
      exact Nat.mul_le_mul_left _ hrank
    have hsum := sum_map_range_add_le hr (fun n hn => by
      unfold share
      rw [hlower.other n hn]) hshare
    simp only [potential, List.length_append, List.length_cons]
    omega
  · next hlt =>
    refine ⟨h.keep hlt steps', ?_⟩
    simp only [potential, List.length_cons]
    omega

end

theorem run_spec {limit : Nat} (h : l.Sound s) (hlimit : potential s l ≤ limit) :
    ∃ l', run limit l = .ok l' ∧ l'.Sound s ∧ l'.work = [] := by
  induction limit generalizing l with
  | zero =>
    have hwork : l.work = [] := by
      apply List.eq_nil_of_length_eq_zero
      unfold potential at hlimit
      omega
    refine ⟨l, ?_, h, hwork⟩
    simp [run, hwork]
  | succ limit ih =>
    obtain ⟨levels, mentions, work, steps⟩ := l
    cases work with
    | nil => exact ⟨_, rfl, h, rfl⟩
    | cons r work =>
      obtain ⟨hsound, hlt⟩ := relax_spec h (steps + 1)
      exact ih hsound (by omega)

theorem atMost_iff (h : l.Sound s) (hwork : l.work = []) :
    (levelAt l.levels n).AtMost k ↔ Stage s.equations k n := by
  refine ⟨h.staged n k, fun hstage => ?_⟩
  induction k generalizing n with
  | zero => exact hstage.elim
  | succ k ih =>
    obtain ⟨edge, hedge, htargets⟩ := hstage
    rcases h.tight n edge hedge with hmem | htight
    · simp [hwork] at hmem
    · exact htight k fun t ht => ih (htargets t ht)

section

variable {mentions : Table (List Relaxation)} {r : Relaxation}

theorem mention_eq {t : NodeId} (ht : t < mentions.size) :
    mention r mentions t = .ok (mentions.setIfInBounds t (r :: mentions[t]?.getD [])) := by
  have hrow : mentions[t]? = some mentions[t] := Array.getElem?_eq_getElem ht
  rw [mention, Table.fetch_eq_ok_iff.mpr hrow, hrow]
  exact if_pos ht

theorem mem_mention {t u : NodeId} (ht : t < mentions.size) (x : Relaxation) :
    x ∈ (mentions.setIfInBounds t (r :: mentions[t]?.getD []))[u]?.getD [] ↔
      x ∈ mentions[u]?.getD [] ∨ (x = r ∧ u = t) := by
  rw [Array.getElem?_setIfInBounds]
  by_cases htu : t = u
  · subst htu
    simp [ht, or_comm]
  · have hut : u ≠ t := Ne.symm htu
    simp [htu, hut]

theorem mention_all {edge : Hyperedge} (h : ∀ t ∈ edge, t < mentions.size) :
    ∃ mentions', edge.foldlM (mention r) mentions = .ok mentions' ∧
      mentions'.size = mentions.size ∧
      (∀ (u : NodeId) (x : Relaxation), x ∈ mentions'[u]?.getD [] ↔
        x ∈ mentions[u]?.getD [] ∨ (x = r ∧ u ∈ edge)) ∧
      mentions'.total List.length = mentions.total List.length + edge.length := by
  induction edge generalizing mentions with
  | nil => exact ⟨mentions, rfl, rfl, by simp, rfl⟩
  | cons t edge ih =>
    have ht : t < mentions.size := h t List.mem_cons_self
    have hsize : (mentions.setIfInBounds t (r :: mentions[t]?.getD [])).size = mentions.size :=
      Array.size_setIfInBounds ..
    have hedge : ∀ u ∈ edge, u < (mentions.setIfInBounds t (r :: mentions[t]?.getD [])).size := by
      intro u hu
      rw [hsize]
      exact h u (List.mem_cons_of_mem t hu)
    obtain ⟨mentions', hfold, hsize', hmem, htotal⟩ := ih hedge
    refine ⟨mentions', ?_, hsize'.trans hsize, ?_, ?_⟩
    · rw [List.foldlM_cons, mention_eq ht]
      exact hfold
    · intro u x
      rw [hmem, mem_mention ht, List.mem_cons]
      tauto
    · have hrow : mentions[t]? = some mentions[t] := Array.getElem?_eq_getElem ht
      have hset := Table.total_setIfInBounds List.length mentions hrow (r :: mentions[t]?.getD [])
      rw [hrow] at htotal hset
      simp only [Option.getD_some, List.length_cons] at htotal hset ⊢
      omega

theorem schedule_all {rs : List Relaxation} (h : ∀ r ∈ rs, ∀ t ∈ r.edge, t < l.mentions.size) :
    ∃ mentions', rs.foldlM schedule l =
        .ok ⟨l.levels, mentions', rs.reverse ++ l.work, l.steps⟩ ∧
      (∀ (u : NodeId) (x : Relaxation), x ∈ mentions'[u]?.getD [] ↔
        x ∈ l.mentions[u]?.getD [] ∨ (x ∈ rs ∧ u ∈ x.edge)) ∧
      mentions'.total List.length =
        l.mentions.total List.length + (rs.map fun r => r.edge.length).sum ∧
      mentions'.size = l.mentions.size := by
  induction rs generalizing l with
  | nil => exact ⟨l.mentions, rfl, by simp, rfl, rfl⟩
  | cons r rs ih =>
    obtain ⟨levels, mentions, work, steps⟩ := l
    obtain ⟨mentions₁, hfold, hsize, hmem, htotal⟩ :=
      mention_all (r := r) (h r List.mem_cons_self)
    obtain ⟨mentions', hrest, hmem', htotal', hsize'⟩ :=
      ih (l := ⟨levels, mentions₁, r :: work, steps⟩) fun x hx t ht => by
        rw [hsize]
        exact h x (List.mem_cons_of_mem r hx) t ht
    refine ⟨mentions', ?_, ?_, ?_, hsize'.trans hsize⟩
    · have hschedule : schedule ⟨levels, mentions, work, steps⟩ r =
          .ok ⟨levels, mentions₁, r :: work, steps⟩ := by
        rw [schedule, hfold]
        rfl
      rw [List.foldlM_cons, hschedule, List.reverse_cons, List.append_assoc]
      exact hrest
    · intro u x
      rw [hmem', hmem, List.mem_cons]
      constructor
      · rintro ((hx | ⟨rfl, hu⟩) | ⟨hx, hu⟩)
        · exact .inl hx
        · exact .inr ⟨.inl rfl, hu⟩
        · exact .inr ⟨.inr hx, hu⟩
      · rintro (hx | ⟨rfl | hx, hu⟩)
        · exact .inl (.inl hx)
        · exact .inl (.inr ⟨rfl, hu⟩)
        · exact .inr ⟨hx, hu⟩
    · rw [htotal', List.map_cons, List.sum_cons]
      simp only at htotal ⊢
      omega

theorem mem_relaxations : r ∈ relaxations s ↔ r.edge ∈ s.equations r.source := by
  simp only [relaxations, List.mem_flatMap, List.mem_map, Prod.exists]
  constructor
  · rintro ⟨n, edges, hrow, edge, hedge, rfl⟩
    have hrow := Table.mem_enumerate.mp hrow
    show edge ∈ s.equations n
    rwa [Snapshot.equations, hrow]
  · intro h
    cases hrow : s[r.source]? with
    | none => simp [Snapshot.equations, hrow] at h
    | some edges =>
      rw [Snapshot.equations, hrow] at h
      exact ⟨r.source, edges, Table.mem_enumerate.mpr hrow, r.edge, h, rfl⟩

theorem map_edge_relaxations : (relaxations s).map (·.edge) = s.toList.flatten := by
  have hrows : s.enumerate.map Prod.snd = s.toList := by
    apply List.map_snd_zip
    simp [Table.indexes]
  rw [← hrows, relaxations, List.map_flatMap, List.flatMap_def]
  simp [Function.comp_def]

theorem length_add_sum_relaxations :
    (relaxations s).length + ((relaxations s).map fun r => r.edge.length).sum = s.weight := by
  have hsum : ∀ rs : List Relaxation, rs.length + (rs.map fun r => r.edge.length).sum =
      weight (rs.map (·.edge)) := by
    intro rs
    induction rs with
    | nil => rfl
    | cons r rs ih =>
      simp only [List.length_cons, List.map_cons, List.sum_cons, weight, ← ih]
      omega
  have hflatten : ∀ rows : List (List Hyperedge),
      weight rows.flatten = (rows.map weight).sum := by
    intro rows
    induction rows with
    | nil => rfl
    | cons row rows ih => simp [weight_append, ih]
  rw [hsum, map_edge_relaxations, hflatten, Snapshot.weight, Table.total_eq_sum]

end

theorem levelAt_empty (size : Nat) : levelAt (empty size).levels n = .infinite := by
  unfold levelAt empty
  rw [Array.getElem?_replicate]
  split <;> rfl

theorem sound_scheduled {mentions : Table (List Relaxation)}
    (hmem : ∀ (u : NodeId) (x : Relaxation),
      x ∈ mentions[u]?.getD [] ↔ x ∈ relaxations s ∧ u ∈ x.edge) :
    Sound s ⟨(empty s.size).levels, mentions, (relaxations s).reverse, 0⟩ := by
  refine ⟨Array.size_replicate, ?_, ?_, ?_, ?_, ?_, ?_⟩
  · exact fun r hr => mem_relaxations.mp (List.mem_reverse.mp hr)
  · exact fun t r hr => mem_relaxations.mp ((hmem t r).mp hr).1
  · exact fun n edge hedge t ht => (hmem t ⟨n, edge⟩).mpr ⟨mem_relaxations.mpr hedge, ht⟩
  · intro n k hn
    simp only [levelAt_empty] at hn
    exact hn.elim
  · exact fun n edge hedge => .inl (List.mem_reverse.mpr (mem_relaxations.mpr hedge))
  · intro n k hn
    simp only [levelAt_empty] at hn
    cases hn

theorem potential_scheduled {mentions : Table (List Relaxation)} (hsize : mentions.size = s.size)
    (htotal : mentions.total List.length = ((relaxations s).map fun r => r.edge.length).sum) :
    potential s ⟨(empty s.size).levels, mentions, (relaxations s).reverse, 0⟩ ≤ stepBound s := by
  have hshare : share s mentions (empty s.size).levels =
      fun n => (mentions[n]?.getD []).length * (s.size + 1) := by
    funext n
    rw [share, levelAt_empty]
    rfl
  have hsum : ((List.range s.size).map (share s mentions (empty s.size).levels)).sum =
      mentions.total List.length * (s.size + 1) := by
    rw [hshare, List.sum_map_mul_right, Table.total_eq_sum_range List.length mentions [], hsize]
  have hpaid : ∀ a b c : Nat, a + b * (c + 1) ≤ (c + 1) * (a + b) := by
    intro a b c
    calc a + b * (c + 1) ≤ (c + 1) * a + (c + 1) * b :=
          Nat.add_le_add (Nat.le_mul_of_pos_left a (Nat.succ_pos c)) (Nat.mul_comm b _).le
      _ = (c + 1) * (a + b) := (Nat.mul_add _ _ _).symm
  rw [potential, stepBound, hsum, htotal, List.length_reverse, ← length_add_sum_relaxations]
  exact hpaid _ _ _

theorem start_spec (hs : s.InRange) :
    ∃ l, start s = .ok l ∧ l.Sound s ∧ potential s l ≤ stepBound s := by
  have htargets : ∀ r ∈ relaxations s, ∀ t ∈ r.edge, t < (empty s.size).mentions.size := by
    intro r hr t ht
    rw [empty, Array.size_replicate]
    exact hs r.source r.edge (mem_relaxations.mp hr) t ht
  have hnone : ∀ (u : NodeId), (empty s.size).mentions[u]?.getD [] = [] := by
    intro u
    unfold empty
    rw [Array.getElem?_replicate]
    split <;> rfl
  have hzero : (empty s.size).mentions.total List.length = 0 := by
    simp [empty, Table.total_eq_sum]
  obtain ⟨mentions, hstart, hmem, htotal, hsize⟩ := schedule_all htargets
  rw [hzero, Nat.zero_add] at htotal
  have hwork : (relaxations s).reverse ++ (empty s.size).work = (relaxations s).reverse :=
    List.append_nil _
  rw [hwork] at hstart
  refine ⟨_, hstart, sound_scheduled fun u x => ?_, potential_scheduled ?_ htotal⟩
  · rw [hmem, hnone]
    simp
  · rw [hsize, empty, Array.size_replicate]

end Levelling

/-- Solving with levels ends when its levelling has no work left. -/
theorem solveLevels_run {γ : Type} [Hypergraph γ] {g g' : γ} {s : Snapshot}
    (hsnapshot : (Hypergraph.snapshot g).value = .ok (g', s)) (hs : s.InRange) :
    ∃ l l', Levelling.start s = .ok l ∧ l.Sound s ∧ l.run (Levelling.stepBound s) = .ok l' ∧
      l'.Sound s ∧ l'.work = [] ∧ (solveLevels g).value = .ok (g', ⟨l'.levels⟩) := by
  obtain ⟨l, hstart, hsound, hpotential⟩ := Levelling.start_spec hs
  obtain ⟨l', hrun, hsound', hwork⟩ := Levelling.run_spec hsound hpotential
  refine ⟨l, l', hstart, hsound, hrun, hsound', hwork, ?_⟩
  have hstart' : (liftM (Levelling.start s) : Run Levelling).value = .ok l := hstart
  have hrun' : (liftM (l.run (Levelling.stepBound s)) : Run Levelling).value = .ok l' := hrun
  rw [solveLevels, Run.value_bind_of_ok hsnapshot]
  simp only
  rw [Run.value_bind_of_ok hstart', Run.value_bind_of_ok hrun']
  rfl

/-- Solving with levels ends, and the levels are the least depths of derivations. -/
theorem solveLevels_value {γ : Type} [Hypergraph γ] {g g' : γ} {s : Snapshot}
    (hsnapshot : (Hypergraph.snapshot g).value = .ok (g', s)) (hs : s.InRange) :
    ∃ m : LevelMarking, (solveLevels g).value = .ok (g', m) ∧
      (∀ n k, (m.level n).AtMost k ↔ Stage s.equations k n) ∧
      ∀ n k, m.level n = .finite k → k ≤ s.size := by
  obtain ⟨_, l, -, -, -, hsound, hwork, hvalue⟩ := solveLevels_run hsnapshot hs
  refine ⟨⟨l.levels⟩, hvalue, fun n k => Levelling.atMost_iff hsound hwork, ?_⟩
  intro n k hn
  rw [← hsound.size_eq]
  exact hsound.chained.le_size hn

/-- The levels of an unfolding are the least depths of derivations of its records. -/
theorem Unfolding.solveLevels_value {ρ : Type} [DecidableEq ρ] {S : System ρ} {T : S.Theory}
    {nodes : NodeTable ρ} (h : nodes.Faithful T T.surplus) :
    ∃ t m, (solveLevels (⟨S, nodes⟩ : Unfolding ρ)).value = .ok (⟨S, t⟩, m) ∧
      t.Faithful T T.surplus ∧ (∀ n q, nodes.name n = some q → t.name n = some q) ∧
      (∀ (n : NodeId) (q : ρ), t.name n = some q → ∃ edges, t.rows[n]? = some ⟨q, some edges⟩) ∧
      (∀ n q k, t.name n = some q → ((m.level n).AtMost k ↔ Stage T.equations k q)) ∧
      ∀ n k, m.level n = .finite k → k ≤ S.capacity := by
  obtain ⟨t, s, hsnapshot, hfaithful, hgrown, hsize, hrows⟩ := snapshot_value h
  obtain ⟨hs, hspells⟩ := inRange_and_spells hfaithful hsize hrows
  have hsnapshot : (Hypergraph.snapshot (⟨S, nodes⟩ : Unfolding ρ)).value = .ok (⟨S, t⟩, s) :=
    hsnapshot
  obtain ⟨m, hvalue, hlevel, hbound⟩ := ProcessLogic.solveLevels_value hsnapshot hs
  refine ⟨t, m, hvalue, hfaithful, hgrown.name, fun n q hn => ⟨_, hrows n q hn⟩, ?_, ?_⟩
  · intro n q k hn
    rw [hlevel]
    exact stage_iff_of_spells hspells hn
  · intro n k hn
    exact (hbound n k hn).trans (hsize ▸ hfaithful.size_le)

section

variable {α β : Type} {improves : β → β → Bool} {value : α → β} {as : List α} {a b : α}

theorem firstBest_ne_none (h : as ≠ []) : firstBest improves value as ≠ none := by
  cases as with
  | nil => exact absurd rfl h
  | cons a as =>
    rw [firstBest]
    split
    · simp
    · split <;> simp

theorem firstBest_mem (h : firstBest improves value as = some b) : b ∈ as := by
  induction as with
  | nil => simp [firstBest] at h
  | cons a as ih =>
    rw [firstBest] at h
    split at h
    · cases h
      exact List.mem_cons_self
    · next c hc =>
      split at h
      · cases h
        exact List.mem_cons_of_mem a (ih hc)
      · cases h
        exact List.mem_cons_self

/-- The choice is below all items, in any order that `improves` decides. -/
theorem firstBest_le {R : β → β → Prop} (htrans : ∀ x y z, R x y → R y z → R x z)
    (hbetter : ∀ x y, improves x y = true → R x y)
    (hworse : ∀ x y, ¬ improves x y = true → R y x)
    (h : firstBest improves value as = some b) : ∀ a ∈ as, R (value b) (value a) := by
  have hrefl : ∀ x, R x x := by
    intro x
    by_cases hx : improves x x = true
    · exact hbetter x x hx
    · exact hworse x x hx
  induction as generalizing b with
  | nil => simp
  | cons a as ih =>
    rw [firstBest] at h
    split at h
    · next hnone =>
      cases h
      have has : as = [] := by
        by_contra has
        exact firstBest_ne_none has hnone
      subst has
      intro c hc
      rw [List.mem_singleton.mp hc]
      exact hrefl _
    · next c hc =>
      split at h
      · next himproves =>
        cases h
        exact List.forall_mem_cons.mpr ⟨hbetter _ _ himproves, ih hc⟩
      · next himproves =>
        cases h
        refine List.forall_mem_cons.mpr ⟨hrefl _, fun x hx => ?_⟩
        exact htrans _ _ _ (hworse _ _ himproves) (ih hc x hx)

end

theorem LevelMarking.mem_numbered {edges : List Hyperedge} {i : Nat} {edge : Hyperedge} :
    (i, edge) ∈ numbered edges ↔ edges[i]? = some edge := by
  have h := Table.mem_enumerate (t := edges.toArray) (i := i) (a := edge)
  simpa [Table.enumerate, Table.indexes, numbered] using h

/-- The hyperedge chosen is of least level. -/
theorem minimaxEdge_spec {m : LevelMarking} {edges : List Hyperedge} {k : Nat} {edge : Hyperedge}
    (hedge : edge ∈ edges) (hk : ∀ t ∈ edge, (m.level t).AtMost k) :
    ∃ i best, m.minimaxEdge edges = some i ∧ edges[i]? = some best ∧
      ∀ t ∈ best, (m.level t).AtMost k := by
  obtain ⟨j, hj⟩ := List.mem_iff_getElem?.mp hedge
  have hmem : (j, edge) ∈ LevelMarking.numbered edges := LevelMarking.mem_numbered.mpr hj
  cases hbest : firstBest LevelMarking.shorter (fun p => (m.edgeLevel p.2, p.2.length))
      (LevelMarking.numbered edges) with
  | none => exact absurd hbest (firstBest_ne_none (List.ne_nil_of_mem hmem))
  | some p =>
    have hle := firstBest_le
      (R := fun x y : Level × Nat => ∀ k, y.1.AtMost k → x.1.AtMost k)
      (fun x y z hxy hyz k hz => hxy k (hyz k hz)) ?_ ?_ hbest (j, edge) hmem
    · refine ⟨p.1, p.2, ?_, LevelMarking.mem_numbered.mp (firstBest_mem hbest), ?_⟩
      · exact congrArg (Option.map (·.1)) hbest
      · exact atMost_highest.mp (hle k (atMost_highest.mpr hk))
    · intro x y hshorter k hy
      simp only [LevelMarking.shorter, Bool.or_eq_true, Bool.and_eq_true, decide_eq_true_eq]
        at hshorter
      rcases hshorter with hlt | ⟨heq, -⟩
      · exact hy.of_lt hlt
      · rwa [heq]
    · intro x y hshorter k hx
      by_contra hy
      apply hshorter
      simp only [LevelMarking.shorter, Bool.or_eq_true]
      exact .inl (Level.lt_iff.mpr ⟨k, hx, hy⟩)

end ProcessLogic
