import ProcessLogic.Proofs.Game.Calls

/-!
# Playing by levels

Both players may choose by levels. From a pair of finite level the attacker moves down: the move
chosen is one level below the pair, and every answer is below the move. So the attacker wins in half
as many rounds as the level says. From a pair at infinity every move is at infinity, and so is the
answer that the defender chooses, who therefore always has an answer.
-/

set_option autoImplicit false

namespace ProcessLogic

/-- For a player with this goal the first level is at least as good as the second. -/
def Goal.Prefers : Goal → Level → Level → Prop
  | .minimize, a, b => ∀ k, b.AtMost k → a.AtMost k
  | .maximize, a, b => ∀ k, a.AtMost k → b.AtMost k

section

variable {goal : Goal} {m : LevelMarking} {edges : List Hyperedge}

theorem firstBest_prefers {α : Type} {value : α → Level} {as : List α} {b : α}
    (h : firstBest goal.improves value as = some b) :
    ∀ a ∈ as, goal.Prefers (value b) (value a) := by
  cases goal with
  | minimize =>
    refine firstBest_le (R := Goal.minimize.Prefers) ?_ ?_ ?_ h
    · intro x y z hxy hyz k hz
      exact hxy k (hyz k hz)
    · intro x y hlt k hy
      exact hy.of_lt hlt
    · intro x y hlt k hx
      exact hx.of_not_lt hlt
  | maximize =>
    refine firstBest_le (R := Goal.maximize.Prefers) ?_ ?_ ?_ h
    · intro x y z hxy hyz k hx
      exact hyz k (hxy k hx)
    · intro x y hlt k hx
      exact hx.of_lt hlt
    · intro x y hlt k hy
      exact hy.of_not_lt hlt

/-- Among some hyperedges one is chosen, and no other is better. -/
theorem bestChoice_spec (goal : Goal) (m : LevelMarking) (hedges : edges ≠ []) :
    ∃ i best, m.bestChoice goal edges = some ⟨i, firstBest goal.improves m.level best⟩ ∧
      best ∈ edges ∧ ∀ edge ∈ edges, goal.Prefers (m.edgeLevel best) (m.edgeLevel edge) := by
  have hnumbered : ∀ edge ∈ edges, ∃ i, (i, edge) ∈ LevelMarking.numbered edges := by
    intro edge hedge
    obtain ⟨i, hi⟩ := List.mem_iff_getElem?.mp hedge
    exact ⟨i, LevelMarking.mem_numbered.mpr hi⟩
  cases hbest : firstBest goal.improves (fun p => m.edgeLevel p.2)
      (LevelMarking.numbered edges) with
  | none =>
    obtain ⟨edge, hedge⟩ := List.exists_mem_of_ne_nil _ hedges
    obtain ⟨i, hi⟩ := hnumbered edge hedge
    exact absurd hbest (firstBest_ne_none (List.ne_nil_of_mem hi))
  | some p =>
    refine ⟨p.1, p.2, ?_, ?_, ?_⟩
    · have hchoice : m.bestChoice goal edges = (firstBest goal.improves
          (fun p => m.edgeLevel p.2) (LevelMarking.numbered edges)).map fun p =>
            ⟨p.1, firstBest goal.improves m.level p.2⟩ := rfl
      rw [hchoice, hbest]
      rfl
    · exact List.mem_of_getElem? (LevelMarking.mem_numbered.mp (firstBest_mem hbest))
    · intro edge hedge
      obtain ⟨i, hi⟩ := hnumbered edge hedge
      exact firstBest_prefers hbest (i, edge) hi

theorem atMost_edgeLevel_singleton {n : NodeId} {k : Nat} :
    (m.edgeLevel [n]).AtMost k ↔ (m.level n).AtMost k := by
  rw [LevelMarking.edgeLevel, atMost_highest]
  exact List.forall_mem_singleton

end

namespace Game

def IsPair (g : Game) (node : NodeId) : Prop := ∃ p q, g.record? node = some (.pair p q)

def IsMove (g : Game) (node : NodeId) : Prop :=
  ∃ side label target other, g.record? node = some (.move side label target other)

/-- The best choice at `node` leads to `next`. -/
def Picks (g : Game) (levels : LevelMarking) (goal : Goal) (node next : NodeId) : Prop :=
  ∃ edges choice, (g.hyperedges node).value = .ok (g, edges) ∧
    levels.bestChoice goal edges = some choice ∧ choice.target = some next

/-- An attacker who chooses low levels wins from the pair within some rounds, whatever the defender
answers: the last move has no answers. -/
inductive AttackerWins (g : Game) (levels : LevelMarking) : Nat → NodeId → Prop where
  | round {rounds : Nat} {node next : NodeId} {options : List DefenderOption} :
      g.Picks levels .minimize node next →
      (g.defenderOptions next).value = .ok (g, .ok options) →
      (∀ o ∈ options, AttackerWins g levels rounds o.next) →
      AttackerWins g levels (rounds + 1) node

/-- A round in which the defender chooses high levels. -/
def DefendedRound (g : Game) (levels : LevelMarking) (node node' : NodeId) : Prop :=
  ∃ options, (g.attackerOptions node).value = .ok (g, .ok options) ∧
    ∃ o ∈ options, g.Picks levels .maximize o.next node'

/-- What choosing by levels comes to. The attacker's options at a pair are its hyperedges, and the
defender's at a move are the targets of its only hyperedge. -/
structure PlaysByLevels (g : Game) (levels : LevelMarking) : Prop where
  moves : ∀ node, g.IsPair node → ∃ options : List AttackerOption,
    (g.hyperedges node).value = .ok (g, options.map fun o => [o.next]) ∧
      (g.attackerOptions node).value = .ok (g, .ok options) ∧ ∀ o ∈ options, g.Offers o
  replies : ∀ node side label target other,
    g.record? node = some (.move side label target other) → ∃ options : List DefenderOption,
      (g.hyperedges node).value = .ok (g, [options.map (·.next)]) ∧
        (g.defenderOptions node).value = .ok (g, .ok options) ∧
        ∀ o ∈ options, g.Answers side target o
  attack : ∀ node k, g.IsPair node → levels.level node = .finite k →
    2 ≤ k ∧ ∃ next options, g.Picks levels .minimize node next ∧ g.IsMove next ∧
      levels.level next = .finite (k - 1) ∧
      (g.defenderOptions next).value = .ok (g, .ok options) ∧
      ∀ o ∈ options, g.IsPair o.next ∧ (levels.level o.next).AtMost (k - 2)
  attackerWins : ∀ node k, g.IsPair node → levels.level node = .finite k →
    g.AttackerWins levels (k / 2) node
  defence : ∀ node, g.IsPair node → levels.level node = .infinite →
    ∃ options, (g.attackerOptions node).value = .ok (g, .ok options) ∧ ∀ o ∈ options,
      ∃ next answers, g.Picks levels .maximize o.next next ∧
        (g.defenderOptions o.next).value = .ok (g, .ok answers) ∧
        (∃ a ∈ answers, a.next = next) ∧ g.IsPair next ∧ levels.level next = .infinite
  defenderLasts : ∀ node node', g.IsPair node → levels.level node = .infinite →
    Relation.ReflTransGen (g.DefendedRound levels) node node' →
    g.IsPair node' ∧ levels.level node' = .infinite

end Game

section

variable {l : Lts} {hl : l.InRange} {attack defend : Strength} {t : NodeTable Position}
  {g : Game} {levels : LevelMarking} {node next next' : NodeId} {pos : Position}
  {edges : List Hyperedge} {edge : Hyperedge} {goal : Goal} {k : Nat}

/-- A node is one level above its lowest hyperedge. -/
theorem Levelled.atMost_succ_iff (h : Levelled l attack defend t levels)
    (hname : t.name node = some pos)
    (hspells : Spells t.name edges
      (gameEquations (l.generator attack) (l.generator defend) pos)) :
    (levels.level node).AtMost (k + 1) ↔
      ∃ edge ∈ edges, ∀ n ∈ edge, (levels.level n).AtMost k := by
  rw [h.level_iff node pos (k + 1) hname]
  constructor
  · intro hstage
    obtain ⟨us, hus, hstages⟩ := hstage
    obtain ⟨edge, hedge, hstands⟩ := hspells.edge_of_mem hus
    exact ⟨edge, hedge, h.atMost_of_stands hstands hstages⟩
  · intro hedges
    obtain ⟨edge, hedge, hlevels⟩ := hedges
    obtain ⟨us, hus, hstands⟩ := hspells.unknowns_of_mem hedge
    refine ⟨us, hus, fun u hu => ?_⟩
    obtain ⟨n, hn, hname⟩ := hstands.node_of_mem hu
    exact (h.level_iff n u k hname).mp (hlevels n hn)

theorem Levelled.exists_succ (h : Levelled l attack defend t levels)
    (hname : t.name node = some pos) (hlevel : levels.level node = .finite k) :
    ∃ j, k = j + 1 := by
  cases k with
  | succ j => exact ⟨j, rfl⟩
  | zero =>
    have hzero : (levels.level node).AtMost 0 := (Level.eq_finite_iff.mp hlevel).1
    exact ((h.level_iff node pos 0 hname).mp hzero).elim

namespace Game

theorem Picks.unique (h : g.Picks levels goal node next) (h' : g.Picks levels goal node next') :
    next = next' := by
  obtain ⟨edges, choice, hedges, hchoice, htarget⟩ := h
  obtain ⟨edges', choice', hedges', hchoice', htarget'⟩ := h'
  obtain ⟨-, rfl⟩ := Prod.mk.inj (Except.ok.inj (hedges.symm.trans hedges'))
  obtain rfl := Option.some.inj (hchoice.symm.trans hchoice')
  exact Option.some.inj (htarget.symm.trans htarget')

/-- In a game that is built in full, asking for options changes nothing. -/
theorem Sound.moves (hg : g.Sound hl attack defend) (h : Levelled l attack defend g.nodes levels)
    {p q : StateId} (hnode : g.record? node = some (.pair p q)) :
    ∃ options : List AttackerOption,
      (g.hyperedges node).value = .ok (g, options.map fun o => [o.next]) ∧
      (g.attackerOptions node).value = .ok (g, .ok options) ∧ (∀ o ∈ options, g.Offers o) ∧
      Spells g.record? (options.map fun o => [o.next])
        (gameEquations (l.generator attack) (l.generator defend) (.pair p q)) := by
  obtain ⟨edges, hrow, hspells⟩ := h.built node _ hnode
  have hedges : (g.hyperedges node).value = .ok (g, edges) := Unfolding.hyperedges_built hrow
  obtain ⟨g', options, hedges', hoptions, hoffers, -⟩ := hg.attackerOptions hnode
  obtain ⟨rfl, rfl⟩ := Prod.mk.inj (Except.ok.inj (hedges.symm.trans hedges'))
  exact ⟨options, hedges, hoptions, hoffers, hspells⟩

theorem Sound.replies (hg : g.Sound hl attack defend) (h : Levelled l attack defend g.nodes levels)
    {side : Side} {label : String} {target other : StateId}
    (hnode : g.record? node = some (.move side label target other)) :
    ∃ options : List DefenderOption,
      (g.hyperedges node).value = .ok (g, [options.map (·.next)]) ∧
      (g.defenderOptions node).value = .ok (g, .ok options) ∧
      (∀ o ∈ options, g.Answers side target o) ∧
      Spells g.record? [options.map (·.next)]
        (gameEquations (l.generator attack) (l.generator defend)
          (.move side label target other)) := by
  obtain ⟨edges, hrow, hspells⟩ := h.built node _ hnode
  have hedges : (g.hyperedges node).value = .ok (g, edges) := Unfolding.hyperedges_built hrow
  obtain ⟨g', options, hedges', hoptions, hanswers, -⟩ := hg.defenderOptions hnode
  obtain ⟨rfl, rfl⟩ := Prod.mk.inj (Except.ok.inj (hedges.symm.trans hedges'))
  exact ⟨options, hedges, hoptions, hanswers, hspells⟩

theorem Offers.isMove {o : AttackerOption} (h : g.Offers o) : g.IsMove o.next := by
  obtain ⟨other, hnext⟩ := h
  exact ⟨o.side, o.label, o.target, other, hnext⟩

theorem Answers.isPair {side : Side} {target : StateId} {o : DefenderOption}
    (h : g.Answers side target o) : g.IsPair o.next := by
  obtain ⟨p, q, heq⟩ := side.exists_answer_eq target o.target
  exact ⟨p, q, heq ▸ h⟩

theorem exists_attack (hg : g.Sound hl attack defend) (h : Levelled l attack defend g.nodes levels)
    (hnode : g.IsPair node) (hlevel : levels.level node = .finite (k + 1)) :
    ∃ next, g.Picks levels .minimize node next ∧ g.IsMove next ∧
      levels.level next = .finite k := by
  obtain ⟨p, q, hnode⟩ := hnode
  obtain ⟨options, hedges, -, hoffers, hspells⟩ := hg.moves h hnode
  have hatMost : (levels.level node).AtMost (k + 1) := (Level.eq_finite_iff.mp hlevel).1
  obtain ⟨edge, hedge, hlow⟩ := (h.atMost_succ_iff hnode hspells).mp hatMost
  obtain ⟨i, best, hchoice, hbest, hprefers⟩ :=
    bestChoice_spec .minimize levels (List.ne_nil_of_mem hedge)
  obtain ⟨o, ho, rfl⟩ := List.mem_map.mp hbest
  refine ⟨o.next, ⟨_, _, hedges, hchoice, rfl⟩, (hoffers o ho).isMove, ?_⟩
  apply Level.eq_finite_iff.mpr
  constructor
  · exact atMost_edgeLevel_singleton.mp (hprefers edge hedge k (atMost_highest.mpr hlow))
  · -- a lower move would make the pair lower
    intro j hj
    have hpair : (levels.level node).AtMost (j + 1) :=
      (h.atMost_succ_iff hnode hspells).mpr ⟨[o.next], hbest, List.forall_mem_singleton.mpr hj⟩
    rw [hlevel] at hpair
    exact Nat.le_of_succ_le_succ hpair

theorem answers_lower (hg : g.Sound hl attack defend) (h : Levelled l attack defend g.nodes levels)
    (hnode : g.IsMove node) (hlevel : levels.level node = .finite (k + 1)) :
    ∃ options, (g.defenderOptions node).value = .ok (g, .ok options) ∧
      ∀ o ∈ options, g.IsPair o.next ∧ (levels.level o.next).AtMost k := by
  obtain ⟨side, label, target, other, hnode⟩ := hnode
  obtain ⟨options, -, hoptions, hanswers, hspells⟩ := hg.replies h hnode
  have hatMost : (levels.level node).AtMost (k + 1) := (Level.eq_finite_iff.mp hlevel).1
  obtain ⟨_, hedge, hlow⟩ := (h.atMost_succ_iff hnode hspells).mp hatMost
  rw [List.mem_singleton.mp hedge] at hlow
  exact ⟨options, hoptions,
    fun o ho => ⟨(hanswers o ho).isPair, hlow _ (List.mem_map_of_mem ho)⟩⟩

theorem IsMove.exists_name (h : g.IsMove node) : ∃ pos, g.nodes.name node = some pos := by
  obtain ⟨side, label, target, other, hnode⟩ := h
  exact ⟨_, hnode⟩

theorem IsPair.exists_name (h : g.IsPair node) : ∃ pos, g.nodes.name node = some pos := by
  obtain ⟨p, q, hnode⟩ := h
  exact ⟨_, hnode⟩

/-- One round of the attacker's, after which the level is lower by two at least. -/
theorem attack_round (hg : g.Sound hl attack defend) (h : Levelled l attack defend g.nodes levels)
    (hnode : g.IsPair node) (hlevel : levels.level node = .finite k) :
    2 ≤ k ∧ ∃ next options, g.Picks levels .minimize node next ∧ g.IsMove next ∧
      levels.level next = .finite (k - 1) ∧
      (g.defenderOptions next).value = .ok (g, .ok options) ∧
      ∀ o ∈ options, g.IsPair o.next ∧ (levels.level o.next).AtMost (k - 2) := by
  obtain ⟨_, hname⟩ := hnode.exists_name
  obtain ⟨j, rfl⟩ := h.exists_succ hname hlevel
  obtain ⟨next, hpicks, hnext, hnextlevel⟩ := exists_attack hg h hnode hlevel
  obtain ⟨_, hname⟩ := hnext.exists_name
  obtain ⟨i, rfl⟩ := h.exists_succ hname hnextlevel
  obtain ⟨options, hoptions, hlower⟩ := answers_lower hg h hnext hnextlevel
  exact ⟨Nat.le_add_left 2 i, next, options, hpicks, hnext, hnextlevel, hoptions, hlower⟩

/-- Levels come down by two in each round. -/
theorem attackerWins_of_atMost (hg : g.Sound hl attack defend)
    (h : Levelled l attack defend g.nodes levels) {rounds : Nat} (hnode : g.IsPair node)
    (hlevel : (levels.level node).AtMost (2 * rounds + 1)) :
    g.AttackerWins levels rounds node := by
  induction rounds generalizing node with
  | zero =>
    obtain ⟨k, hk, heq⟩ := hlevel.exists_eq
    obtain ⟨htwo, -⟩ := attack_round hg h hnode heq
    omega
  | succ rounds ih =>
    obtain ⟨k, hk, heq⟩ := hlevel.exists_eq
    obtain ⟨-, next, options, hpicks, -, -, hoptions, hlower⟩ := attack_round hg h hnode heq
    refine .round hpicks hoptions fun o ho => ?_
    obtain ⟨hpair, hlow⟩ := hlower o ho
    exact ih hpair (hlow.mono (by omega))

/-- A move at infinity has an answer at infinity, and the defender finds it. -/
theorem exists_defence (hg : g.Sound hl attack defend)
    (h : Levelled l attack defend g.nodes levels) (hnode : g.IsMove node)
    (hlevel : levels.level node = .infinite) :
    ∃ next answers, g.Picks levels .maximize node next ∧
      (g.defenderOptions node).value = .ok (g, .ok answers) ∧
      (∃ a ∈ answers, a.next = next) ∧ g.IsPair next ∧ levels.level next = .infinite := by
  obtain ⟨side, label, target, other, hnode⟩ := hnode
  obtain ⟨answers, hedges, hoptions, hanswers, hspells⟩ := hg.replies h hnode
  have hnever := Level.eq_infinite_iff.mp hlevel
  have hhigh : ∀ k, ¬ ∀ n ∈ answers.map (·.next), (levels.level n).AtMost k := by
    intro k hlow
    exact hnever (k + 1) ((h.atMost_succ_iff hnode hspells).mpr ⟨_, List.mem_cons_self, hlow⟩)
  cases hbest : firstBest Goal.maximize.improves levels.level (answers.map (·.next)) with
  | none =>
    have hnil : answers.map (·.next) = [] := by
      by_contra hne
      exact firstBest_ne_none hne hbest
    rw [hnil] at hhigh
    exact absurd (by simp) (hhigh 0)
  | some next =>
    obtain ⟨a, ha, rfl⟩ := List.mem_map.mp (firstBest_mem hbest)
    refine ⟨a.next, answers, ⟨_, _, hedges, rfl, hbest⟩, hoptions, ⟨a, ha, rfl⟩,
      (hanswers a ha).isPair, ?_⟩
    apply Level.eq_infinite_iff.mpr
    intro k hk
    exact hhigh k fun n hn => firstBest_prefers hbest n hn k hk

theorem defence_round (hg : g.Sound hl attack defend)
    (h : Levelled l attack defend g.nodes levels) (hnode : g.IsPair node)
    (hlevel : levels.level node = .infinite) :
    ∃ options, (g.attackerOptions node).value = .ok (g, .ok options) ∧ ∀ o ∈ options,
      ∃ next answers, g.Picks levels .maximize o.next next ∧
        (g.defenderOptions o.next).value = .ok (g, .ok answers) ∧
        (∃ a ∈ answers, a.next = next) ∧ g.IsPair next ∧ levels.level next = .infinite := by
  obtain ⟨p, q, hnode⟩ := hnode
  obtain ⟨options, -, hoptions, hoffers, hspells⟩ := hg.moves h hnode
  refine ⟨options, hoptions, fun o ho => ?_⟩
  apply exists_defence hg h (hoffers o ho).isMove
  apply Level.eq_infinite_iff.mpr
  intro k hk
  have hnever := Level.eq_infinite_iff.mp hlevel (k + 1)
  exact hnever ((h.atMost_succ_iff hnode hspells).mpr
    ⟨_, List.mem_map_of_mem ho, List.forall_mem_singleton.mpr hk⟩)

theorem infinite_of_defendedRounds (hg : g.Sound hl attack defend)
    (h : Levelled l attack defend g.nodes levels) {node' : NodeId} (hnode : g.IsPair node)
    (hlevel : levels.level node = .infinite)
    (rounds : Relation.ReflTransGen (g.DefendedRound levels) node node') :
    g.IsPair node' ∧ levels.level node' = .infinite := by
  induction rounds with
  | refl => exact ⟨hnode, hlevel⟩
  | tail _ round ih =>
    obtain ⟨options, hoptions, o, ho, hpicks⟩ := round
    obtain ⟨options', hoptions', hdefence⟩ := defence_round hg h ih.1 ih.2
    obtain rfl : options = options' := by
      have heq := Except.ok.inj (hoptions.symm.trans hoptions')
      exact Except.ok.inj (Prod.mk.inj heq).2
    obtain ⟨next, answers, hpicks', -, -, hpair, hinfinite⟩ := hdefence o ho
    obtain rfl := hpicks.unique hpicks'
    exact ⟨hpair, hinfinite⟩

theorem playsByLevels (hg : g.Sound hl attack defend)
    (h : Levelled l attack defend g.nodes levels) : g.PlaysByLevels levels where
  moves := by
    rintro node ⟨p, q, hnode⟩
    obtain ⟨options, hedges, hoptions, hoffers, -⟩ := hg.moves h hnode
    exact ⟨options, hedges, hoptions, hoffers⟩
  replies := by
    intro node side label target other hnode
    obtain ⟨options, hedges, hoptions, hanswers, -⟩ := hg.replies h hnode
    exact ⟨options, hedges, hoptions, hanswers⟩
  attack := fun _ _ hnode hlevel => attack_round hg h hnode hlevel
  attackerWins := by
    intro node k hnode hlevel
    apply attackerWins_of_atMost hg h hnode
    rw [hlevel]
    show k ≤ 2 * (k / 2) + 1
    omega
  defence := fun _ hnode hlevel => defence_round hg h hnode hlevel
  defenderLasts := fun _ _ hnode hlevel rounds =>
    infinite_of_defendedRounds hg h hnode hlevel rounds

/-- In a game after any calls, the level marking tells both players how to play. -/
theorem solveLevels_playsByLevels (hl : l.InRange) {p q : StateId} (hp : p < l.stateCount)
    (hq : q < l.stateCount) (attack defend : Strength) {g₀ : Game}
    (calls : Relation.ReflTransGen (Follows l.stateCount)
      (Game.ofPair (l.generator attack) (l.generator defend) p q) g₀) :
    ∃ (g : Game) (levels : LevelMarking), (solveLevels g₀).value = .ok (g, levels) ∧
      (∀ n pos, g₀.record? n = some pos → g.record? n = some pos) ∧ g.PlaysByLevels levels := by
  obtain ⟨hstart, -⟩ := sound_ofPair hl hp hq attack defend
  obtain ⟨⟨hsystem, hfaithful⟩, -⟩ := hstart.of_calls calls
  obtain ⟨system, nodes⟩ := g₀
  obtain rfl : system = _ := hsystem
  obtain ⟨t, levels, hvalue, ht, hlevelled, hgrown, -⟩ := Game.levels_value hl hfaithful
  have hg : Sound hl attack defend ⟨gameSystem (l.generator attack) (l.generator defend), t⟩ :=
    ⟨rfl, ht⟩
  exact ⟨_, levels, hvalue, hgrown, playsByLevels hg hlevelled⟩

/-- The states of the first pair are bisimilar, those of the second are not. -/
def contested : Game :=
  ((Game.ofPair (Lts.hesitant.generator .strong) (Lts.hesitant.generator .weak) 0 2).addPair 0 3).1

theorem solveLevels_playsByLevels_contested :
    Lts.hesitant.InRange ∧ 0 < Lts.hesitant.stateCount ∧ 2 < Lts.hesitant.stateCount ∧
      Relation.ReflTransGen (Follows Lts.hesitant.stateCount)
        (Game.ofPair (Lts.hesitant.generator .strong) (Lts.hesitant.generator .weak) 0 2)
        contested ∧
      ∃ (g : Game) (levels : LevelMarking), (solveLevels contested).value = .ok (g, levels) ∧
        (∀ n pos, contested.record? n = some pos → g.record? n = some pos) ∧
        g.PlaysByLevels levels ∧
        g.record? 0 = some (.pair 0 2) ∧ levels.level 0 = .infinite ∧
        (g.attackerOptions 0).value =
          .ok (g, .ok [⟨.left, tau, 1, 2⟩, ⟨.left, "a", 0, 3⟩, ⟨.right, "a", 2, 4⟩]) ∧
        g.record? 1 = some (.pair 0 3) ∧ levels.level 1 = .finite 4 := by
  have hstates : 0 < Lts.hesitant.stateCount ∧ 3 < Lts.hesitant.stateCount := by decide
  have hcalls : Relation.ReflTransGen (Follows Lts.hesitant.stateCount)
      (Game.ofPair (Lts.hesitant.generator .strong) (Lts.hesitant.generator .weak) 0 2)
      contested := .single ⟨.addPair 0 3, hstates, rfl⟩
  obtain ⟨g, levels, hvalue, hgrown, hplays⟩ :=
    solveLevels_playsByLevels (by decide) (by decide) (by decide) .strong .weak hcalls
  have hlevels : ((solveLevels contested).value.toOption.map fun r =>
      (r.2.level 0, r.2.level 1)) = some (.infinite, .finite 4) := by
    decide +kernel
  have hattacks : ((solveLevels contested).value.toOption.bind fun r =>
      (Game.attackerOptions r.1 0).value.toOption.bind fun a => a.2.toOption) =
        some [⟨.left, tau, 1, 2⟩, ⟨.left, "a", 0, 3⟩, ⟨.right, "a", 2, 4⟩] := by
    decide +kernel
  rw [hvalue] at hlevels hattacks
  obtain ⟨hfirst, hsecond⟩ := Prod.mk.inj (Option.some.inj hlevels)
  have hroot : g.record? 0 = some (.pair 0 2) := hgrown 0 _ (by decide +kernel)
  have hadded : g.record? 1 = some (.pair 0 3) := hgrown 1 _ (by decide +kernel)
  obtain ⟨options, -, hoptions, -⟩ := hplays.moves 0 ⟨0, 2, hroot⟩
  dsimp only [Except.toOption, Option.bind_some] at hattacks
  rw [hoptions] at hattacks
  obtain rfl := Option.some.inj hattacks
  exact ⟨by decide, by decide, by decide, hcalls, g, levels, hvalue, hgrown, hplays, hroot, hfirst,
    hoptions, hadded, hsecond⟩

end Game

end

end ProcessLogic
