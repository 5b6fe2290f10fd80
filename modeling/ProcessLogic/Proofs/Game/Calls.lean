import ProcessLogic.Proofs.Game.Collapse

/-!
# Games under any calls

A game may be asked for hyperedges, options, pairs and snapshots in any order. Whatever was asked
before, each pair of states has at most one node, which the game finds again, pairs lead to moves
and moves to pairs, and what is built stays as it is. So no call breaks off, the options are the
hyperedges, and solving the game decides bisimilarity.
-/

set_option autoImplicit false

namespace ProcessLogic

namespace Game

inductive Call where
  | hyperedges (node : NodeId)
  | addPair (left right : StateId)
  | attackerOptions (node : NodeId)
  | defenderOptions (node : NodeId)
  | snapshot
deriving DecidableEq, Repr

/-- The game after a call. -/
def Call.run (g : Game) : Call → Run Game
  | .hyperedges node => do
    let (g, _) ← g.hyperedges node
    pure g
  | .addPair left right => pure (g.addPair left right).1
  | .attackerOptions node => do
    let (g, _) ← g.attackerOptions node
    pure g
  | .defenderOptions node => do
    let (g, _) ← g.defenderOptions node
    pure g
  | .snapshot => do
    let (g, _) ← g.snapshot
    pure g

/-- The call is about nodes that exist and the first `n` states. Options may be asked for at any
node; where there are none they are refused. -/
def Call.Fits (n : Nat) (g : Game) : Call → Prop
  | .hyperedges node => node < g.size
  | .addPair left right => left < n ∧ right < n
  | .attackerOptions _ | .defenderOptions _ | .snapshot => True

def Follows (n : Nat) (g g' : Game) : Prop := ∃ c : Call, c.Fits n g ∧ (c.run g).value = .ok g'

/-- What holds of a game that began with the position `first`. -/
structure WellBuilt (first : Position) (g : Game) : Prop where
  root_eq : g.record? root = some first
  find_iff : ∀ p q n, g.nodes.find? (mixedKey p q) (.pair p q) = some n ↔
    g.record? n = some (.pair p q)
  attacks : ∀ (n : NodeId) p q edges, g.nodes.rows[n]? = some ⟨.pair p q, some edges⟩ →
    ∀ edge ∈ edges, ∃ next side label target other, edge = [next] ∧
      g.record? next = some (.move side label target other)
  answers : ∀ (n : NodeId) side label target other edges,
    g.nodes.rows[n]? = some ⟨.move side label target other, some edges⟩ →
    ∃ edge, edges = [edge] ∧ ∀ next ∈ edge, ∃ p q, g.record? next = some (.pair p q)

/-- The option is the move that its node stands for. -/
def Offers (g : Game) (o : AttackerOption) : Prop :=
  ∃ other, g.record? o.next = some (.move o.side o.label o.target other)

/-- The option answers a move of `side` to `target`. -/
def Answers (g : Game) (side : Side) (target : StateId) (o : DefenderOption) : Prop :=
  g.record? o.next = some (side.answer target o.target)

/-- No call breaks off, and the options are the hyperedges, none left out. A pair that is added has
the node that is given back, which is the old one if there was one. -/
structure Responsive (n : Nat) (g : Game) : Prop where
  run_ok : ∀ c : Call, c.Fits n g → ∃ g', (c.run g).value = .ok g'
  addPair : ∀ p q, (g.addPair p q).1.record? (g.addPair p q).2 = some (.pair p q)
  addPair_again : ∀ node p q, g.record? node = some (.pair p q) → g.addPair p q = (g, node)
  attackerOptions : ∀ node p q, g.record? node = some (.pair p q) →
    ∃ (g' : Game) (options : List AttackerOption),
      (g.hyperedges node).value = .ok (g', options.map fun o => [o.next]) ∧
      (g.attackerOptions node).value = .ok (g', .ok options) ∧ ∀ o ∈ options, g'.Offers o
  defenderOptions : ∀ node side label target other,
    g.record? node = some (.move side label target other) →
    ∃ (g' : Game) (options : List DefenderOption),
      (g.hyperedges node).value = .ok (g', [options.map (·.next)]) ∧
      (g.defenderOptions node).value = .ok (g', .ok options) ∧
      ∀ o ∈ options, g'.Answers side target o

end Game

section

variable {l : Lts} {hl : l.InRange} {attack defend : Strength} {name : NodeId → Option Position}
  {edges : List Hyperedge} {edge : Hyperedge} {p q : StateId} {side : Side} {label : String}
  {target other : StateId} {g g' : Game} {node : NodeId} {pos : Position}

theorem exists_next_of_attack
    (h : Spells name edges (gameEquations (l.generator attack) (l.generator defend) (.pair p q)))
    (hedge : edge ∈ edges) :
    ∃ next side label target other, edge = [next] ∧
      name next = some (.move side label target other) := by
  obtain ⟨us, hus, hstands⟩ := h.unknowns_of_mem hedge
  obtain ⟨side, label, target, other, rfl⟩ := exists_move_of_attack hus
  obtain ⟨next, rfl⟩ := List.length_eq_one_iff.mp hstands.length_eq
  exact ⟨next, side, label, target, other, rfl, List.singleton_injective hstands⟩

theorem exists_pairs_of_answers
    (h : Spells name edges
      (gameEquations (l.generator attack) (l.generator defend) (.move side label target other))) :
    ∃ edge, edges = [edge] ∧ ∀ next ∈ edge, ∃ t, name next = some (side.answer target t) := by
  obtain ⟨edge, hedges⟩ := List.length_eq_one_iff.mp (List.Forall₂.length_eq h)
  refine ⟨edge, hedges, fun next hnext => ?_⟩
  obtain ⟨us, hus, hstands⟩ := h.unknowns_of_mem (hedges ▸ List.mem_cons_self)
  obtain ⟨u, hu, hname⟩ := hstands.unknown_of_mem hnext
  rw [List.mem_singleton.mp hus] at hu
  obtain ⟨t, -, rfl⟩ := mem_answers.mp hu
  exact ⟨t, hname⟩

theorem Side.exists_answer_eq (side : Side) (target t : StateId) :
    ∃ p q, side.answer target t = .pair p q := by
  cases side with
  | left => exact ⟨target, t, rfl⟩
  | right => exact ⟨t, target, rfl⟩

theorem exists_map_eq {α β : Type} {f : α → β} {P : α → Prop} {bs : List β}
    (h : ∀ b ∈ bs, ∃ a, f a = b ∧ P a) : ∃ as : List α, as.map f = bs ∧ ∀ a ∈ as, P a := by
  induction bs with
  | nil => exact ⟨[], rfl, by simp⟩
  | cons b bs ih =>
    obtain ⟨a, rfl, ha⟩ := h b List.mem_cons_self
    obtain ⟨as, rfl, has⟩ := ih fun b hb => h b (List.mem_cons_of_mem _ hb)
    exact ⟨a :: as, rfl, List.forall_mem_cons.mpr ⟨ha, has⟩⟩

namespace Game

theorem Offers.attackerOption_eq {o : AttackerOption} (h : g.Offers o) :
    attackerOption g [o.next] = .ok o := by
  obtain ⟨other, hnext⟩ := h
  exact bind_of_ok (NodeTable.record_of_name hnext) _

theorem Answers.defenderOption_eq {o : DefenderOption} (h : g.Answers side target o) :
    defenderOption g side o.next = .ok o := by
  have hnext : g.nodes.record o.next = .ok (side.answer target o.target) :=
    NodeTable.record_of_name h
  rw [defenderOption, bind_of_ok hnext]
  cases side <;> rfl

/-- The game of two generators of a system, built as far as it has been asked for. -/
structure Sound (hl : l.InRange) (attack defend : Strength) (g : Game) : Prop where
  system_eq : g.system = gameSystem (l.generator attack) (l.generator defend)
  faithful : g.nodes.Faithful (gameTheory hl attack defend) 0

namespace Sound

theorem spells (h : g.Sound hl attack defend)
    (hrow : g.nodes.rows[node]? = some ⟨pos, some edges⟩) :
    Spells g.record? edges (gameEquations (l.generator attack) (l.generator defend) pos) :=
  h.faithful.spelled node _ edges hrow rfl

theorem hyperedges (h : g.Sound hl attack defend) (hnode : g.record? node = some pos) :
    ∃ (g' : Game) (edges : List Hyperedge), (g.hyperedges node).value = .ok (g', edges) ∧
      g'.Sound hl attack defend ∧ g.nodes.Grows g'.nodes ∧
      g'.nodes.rows[node]? = some ⟨pos, some edges⟩ := by
  obtain ⟨system, nodes⟩ := g
  obtain ⟨hsystem, hfaithful⟩ := h
  obtain rfl : system = _ := hsystem
  obtain ⟨nodes', edges, hvalue, hfaithful', hgrows, hrow⟩ :=
    Unfolding.hyperedges_value (T := gameTheory hl attack defend) hfaithful hnode
  exact ⟨_, edges, hvalue, ⟨rfl, hfaithful'⟩, hgrows, hrow⟩

theorem snapshot (h : g.Sound hl attack defend) :
    ∃ (g' : Game) (s : Snapshot), g.snapshot.value = .ok (g', s) ∧ g'.Sound hl attack defend ∧
      g.nodes.Grows g'.nodes := by
  obtain ⟨system, nodes⟩ := g
  obtain ⟨hsystem, hfaithful⟩ := h
  obtain rfl : system = _ := hsystem
  obtain ⟨nodes', s, hvalue, hfaithful', hgrows, -⟩ :=
    Unfolding.snapshot_value (T := gameTheory hl attack defend) hfaithful
  exact ⟨_, s, hvalue, ⟨rfl, hfaithful'⟩, hgrows⟩

theorem addPair (h : g.Sound hl attack defend) (hp : p < l.stateCount) (hq : q < l.stateCount) :
    (g.addPair p q).1.Sound hl attack defend ∧ g.nodes.Grows (g.addPair p q).1.nodes := by
  obtain ⟨system, nodes⟩ := g
  obtain ⟨hsystem, hfaithful⟩ := h
  obtain rfl : system = _ := hsystem
  have hoccurs : (gameTheory hl attack defend).Occurs (.pair p q) := ⟨hp, hq⟩
  obtain ⟨hinterned, hext⟩ := NodeTable.Faithful.intern hfaithful hoccurs
  exact ⟨⟨rfl, hinterned⟩, hext.grows⟩

theorem attackerOptions (h : g.Sound hl attack defend)
    (hnode : g.record? node = some (.pair p q)) :
    ∃ (g' : Game) (options : List AttackerOption),
      (g.hyperedges node).value = .ok (g', options.map fun o => [o.next]) ∧
      (g.attackerOptions node).value = .ok (g', .ok options) ∧ (∀ o ∈ options, g'.Offers o) ∧
      g'.Sound hl attack defend ∧ g.nodes.Grows g'.nodes := by
  obtain ⟨g', edges, hvalue, h', hgrows, hrow⟩ := h.hyperedges hnode
  have hmove : ∀ edge ∈ edges, ∃ o : AttackerOption, [o.next] = edge ∧ g'.Offers o := by
    intro edge hedge
    obtain ⟨next, side, label, target, other, rfl, hnext⟩ :=
      exists_next_of_attack (h'.spells hrow) hedge
    exact ⟨⟨side, label, target, next⟩, rfl, other, hnext⟩
  obtain ⟨options, rfl, hoffers⟩ := exists_map_eq hmove
  refine ⟨g', options, hvalue, ?_, hoffers, h', hgrows⟩
  have hoptions : (options.map fun o => [o.next]).mapM (attackerOption g') = .ok options :=
    mapM_map_eq_ok fun o ho => (hoffers o ho).attackerOption_eq
  rw [Game.attackerOptions, hnode]
  exact (Run.value_bind_of_ok hvalue _).trans (Run.value_lift_bind_of_ok hoptions _)

theorem defenderOptions (h : g.Sound hl attack defend)
    (hnode : g.record? node = some (.move side label target other)) :
    ∃ (g' : Game) (options : List DefenderOption),
      (g.hyperedges node).value = .ok (g', [options.map (·.next)]) ∧
      (g.defenderOptions node).value = .ok (g', .ok options) ∧
      (∀ o ∈ options, g'.Answers side target o) ∧ g'.Sound hl attack defend ∧
      g.nodes.Grows g'.nodes := by
  obtain ⟨g', edges, hvalue, h', hgrows, hrow⟩ := h.hyperedges hnode
  obtain ⟨edge, rfl, hpairs⟩ := exists_pairs_of_answers (h'.spells hrow)
  have hanswer : ∀ next ∈ edge, ∃ o : DefenderOption, o.next = next ∧ g'.Answers side target o := by
    intro next hnext
    obtain ⟨t, hname⟩ := hpairs next hnext
    exact ⟨⟨t, next⟩, rfl, hname⟩
  obtain ⟨options, rfl, hanswers⟩ := exists_map_eq hanswer
  refine ⟨g', options, hvalue, ?_, hanswers, h', hgrows⟩
  have hoptions : (options.map (·.next)).mapM (defenderOption g' side) = .ok options :=
    mapM_map_eq_ok fun o ho => (hanswers o ho).defenderOption_eq
  rw [Game.defenderOptions, hnode]
  refine (Run.value_bind_of_ok hvalue _).trans (Run.value_lift_bind_of_ok rfl _ |>.trans ?_)
  exact Run.value_lift_bind_of_ok hoptions _

/-- One call leaves a game behind that has grown, if it has changed at all. -/
theorem call (h : g.Sound hl attack defend) {c : Call} (hc : c.Fits l.stateCount g) :
    ∃ g', (c.run g).value = .ok g' ∧ g'.Sound hl attack defend ∧ g.nodes.Grows g'.nodes := by
  cases c with
  | hyperedges node =>
    obtain ⟨pos, hnode⟩ := Unfolding.exists_name hc
    obtain ⟨g', edges, hvalue, h', hgrows, -⟩ := h.hyperedges hnode
    exact ⟨g', Run.value_bind_of_ok hvalue _, h', hgrows⟩
  | addPair left right =>
    obtain ⟨h', hgrows⟩ := h.addPair hc.1 hc.2
    exact ⟨_, rfl, h', hgrows⟩
  | attackerOptions node =>
    cases hnode : g.record? node with
    | none => exact ⟨g, by rw [Call.run, Game.attackerOptions, hnode]; rfl, h, .refl _⟩
    | some pos =>
      cases pos with
      | pair p q =>
        obtain ⟨g', options, -, hvalue, -, h', hgrows⟩ := h.attackerOptions hnode
        exact ⟨g', Run.value_bind_of_ok hvalue _, h', hgrows⟩
      | move => exact ⟨g, by rw [Call.run, Game.attackerOptions, hnode]; rfl, h, .refl _⟩
  | defenderOptions node =>
    cases hnode : g.record? node with
    | none => exact ⟨g, by rw [Call.run, Game.defenderOptions, hnode]; rfl, h, .refl _⟩
    | some pos =>
      cases pos with
      | pair p q => exact ⟨g, by rw [Call.run, Game.defenderOptions, hnode]; rfl, h, .refl _⟩
      | move =>
        obtain ⟨g', options, -, hvalue, -, h', hgrows⟩ := h.defenderOptions hnode
        exact ⟨g', Run.value_bind_of_ok hvalue _, h', hgrows⟩
  | snapshot =>
    obtain ⟨g', s, hvalue, h', hgrows⟩ := h.snapshot
    exact ⟨g', Run.value_bind_of_ok hvalue _, h', hgrows⟩

theorem of_calls (h : g.Sound hl attack defend)
    (calls : Relation.ReflTransGen (Follows l.stateCount) g g') :
    g'.Sound hl attack defend ∧ g.nodes.Grows g'.nodes := by
  induction calls with
  | refl => exact ⟨h, .refl _⟩
  | tail _ step ih =>
    obtain ⟨c, hc, hvalue⟩ := step
    obtain ⟨g'', hvalue', h', hgrows⟩ := ih.1.call hc
    obtain rfl := Except.ok.inj (hvalue.symm.trans hvalue')
    exact ⟨h', ih.2.trans hgrows⟩

theorem wellBuilt (h : g.Sound hl attack defend) {first : Position}
    (hroot : g.record? root = some first) : g.WellBuilt first where
  root_eq := hroot
  find_iff := fun _ _ _ => h.faithful.find?_eq_some_iff rfl
  attacks := fun _ _ _ _ hrow _ hedge => exists_next_of_attack (h.spells hrow) hedge
  answers := by
    intro n side label target other edges hrow
    obtain ⟨edge, hedges, hpairs⟩ := exists_pairs_of_answers (h.spells hrow)
    refine ⟨edge, hedges, fun next hnext => ?_⟩
    obtain ⟨t, hname⟩ := hpairs next hnext
    obtain ⟨p, q, heq⟩ := side.exists_answer_eq target t
    exact ⟨p, q, heq ▸ hname⟩

theorem responsive (h : g.Sound hl attack defend) : g.Responsive l.stateCount where
  run_ok := by
    intro c hc
    obtain ⟨g', hvalue, -⟩ := h.call hc
    exact ⟨g', hvalue⟩
  addPair := fun p q => g.nodes.name_intern _ (.pair p q)
  addPair_again := by
    intro node p q hnode
    obtain ⟨system, nodes⟩ := g
    obtain ⟨hsystem, hfaithful⟩ := h
    obtain rfl : system = _ := hsystem
    have hfind : nodes.find? (mixedKey p q) (.pair p q) = some node :=
      (hfaithful.find?_eq_some_iff rfl).mpr hnode
    simp only [Game.addPair, Unfolding.intern, gameSystem, Position.key?,
      NodeTable.intern_found hfind]
  attackerOptions := by
    intro node p q hnode
    obtain ⟨g', options, hedges, hoptions, hoffers, -⟩ := h.attackerOptions hnode
    exact ⟨g', options, hedges, hoptions, hoffers⟩
  defenderOptions := by
    intro node side label target other hnode
    obtain ⟨g', options, hedge, hoptions, hanswers, -⟩ := h.defenderOptions hnode
    exact ⟨g', options, hedge, hoptions, hanswers⟩

theorem solveAll (h : g.Sound hl attack defend) :
    ∃ g' m, (ProcessLogic.solveAll g).value = .ok (g', m) ∧
      (∀ n pos, g.record? n = some pos → g'.record? n = some pos) ∧
      ∀ n p q, g'.record? n = some (.pair p q) →
        (m.status n).Reports (¬ Bisimilar (l.Move attack) (l.Move defend) p q) := by
  obtain ⟨system, nodes⟩ := g
  obtain ⟨hsystem, hfaithful⟩ := h
  obtain rfl : system = _ := hsystem
  obtain ⟨t, m, hvalue, hfaithful', hgrown, hstatus⟩ :=
    Unfolding.solveAll_value (T := gameTheory hl attack defend) hfaithful
  refine ⟨_, m, hvalue, hgrown, fun n p q hn => ?_⟩
  obtain ⟨hp, hq⟩ := Game.inRange_of_name hfaithful' hn
  rw [← propext (satisfied_pair_iff hl hp hq)]
  exact hstatus n _ hn

end Sound

theorem sound_ofPair (hl : l.InRange) (hp : p < l.stateCount) (hq : q < l.stateCount)
    (attack defend : Strength) :
    (Game.ofPair (l.generator attack) (l.generator defend) p q).Sound hl attack defend ∧
      (Game.ofPair (l.generator attack) (l.generator defend) p q).record? root =
        some (.pair p q) := by
  obtain ⟨hfaithful, hroot⟩ := faithful_ofPair hl hp hq
  exact ⟨⟨rfl, hfaithful⟩, hroot⟩

/-- After any calls a game is well built and responsive, later calls let it grow only, and solving it
decides which of its pairs are bisimilar. -/
theorem wellBuilt_of_calls (hl : l.InRange) (hp : p < l.stateCount) (hq : q < l.stateCount)
    (attack defend : Strength)
    (calls : Relation.ReflTransGen (Follows l.stateCount)
      (Game.ofPair (l.generator attack) (l.generator defend) p q) g) :
    g.WellBuilt (.pair p q) ∧ g.Responsive l.stateCount ∧
      (∀ g', Relation.ReflTransGen (Follows l.stateCount) g g' → g.nodes.Grows g'.nodes) ∧
      ∃ g' m, (ProcessLogic.solveAll g).value = .ok (g', m) ∧
        (∀ n pos, g.record? n = some pos → g'.record? n = some pos) ∧
        ∀ n a b, g'.record? n = some (.pair a b) →
          (m.status n).Reports (¬ Bisimilar (l.Move attack) (l.Move defend) a b) := by
  obtain ⟨hstart, hroot⟩ := sound_ofPair hl hp hq attack defend
  obtain ⟨h, hgrows⟩ := hstart.of_calls calls
  exact ⟨h.wellBuilt (hgrows.name root _ hroot), h.responsive,
    fun _ later => (h.of_calls later).2, h.solveAll⟩

theorem wellBuilt_of_calls_hesitant :
    Lts.hesitant.InRange ∧ 0 < Lts.hesitant.stateCount ∧ 2 < Lts.hesitant.stateCount ∧
      ∃ g₁ g₂ g : Game,
        (Call.run (Game.ofPair (Lts.hesitant.generator .strong) (Lts.hesitant.generator .weak) 0 2)
          (.attackerOptions 0)).value = .ok g₁ ∧
        (Call.run g₁ (.addPair 3 4)).value = .ok g₂ ∧ (Call.run g₂ .snapshot).value = .ok g ∧
        g.WellBuilt (.pair 0 2) ∧ g.Responsive Lts.hesitant.stateCount ∧
        (∀ g', Relation.ReflTransGen (Follows Lts.hesitant.stateCount) g g' →
          g.nodes.Grows g'.nodes) ∧
        ∃ g' m, (ProcessLogic.solveAll g).value = .ok (g', m) ∧
          (∀ n pos, g.record? n = some pos → g'.record? n = some pos) ∧
          ∀ n a b, g'.record? n = some (.pair a b) → (m.status n).Reports
            (¬ Bisimilar (Lts.hesitant.Move .strong) (Lts.hesitant.Move .weak) a b) := by
  have hl : Lts.hesitant.InRange := by decide
  have hpair : 3 < Lts.hesitant.stateCount ∧ 4 < Lts.hesitant.stateCount := by decide
  obtain ⟨h, -⟩ := sound_ofPair hl (p := 0) (q := 2) (by decide) (by decide) .strong .weak
  obtain ⟨g₁, hoptions, h, -⟩ := h.call (c := .attackerOptions 0) trivial
  obtain ⟨g₂, hadd, h, -⟩ := h.call (c := .addPair 3 4) hpair
  obtain ⟨g, hsnapshot, -⟩ := h.call (c := .snapshot) trivial
  refine ⟨hl, by decide, by decide, g₁, g₂, g, hoptions, hadd, hsnapshot, ?_⟩
  apply wellBuilt_of_calls hl (by decide) (by decide) .strong .weak
  exact .tail (.tail (.single ⟨.attackerOptions 0, trivial, hoptions⟩) ⟨.addPair 3 4, hpair, hadd⟩)
    ⟨.snapshot, trivial, hsnapshot⟩

end Game

end

end ProcessLogic
