import ProcessLogic.Proofs.Formula.Satisfaction
import ProcessLogic.Proofs.Game.Bisimulation
import ProcessLogic.Proofs.Marking.Level

/-!
# Distinguishing formulas

The formula read off a lost pair holds at the left state and fails at the right one. It is built by
recursion on levels: the attack chosen at a pair is of lower level than the pair, and so are all
answers to it. If attacks are answered by the same moves or by weaker ones, an attack that the
formula speaks about is always among the answers.
-/

set_option autoImplicit false

namespace ProcessLogic

namespace Formula

/-- Gathering finds nothing to define and nothing to refuse. -/
def Plain (f : Formula) : Prop := ∀ scope d, f.gather scope d = .ok d

variable {f : Formula} {fs : List Formula}

theorem Plain.modal {q : Quantifier} {strength : Strength} {a : Act} (h : f.Plain) :
    (Formula.modal q strength a f).Plain := by
  intro scope d
  rw [gather]
  exact h scope d

theorem Plain.junction {q : Quantifier} (h : ∀ f ∈ fs, f.Plain) :
    (Formula.junction q fs).Plain := by
  intro scope d
  show gatherAll scope fs d = .ok d
  induction fs with
  | nil => rfl
  | cons f fs ih =>
    rw [gatherAll, h f List.mem_cons_self scope d]
    exact ih fun g hg => h g (List.mem_cons_of_mem f hg)

theorem Plain.join {q : Quantifier} (h : ∀ f ∈ fs, f.Plain) : (Formula.join q fs).Plain := by
  cases fs with
  | nil => exact fun _ _ => rfl
  | cons f fs =>
    cases fs with
    | nil => exact h f List.mem_cons_self
    | cons g fs => exact Plain.junction h

end Formula

section

variable {l : Lts} {attack defend : Strength} {moves : Strength → Moves} {v : Valuation}
  {f : Formula} {fs : List Formula} {label : String} {target other : StateId}

/-- The formula of a pair tells its states apart; that of a move tells all states that can make
the move from the state that has to answer. -/
def Position.Told (moves : Strength → Moves) (v : Valuation) (f : Formula) : Position → Prop
  | .pair l r => f.Holds moves v l ∧ ¬ f.Holds moves v r
  | .move .left label target other =>
    (∀ s, moves .strong s label target → f.Holds moves v s) ∧ ¬ f.Holds moves v other
  | .move .right label target other =>
    f.Holds moves v other ∧ ∀ s, moves .strong s label target → ¬ f.Holds moves v s

theorem told_pair (hl : l.InRange) (hmoves : moves .strong = l.Move attack) {p q : StateId}
    (hp : p < l.stateCount) (hq : q < l.stateCount) {next : Position}
    (hnext : [next] ∈ gameEquations (l.generator attack) (l.generator defend) (.pair p q))
    (h : next.Told moves v f) : (Position.pair p q).Told moves v f := by
  rcases List.mem_append.mp hnext with hnext | hnext
  · obtain ⟨e, he, heq⟩ := mem_attacks.mp hnext
    cases heq
    have step := (Lts.mem_transitions_generator hl hp).mp he
    rw [← hmoves] at step
    exact ⟨h.1 p step, h.2⟩
  · obtain ⟨e, he, heq⟩ := mem_attacks.mp hnext
    cases heq
    have step := (Lts.mem_transitions_generator hl hq).mp he
    rw [← hmoves] at step
    exact ⟨h.1, h.2 q step⟩

theorem told_move_left (hmoves : moves .strong = l.Move attack)
    (hanswers : ∀ t, l.Move attack other label t → ∃ f ∈ fs, ¬ f.Holds moves v t)
    (htarget : ∀ f ∈ fs, f.Holds moves v target) :
    (Position.move .left label target other).Told moves v (Side.left.formula label fs) := by
  constructor
  · intro s step
    refine ⟨label, target, step, by simp [Act.matches], ?_⟩
    exact (Formula.holds_join .all).mpr (Formula.holdsAll_iff.mpr htarget)
  · rintro ⟨b, t, step, hb, ht⟩
    obtain rfl : label = b := by simpa [Act.matches] using hb
    rw [hmoves] at step
    obtain ⟨f, hf, hft⟩ := hanswers t step
    exact hft (Formula.holdsAll_iff.mp ((Formula.holds_join .all).mp ht) f hf)

theorem told_move_right (hmoves : moves .strong = l.Move attack)
    (hanswers : ∀ t, l.Move attack other label t → ∃ f ∈ fs, f.Holds moves v t)
    (htarget : ∀ f ∈ fs, ¬ f.Holds moves v target) :
    (Position.move .right label target other).Told moves v (Side.right.formula label fs) := by
  constructor
  · intro b t step hb
    obtain rfl : label = b := by simpa [Act.matches] using hb
    rw [hmoves] at step
    exact (Formula.holds_join .any).mpr (Formula.holdsAny_iff.mpr (hanswers t step))
  · intro s step h
    have hjoin := h label target step (by simp [Act.matches])
    obtain ⟨f, hf, hft⟩ := Formula.holdsAny_iff.mp ((Formula.holds_join .any).mp hjoin)
    exact htarget f hf hft

/-- The formulas of all answers make up the formula of the move. -/
theorem told_move (hl : l.InRange) (hmoves : moves .strong = l.Move attack)
    (hweaker : ∀ s a t, l.Move attack s a t → l.Move defend s a t)
    (hother : other < l.stateCount) {side : Side}
    (h : List.Forall₂ (fun pos f => pos.Told moves v f)
      (answers side label target ((l.generator defend).transitions other)) fs) :
    (Position.move side label target other).Told moves v (side.formula label fs) := by
  have hof : ∀ t, l.Move attack other label t → ∃ f ∈ fs, (side.answer target t).Told moves v f := by
    intro t step
    have hmem : side.answer target t ∈
        answers side label target ((l.generator defend).transitions other) :=
      mem_answers.mpr ⟨t, (Lts.mem_transitions_generator hl hother).mpr (hweaker _ _ _ step), rfl⟩
    exact exists_right_of_forall₂ h hmem
  have hall : ∀ f ∈ fs, ∃ t, (side.answer target t).Told moves v f := by
    intro f hf
    obtain ⟨pos, hpos, hf⟩ := exists_left_of_forall₂ h hf
    obtain ⟨t, -, rfl⟩ := mem_answers.mp hpos
    exact ⟨t, hf⟩
  cases side with
  | left =>
    apply told_move_left hmoves
    · intro t step
      obtain ⟨f, hf, htold⟩ := hof t step
      exact ⟨f, hf, htold.2⟩
    · intro f hf
      obtain ⟨t, htold⟩ := hall f hf
      exact htold.1
  | right =>
    apply told_move_right hmoves
    · intro t step
      obtain ⟨f, hf, htold⟩ := hof t step
      exact ⟨f, hf, htold.1⟩
    · intro f hf
      obtain ⟨t, htold⟩ := hall f hf
      exact htold.2

/-- A formula that is right for a position, whatever the weak modalities and the names mean. -/
def Tells (l : Lts) (attack : Strength) (f : Formula) (pos : Position) : Prop :=
  f.Plain ∧ ∀ moves v, moves .strong = l.Move attack → pos.Told moves v f

theorem tells_move (hl : l.InRange)
    (hweaker : ∀ s a t, l.Move attack s a t → l.Move defend s a t)
    (hother : other < l.stateCount) {side : Side}
    (h : List.Forall₂ (fun pos f => Tells l attack f pos)
      (answers side label target ((l.generator defend).transitions other)) fs) :
    Tells l attack (side.formula label fs) (.move side label target other) := by
  constructor
  · have hplain : ∀ f ∈ fs, f.Plain := by
      intro f hf
      obtain ⟨pos, -, htells⟩ := exists_left_of_forall₂ h hf
      exact htells.1
    cases side with
    | left => exact (Formula.Plain.join hplain).modal
    | right => exact (Formula.Plain.join hplain).modal
  · intro moves v hmoves
    exact told_move hl hmoves hweaker hother (h.imp fun pos f htells => htells.2 moves v hmoves)

/-- A property of the formulas of positions that extraction builds up: at a pair it takes the formula
of an attack of least level, at a move it collects those of all answers. -/
structure Extractable (l : Lts) (attack defend : Strength) (Good : Position → Formula → Prop) :
    Prop where
  pair : ∀ {p q : StateId} {next : Position} {f : Formula},
    p < l.stateCount → q < l.stateCount →
    [next] ∈ gameEquations (l.generator attack) (l.generator defend) (.pair p q) →
    (∀ k, Stage (gameEquations (l.generator attack) (l.generator defend)) (k + 1) (.pair p q) →
      Stage (gameEquations (l.generator attack) (l.generator defend)) k next) →
    Good next f → Good (.pair p q) f
  move : ∀ {side : Side} {label : String} {target other : StateId} {fs : List Formula},
    other < l.stateCount →
    List.Forall₂ Good (answers side label target ((l.generator defend).transitions other)) fs →
    Good (.move side label target other) (side.formula label fs)

theorem extractable_tells (hl : l.InRange)
    (hweaker : ∀ s a t, l.Move attack s a t → l.Move defend s a t) :
    Extractable l attack defend fun pos f => Tells l attack f pos where
  pair := by
    intro p q next f hp hq hnext _ hf
    obtain ⟨hplain, htold⟩ := hf
    exact ⟨hplain, fun moves v hmoves => told_pair hl hmoves hp hq hnext (htold moves v hmoves)⟩
  move := fun hother h => tells_move hl hweaker hother h

/-- A game that is built in full, with the levels of its positions. -/
structure Levelled (l : Lts) (attack defend : Strength) (t : NodeTable Position)
    (levels : LevelMarking) : Prop where
  inRange : ∀ n pos, t.name n = some pos → pos.InRange l.stateCount
  built : ∀ (n : NodeId) (pos : Position), t.name n = some pos →
    ∃ edges, t.rows[n]? = some ⟨pos, some edges⟩ ∧
      Spells t.name edges (gameEquations (l.generator attack) (l.generator defend) pos)
  level_iff : ∀ n pos k, t.name n = some pos → ((levels.level n).AtMost k ↔
    Stage (gameEquations (l.generator attack) (l.generator defend)) k pos)

variable {t : NodeTable Position} {levels : LevelMarking} {node : NodeId} {pos : Position}
  {edges : List Hyperedge} {x : Extraction} {k : Nat} {Good : Position → Formula → Prop}

theorem Levelled.atMost_of_stands (h : Levelled l attack defend t levels) {edge : Hyperedge}
    {us : List Position} (hstands : Stands t.name edge us)
    (hus : ∀ u ∈ us, Stage (gameEquations (l.generator attack) (l.generator defend)) k u) :
    ∀ n ∈ edge, (levels.level n).AtMost k := by
  intro n hn
  obtain ⟨u, hu, hname⟩ := hstands.unknown_of_mem hn
  exact (h.level_iff n u k hname).mpr (hus u hu)

/-- The best hyperedge leads to the stage before. -/
theorem Levelled.minimaxEdge_eq (h : Levelled l attack defend t levels)
    (hspells : Spells t.name edges
      (gameEquations (l.generator attack) (l.generator defend) pos))
    (hstage : Stage (gameEquations (l.generator attack) (l.generator defend)) (k + 1) pos) :
    ∃ i best, levels.minimaxEdge edges = some i ∧ edges[i]? = some best ∧
      ∀ n ∈ best, (levels.level n).AtMost k := by
  obtain ⟨us, hus, hstages⟩ := hstage
  obtain ⟨edge, hedge, hstands⟩ := hspells.edge_of_mem hus
  exact minimaxEdge_spec hedge (h.atMost_of_stands hstands hstages)

/-- Every hyperedge of a pair has one move as its target. -/
theorem exists_move_of_attack {us : List Position} {p q : StateId}
    (h : us ∈ gameEquations (l.generator attack) (l.generator defend) (.pair p q)) :
    ∃ side label target other, us = [.move side label target other] := by
  rcases List.mem_append.mp h with h | h
  · obtain ⟨e, -, rfl⟩ := mem_attacks.mp h
    exact ⟨_, _, _, _, rfl⟩
  · obtain ⟨e, -, rfl⟩ := mem_attacks.mp h
    exact ⟨_, _, _, _, rfl⟩

/-- At a pair there is an attack, and the one chosen is at the stage before, whichever that is. -/
theorem Levelled.attack_eq (h : Levelled l attack defend t levels) (node : NodeId)
    {p q : StateId}
    (hspells : Spells t.name edges
      (gameEquations (l.generator attack) (l.generator defend) (.pair p q)))
    (hstage : Stage (gameEquations (l.generator attack) (l.generator defend)) (k + 1)
      (.pair p q)) :
    ∃ target next, Extraction.attack levels node edges = .ok target ∧
      t.name target = some next ∧
      [next] ∈ gameEquations (l.generator attack) (l.generator defend) (.pair p q) ∧
      ∀ j, Stage (gameEquations (l.generator attack) (l.generator defend)) (j + 1) (.pair p q) →
        Stage (gameEquations (l.generator attack) (l.generator defend)) j next := by
  obtain ⟨i, best, hminimax, hbest, -⟩ := h.minimaxEdge_eq hspells hstage
  obtain ⟨us, hus, hstands⟩ := hspells.unknowns_of_mem (List.mem_of_getElem? hbest)
  obtain ⟨_, _, _, _, rfl⟩ := exists_move_of_attack hus
  obtain ⟨target, rfl⟩ := List.length_eq_one_iff.mp hstands.length_eq
  have hname := List.singleton_injective hstands
  refine ⟨target, _, ?_, hname, hus, fun j hj => ?_⟩
  · rw [Extraction.attack, hminimax]
    simp only [hbest]
    rfl
  · obtain ⟨i', best', hminimax', hbest', hlevels⟩ := h.minimaxEdge_eq hspells hj
    obtain rfl : i = i' := Option.some.inj (hminimax.symm.trans hminimax')
    obtain rfl : [target] = best' := Option.some.inj (hbest.symm.trans hbest')
    exact (h.level_iff target _ j hname).mp (hlevels target List.mem_cons_self)

/-- What has been remembered is good. -/
structure Extraction.Sound (l : Lts) (attack defend : Strength) (Good : Position → Formula → Prop)
    (t : NodeTable Position) (x : Extraction) : Prop where
  game_eq : x.game = ⟨gameSystem (l.generator attack) (l.generator defend), t⟩
  memo : ∀ n f, (n, f) ∈ x.memo → ∀ pos, t.name n = some pos → Good pos f

/-- The extraction ends with a formula that is good for the node. -/
def Extracts (l : Lts) (attack defend : Strength) (Good : Position → Formula → Prop)
    (t : NodeTable Position) (node : NodeId)
    (extraction : Run (Extraction × Except Refusal Formula)) : Prop :=
  ∃ x f, extraction.value = .ok (x, .ok f) ∧ x.Sound l attack defend Good t ∧
    ∀ pos, t.name node = some pos → Good pos f

theorem each_value {formula : NodeId → Extraction.Step Formula} {nodes : List NodeId}
    (h : ∀ n ∈ nodes, ∀ x, Extraction.Sound l attack defend Good t x →
      Extracts l attack defend Good t n (formula n x))
    (hx : x.Sound l attack defend Good t) :
    ∃ x' fs, (Extraction.each formula nodes x).value = .ok (x', .ok fs) ∧
      x'.Sound l attack defend Good t ∧
      List.Forall₂ (fun n f => ∀ pos, t.name n = some pos → Good pos f) nodes fs := by
  induction nodes generalizing x with
  | nil => exact ⟨x, [], rfl, hx, .nil⟩
  | cons n nodes ih =>
    obtain ⟨x₁, f, hvalue, hx₁, hf⟩ := h n List.mem_cons_self x hx
    obtain ⟨x', fs, hrest, hx', hfs⟩ := ih (fun m hm => h m (List.mem_cons_of_mem n hm)) hx₁
    refine ⟨x', f :: fs, ?_, hx', .cons hf hfs⟩
    rw [Extraction.each, Run.value_bind_of_ok hvalue]
    simp only
    rw [Run.value_bind_of_ok hrest]
    rfl

theorem Extracts.bind {α : Type} {y : Run α} {a : α}
    {g : α → Run (Extraction × Except Refusal Formula)} (hy : y.value = .ok a)
    (h : Extracts l attack defend Good t node (g a)) :
    Extracts l attack defend Good t node (y >>= g) := by
  obtain ⟨x, f, hvalue, hx, hf⟩ := h
  exact ⟨x, f, (Run.value_bind_of_ok hy g).trans hvalue, hx, hf⟩

theorem extracts_remember (hx : x.Sound l attack defend Good t)
    (hf : ∀ pos, t.name node = some pos → Good pos f) :
    Extracts l attack defend Good t node (pure (Extraction.remember node (x, .ok f))) := by
  refine ⟨{ x with memo := (node, f) :: x.memo }, f, rfl, ⟨hx.game_eq, ?_⟩, hf⟩
  intro n g hg
  rcases List.mem_cons.mp hg with heq | hg
  · cases heq
    exact hf
  · exact hx.memo n g hg

/-- Nodes up to level `k` have their formulas extracted within depth `k`. -/
def ExtractsUpTo (l : Lts) (attack defend : Strength) (Good : Position → Formula → Prop)
    (t : NodeTable Position) (levels : LevelMarking) (k : Nat) : Prop :=
  ∀ n pos x, Extraction.Sound l attack defend Good t x → t.name n = some pos →
    (levels.level n).AtMost k → Extracts l attack defend Good t n (Extraction.formula levels k n x)

theorem hyperedges_eq (hx : x.Sound l attack defend Good t)
    (hrow : t.rows[node]? = some ⟨pos, some edges⟩) :
    (x.game.hyperedges node).value = .ok (x.game, edges) := by
  rw [hx.game_eq]
  exact Unfolding.hyperedges_built hrow

theorem record?_eq (hx : x.Sound l attack defend Good t) : x.game.record? node = t.name node := by
  rw [hx.game_eq]
  rfl

theorem extracts_memo (hx : x.Sound l attack defend Good t)
    (hlookup : x.memo.lookup node = some f) :
    Extracts l attack defend Good t node (Extraction.formula levels (k + 1) node x) := by
  have hmem : (node, f) ∈ x.memo := by
    obtain ⟨before, after, heq, -⟩ := List.lookup_eq_some_iff.mp hlookup
    simp [heq]
  refine ⟨x, f, ?_, hx, hx.memo node f hmem⟩
  rw [Extraction.formula, hlookup]
  rfl

theorem extracts_pair (hgood : Extractable l attack defend Good)
    (h : Levelled l attack defend t levels)
    (ih : ExtractsUpTo l attack defend Good t levels k) (hx : x.Sound l attack defend Good t)
    (hlookup : x.memo.lookup node = none) {p q : StateId} (hname : t.name node = some (.pair p q))
    (hlevel : (levels.level node).AtMost (k + 1)) :
    Extracts l attack defend Good t node (Extraction.formula levels (k + 1) node x) := by
  obtain ⟨hp, hq⟩ := h.inRange node _ hname
  obtain ⟨edges, hrow, hspells⟩ := h.built node _ hname
  have hstage := (h.level_iff node _ (k + 1) hname).mp hlevel
  obtain ⟨target, next, hattack, htarget, hnext, hlower⟩ := h.attack_eq node hspells hstage
  have hlower' := (h.level_iff target next k htarget).mpr (hlower k hstage)
  obtain ⟨x', f, hvalue, hx', hf⟩ := ih target next x hx htarget hlower'
  rw [Extraction.formula, hlookup, record?_eq hx, hname]
  refine Extracts.bind (hyperedges_eq hx hrow) ?_
  simp only [hattack]
  refine Extracts.bind hvalue (extracts_remember hx' fun pos hpos => ?_)
  rw [← Option.some.inj (hname.symm.trans hpos)]
  exact hgood.pair hp hq hnext hlower (hf next htarget)

theorem extracts_move (hgood : Extractable l attack defend Good)
    (h : Levelled l attack defend t levels) (ih : ExtractsUpTo l attack defend Good t levels k)
    (hx : x.Sound l attack defend Good t) (hlookup : x.memo.lookup node = none) {side : Side}
    (hname : t.name node = some (.move side label target other))
    (hlevel : (levels.level node).AtMost (k + 1)) :
    Extracts l attack defend Good t node (Extraction.formula levels (k + 1) node x) := by
  obtain ⟨-, hother⟩ := h.inRange node _ hname
  obtain ⟨edges, hrow, hspells⟩ := h.built node _ hname
  obtain ⟨us, hus, hstages⟩ := (h.level_iff node _ (k + 1) hname).mp hlevel
  rw [List.mem_singleton.mp hus] at hstages
  cases hspells with
  | cons hstands hnil =>
    cases hnil
    have hlevels := h.atMost_of_stands hstands hstages
    obtain ⟨x', fs, hvalue, hx', hfs⟩ := each_value (fun n hn y hy => by
      obtain ⟨u, -, hu⟩ := hstands.unknown_of_mem hn
      exact ih n u y hy hu (hlevels n hn)) hx
    rw [Extraction.formula, hlookup, record?_eq hx, hname]
    refine Extracts.bind (hyperedges_eq hx hrow) (Extracts.bind hvalue ?_)
    refine extracts_remember hx' fun pos hpos => ?_
    rw [← Option.some.inj (hname.symm.trans hpos)]
    exact hgood.move hother (hstands.forall₂ hfs)

theorem extractsUpTo (hgood : Extractable l attack defend Good)
    (h : Levelled l attack defend t levels) (k : Nat) :
    ExtractsUpTo l attack defend Good t levels k := by
  induction k with
  | zero =>
    intro n pos x _ hname hlevel
    exact ((h.level_iff n pos 0 hname).mp hlevel).elim
  | succ k ih =>
    intro n pos x hx hname hlevel
    cases hlookup : x.memo.lookup n with
    | some f => exact extracts_memo hx hlookup
    | none =>
      cases pos with
      | pair p q => exact extracts_pair hgood h ih hx hlookup hname hlevel
      | move side label target other =>
        exact extracts_move hgood h ih hx hlookup hname hlevel

variable {p q : StateId}

/-- The levels of a game are the least numbers of moves, the answers counted in, to a win of the
attacker. -/
theorem Game.levels_value (hl : l.InRange) {nodes : NodeTable Position}
    (h : nodes.Faithful (gameTheory hl attack defend) 0) :
    ∃ t levels,
      (solveLevels (⟨gameSystem (l.generator attack) (l.generator defend), nodes⟩ : Game)).value =
        .ok (⟨gameSystem (l.generator attack) (l.generator defend), t⟩, levels) ∧
      t.Faithful (gameTheory hl attack defend) 0 ∧ Levelled l attack defend t levels ∧
      (∀ n pos, nodes.name n = some pos → t.name n = some pos) ∧
      ∀ n k, levels.level n = .finite k → k ≤ gameCapacity (l.generator attack) := by
  obtain ⟨t, levels, hvalue, ht, hgrown, hbuilt, hlevel, hbound⟩ :=
    Unfolding.solveLevels_value (T := gameTheory hl attack defend) h
  refine ⟨t, levels, hvalue, ht, ⟨?_, ?_, hlevel⟩, hgrown, hbound⟩
  · intro n pos hn
    obtain ⟨row, hrow, rfl⟩ := NodeTable.name_eq_some_iff.mp hn
    exact ht.occurs n row hrow
  · intro n pos hn
    obtain ⟨edges, hrow⟩ := hbuilt n pos hn
    exact ⟨edges, hrow, ht.spelled n _ edges hrow rfl⟩

theorem levels_value (hl : l.InRange) (hp : p < l.stateCount) (hq : q < l.stateCount)
    (attack defend : Strength) :
    ∃ t levels,
      (solveLevels (Game.ofPair (l.generator attack) (l.generator defend) p q)).value =
        .ok (⟨gameSystem (l.generator attack) (l.generator defend), t⟩, levels) ∧
      Levelled l attack defend t levels ∧ t.name root = some (.pair p q) ∧
      ∀ n k, levels.level n = .finite k → k ≤ gameCapacity (l.generator attack) := by
  obtain ⟨hfaithful, hroot⟩ := faithful_ofPair hl hp hq
  obtain ⟨t, levels, hvalue, -, hlevelled, hgrown, hbound⟩ := Game.levels_value hl hfaithful
  exact ⟨t, levels, hvalue, hlevelled, hgrown root _ hroot, hbound⟩

theorem Levelled.isFinite_iff (h : Levelled l attack defend t levels)
    (hname : t.name node = some pos) : (levels.level node).isFinite = true ↔
      Satisfied (gameEquations (l.generator attack) (l.generator defend)) pos := by
  rw [Level.isFinite_iff, satisfied_iff_exists_stage]
  exact exists_congr fun k => h.level_iff node _ k hname

theorem distinguish_refused (hl : l.InRange) (hp : p < l.stateCount) (hq : q < l.stateCount)
    (h : ¬ Satisfied (gameEquations (l.generator attack) (l.generator defend)) (.pair p q)) :
    (distinguish (l.generator attack) (l.generator defend) p q).value =
      .ok (.error .bisimilar) := by
  obtain ⟨t, levels, hvalue, hlevelled, hroot, -⟩ := levels_value hl hp hq attack defend
  rw [← hlevelled.isFinite_iff hroot] at h
  rw [distinguish, Run.value_bind_of_ok hvalue]
  simp only [Game.distinguish, if_neg h]
  rfl

/-- A formula is found for a satisfied pair, and it has what extraction builds up. -/
theorem distinguish_extracts (hl : l.InRange) (hp : p < l.stateCount) (hq : q < l.stateCount)
    (hgood : Extractable l attack defend Good)
    (h : Satisfied (gameEquations (l.generator attack) (l.generator defend)) (.pair p q)) :
    ∃ f, (distinguish (l.generator attack) (l.generator defend) p q).value = .ok (.ok f) ∧
      Good (.pair p q) f := by
  obtain ⟨t, levels, hvalue, hlevelled, hroot, hbound⟩ := levels_value hl hp hq attack defend
  rw [← hlevelled.isFinite_iff hroot] at h
  have hlevel : (levels.level root).AtMost (gameCapacity (l.generator attack) + 1) := by
    cases hfinite : levels.level root with
    | infinite =>
      rw [hfinite] at h
      cases h
    | finite k => exact Nat.le_succ_of_le (hbound root k hfinite)
  have hstart : Extraction.Sound l attack defend Good t
      { game := ⟨gameSystem (l.generator attack) (l.generator defend), t⟩ } :=
    ⟨rfl, by simp⟩
  obtain ⟨x, f, hformula, -, hf⟩ := extractsUpTo hgood hlevelled _ root _ _ hstart hroot hlevel
  refine ⟨f, ?_, hf _ hroot⟩
  rw [distinguish, Run.value_bind_of_ok hvalue]
  simp only [Game.distinguish, if_pos h]
  rw [bind_assoc]
  exact Run.value_bind_of_ok hformula _

/-- Either the pair is unsatisfied and the question refused, or a formula is found. -/
theorem distinguish_value (hl : l.InRange) (hp : p < l.stateCount) (hq : q < l.stateCount)
    (hweaker : ∀ s a t, l.Move attack s a t → l.Move defend s a t) :
    (¬ Satisfied (gameEquations (l.generator attack) (l.generator defend)) (.pair p q) ∧
      (distinguish (l.generator attack) (l.generator defend) p q).value =
        .ok (.error .bisimilar)) ∨
    (Satisfied (gameEquations (l.generator attack) (l.generator defend)) (.pair p q) ∧
      ∃ f, (distinguish (l.generator attack) (l.generator defend) p q).value = .ok (.ok f) ∧
        Tells l attack f (.pair p q)) := by
  by_cases h : Satisfied (gameEquations (l.generator attack) (l.generator defend)) (.pair p q)
  · exact .inr ⟨h, distinguish_extracts hl hp hq (extractable_tells hl hweaker) h⟩
  · exact .inl ⟨h, distinguish_refused hl hp hq h⟩

/-- The formula is accepted without definitions, and is found to hold at the first state and to
fail at the second when its modalities read the moves of the given strength. -/
structure Distinguishes (l : Lts) (attack : Strength) (f : Formula) (p q : StateId) : Prop where
  definitions : f.definitions = .ok []
  satisfies : ∀ reading : Strength → Strength, reading .strong = attack →
    ((l.modelBy reading []).satisfies p f).value = .ok true ∧
      ((l.modelBy reading []).satisfies q f).value = .ok false
  check : attack = .strong →
    (l.check p f).value = .ok (.ok true) ∧ (l.check q f).value = .ok (.ok false)

theorem Tells.distinguishes (hl : l.InRange) (hp : p < l.stateCount) (hq : q < l.stateCount)
    (h : Tells l attack f (.pair p q)) : Distinguishes l attack f p q := by
  classical
  obtain ⟨hplain, htold⟩ := h
  have hf : f.definitions = .ok [] := hplain [] []
  have hsatisfies : ∀ reading : Strength → Strength, reading .strong = attack →
      ((l.modelBy reading []).satisfies p f).value = .ok true ∧
        ((l.modelBy reading []).satisfies q f).value = .ok false := by
    intro reading hreading
    have hmoves : l.movesBy reading .strong = l.Move attack := congrArg l.Move hreading
    obtain ⟨hleft, hright⟩ := htold (l.movesBy reading) (fun _ _ => False) hmoves
    rw [satisfies_value hl hf hp reading, satisfies_value hl hf hq reading, decide_eq_true hleft,
      decide_eq_false hright]
    exact ⟨rfl, rfl⟩
  refine ⟨hf, hsatisfies, fun hattack => ?_⟩
  obtain ⟨hleft, hright⟩ := htold l.Move (fun _ _ => False) (congrArg l.Move hattack.symm)
  rw [check_value hl hf hp, check_value hl hf hq, decide_eq_true hleft, decide_eq_false hright]
  exact ⟨rfl, rfl⟩

theorem move_weaker (h : attack = .strong ∨ defend = .weak) {s t : StateId} {a : String}
    (step : l.Move attack s a t) : l.Move defend s a t := by
  cases attack with
  | strong =>
    cases defend with
    | strong => exact step
    | weak => exact Lts.Step.weak step
  | weak =>
    rcases h with h | rfl
    · cases h
    · exact step

/-- Bisimilar states are refused as such, and any others get a formula that tells them apart. -/
theorem distinguish_decides (hl : l.InRange) (hp : p < l.stateCount) (hq : q < l.stateCount)
    (hweaker : attack = .strong ∨ defend = .weak) :
    Refusal.bisimilar.message = "Processes are bisimilar" ∧
    (((bisimilar (l.generator attack) (l.generator defend) p q).value = .ok true ∧
        (distinguish (l.generator attack) (l.generator defend) p q).value =
          .ok (.error .bisimilar)) ∨
      ((bisimilar (l.generator attack) (l.generator defend) p q).value = .ok false ∧
        ∃ f, (distinguish (l.generator attack) (l.generator defend) p q).value = .ok (.ok f) ∧
          Distinguishes l attack f p q)) := by
  refine ⟨rfl, ?_⟩
  classical
  have hverdict := bisimilar_value hl hp hq attack defend
  rcases distinguish_value hl hp hq fun s a t => move_weaker hweaker with
    ⟨hunsatisfied, hrefused⟩ | ⟨hsatisfied, f, hfound, htells⟩
  · rw [decide_eq_true ((satisfied_pair_iff hl hp hq).not_left.mp hunsatisfied)] at hverdict
    exact .inl ⟨hverdict, hrefused⟩
  · rw [decide_eq_false ((satisfied_pair_iff hl hp hq).mp hsatisfied)] at hverdict
    exact .inr ⟨hverdict, f, hfound, htells.distinguishes hl hp hq⟩

end

theorem distinguish_decides_hesitant :
    Lts.hesitant.InRange ∧ 0 < Lts.hesitant.stateCount ∧ 3 < Lts.hesitant.stateCount ∧
      Refusal.bisimilar.message = "Processes are bisimilar" ∧
      (((bisimilar (Lts.hesitant.generator .strong) (Lts.hesitant.generator .weak) 0 3).value =
          .ok true ∧
        (distinguish (Lts.hesitant.generator .strong) (Lts.hesitant.generator .weak) 0 3).value =
          .ok (.error .bisimilar)) ∨
      ((bisimilar (Lts.hesitant.generator .strong) (Lts.hesitant.generator .weak) 0 3).value =
          .ok false ∧
        ∃ f, (distinguish (Lts.hesitant.generator .strong) (Lts.hesitant.generator .weak)
            0 3).value = .ok (.ok f) ∧
          Distinguishes Lts.hesitant .strong f 0 3)) :=
  ⟨by decide, by decide, by decide,
    distinguish_decides (by decide) (by decide) (by decide) (.inl rfl)⟩

end ProcessLogic
