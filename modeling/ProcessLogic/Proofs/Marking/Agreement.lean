import ProcessLogic.Proofs.Formula.Satisfaction
import ProcessLogic.Proofs.Game.Bisimulation
import ProcessLogic.Proofs.Game.Inclusion
import ProcessLogic.Proofs.Marking.Exhaustive

/-!
# The solvers agree

The three solvers may be run one after the other on a graph that is built on demand. A solver leaves
the graph larger than it found it, but no node stands for anything else than before. So whatever
solvers find out about a node, in whatever order they are run, is the same.
-/

set_option autoImplicit false

namespace ProcessLogic

inductive Solver where
  | onDemand
  | exhaustive
  | levels
deriving DecidableEq, Repr

/-- What a solver leaves behind. -/
structure Outcome (γ : Type) where
  solver : Solver
  graph : γ
  status : NodeId → Status

section

variable {γ : Type} [Hypergraph γ]

/-- Runs a solver; a search is for the root. -/
def Solver.run (solver : Solver) (graph : γ) : Run (Outcome γ) :=
  match solver with
  | .onDemand => do
    let (graph, marking) ← solve graph root
    pure ⟨.onDemand, graph, marking.status⟩
  | .exhaustive => do
    let (graph, marking) ← solveAll graph
    pure ⟨.exhaustive, graph, marking.status⟩
  | .levels => do
    let (graph, marking) ← solveLevels graph
    pure ⟨.levels, graph, marking.status⟩

/-- Runs solvers one after the other, each on the graph that the one before it left behind. -/
def solveInTurn : List Solver → γ → Run (List (Outcome γ))
  | [], _ => pure []
  | solver :: solvers, graph => do
    let outcome ← solver.run graph
    let outcomes ← solveInTurn solvers outcome.graph
    pure (outcome :: outcomes)

/-- A search decides the nodes it has explored, any other solver decides every node. -/
def Outcome.Decides (o : Outcome γ) (node : NodeId) : Prop :=
  match o.solver with
  | .onDemand => o.status node ≠ .unexplored
  | .exhaustive | .levels => node < Hypergraph.size o.graph

/-- The later outcome has nothing else to say about what the earlier one has decided. A search may
have nothing to say at all. -/
def Outcome.Upheld (earlier later : Outcome γ) : Prop :=
  ∀ node, earlier.Decides node → later.status node = earlier.status node ∨
    later.solver = .onDemand ∧ later.status node = .unexplored

/-- Whichever solvers are run in turn, all of them end, find the same answer for the root, and
uphold what was decided before. -/
def SolversAgree (graph : γ) (answer : Prop) : Prop :=
  ∀ solvers, ∃ outcomes, (solveInTurn solvers graph).value = .ok outcomes ∧
    outcomes.map (·.solver) = solvers ∧ (∀ o ∈ outcomes, (o.status root).Reports answer) ∧
    outcomes.Pairwise Outcome.Upheld

end

/-- The same graph, seen from a moment when it had fewer nodes. -/
def Presentation.since {γ ρ : Type} [Hypergraph γ] (P : Presentation γ ρ) (start : γ) :
    Presentation γ ρ where
  equations := P.equations
  Lawful := fun g => P.Lawful g ∧ ∀ n q, P.name start n = some q → P.name g n = some q
  name := P.name
  bound := P.bound
  searchBound_eq := fun hg => P.searchBound_eq hg.1
  lt_size := fun hg => P.lt_size hg.1
  hyperedges_value := by
    intro g node r hg hname
    obtain ⟨g', edges, hvalue, hlawful, hgrow, hspells⟩ := P.hyperedges_value hg.1 hname
    exact ⟨g', edges, hvalue, ⟨hlawful, fun n q hn => hgrow n q (hg.2 n q hn)⟩, hgrow, hspells⟩
  weight_le := fun hg => P.weight_le hg.1

section

variable {ρ : Type} [DecidableEq ρ] {S : System ρ} {T : S.Theory} {nodes : NodeTable ρ} {r : ρ}

/-- The outcome says the truth about the records of the nodes, which are those of `nodes` and more. -/
structure Outcome.Exact (T : S.Theory) (nodes : NodeTable ρ) (o : Outcome (Unfolding ρ)) : Prop where
  system_eq : o.graph.system = S
  faithful : o.graph.nodes.Faithful T T.surplus
  grown : ∀ n q, nodes.name n = some q → o.graph.nodes.name n = some q
  named : ∀ n, o.Decides n → ∃ q, o.graph.nodes.name n = some q
  reports : ∀ n q, o.graph.nodes.name n = some q →
    (o.status n).Reports (Satisfied T.equations q) ∨
      o.solver = .onDemand ∧ o.status n = .unexplored

theorem Outcome.Exact.reports_of_decides {o : Outcome (Unfolding ρ)} {n : NodeId} {q : ρ}
    (h : o.Exact T nodes) (hn : o.Decides n) (hq : o.graph.nodes.name n = some q) :
    (o.status n).Reports (Satisfied T.equations q) := by
  rcases h.reports n q hq with hreports | ⟨hsolver, hstatus⟩
  · exact hreports
  · rw [Decides, hsolver] at hn
    exact absurd hstatus hn

theorem solve_exact {node : NodeId} (h : nodes.Faithful T T.surplus)
    (hnode : nodes.name node = some r) :
    ∃ u m, (solve (⟨S, nodes⟩ : Unfolding ρ) node).value = .ok (u, m) ∧
      Outcome.Exact T nodes ⟨.onDemand, u, m.status⟩ ∧ m.status node ≠ .unexplored := by
  let P := (Unfolding.presentation T).since ⟨S, nodes⟩
  have hlawful : P.Lawful ⟨S, nodes⟩ := ⟨⟨rfl, h⟩, fun _ _ hn => hn⟩
  obtain ⟨u, m, hvalue, ⟨⟨hsystem, hfaithful⟩, hgrown⟩, -, hexplored, hdecided⟩ :=
    solve_value P hlawful hnode
  refine ⟨u, m, hvalue, ⟨hsystem, hfaithful, hgrown, ?_, ?_⟩, hexplored⟩
  · intro n hn
    obtain ⟨q, hq, -⟩ := hdecided n hn
    exact ⟨q, hq⟩
  · intro n q hq
    by_cases hn : m.status n = .unexplored
    · exact .inr ⟨rfl, hn⟩
    · obtain ⟨q', hq', -, hproved⟩ := hdecided n hn
      obtain rfl : q = q' := Option.some.inj (hq.symm.trans hq')
      exact .inl (Status.reports_of_proved_iff hn hproved)

theorem solveAll_exact (h : nodes.Faithful T T.surplus) :
    ∃ u m, (solveAll (⟨S, nodes⟩ : Unfolding ρ)).value = .ok (u, m) ∧
      Outcome.Exact T nodes ⟨.exhaustive, u, m.status⟩ := by
  obtain ⟨t, m, hvalue, hfaithful, hgrown, hstatus⟩ := Unfolding.solveAll_value h
  refine ⟨⟨S, t⟩, m, hvalue, rfl, hfaithful, hgrown, ?_, ?_⟩
  · intro n hn
    exact Unfolding.exists_name hn
  · intro n q hq
    exact .inl (hstatus n q hq)

theorem solveLevels_exact (h : nodes.Faithful T T.surplus) :
    ∃ u m, (solveLevels (⟨S, nodes⟩ : Unfolding ρ)).value = .ok (u, m) ∧
      Outcome.Exact T nodes ⟨.levels, u, m.status⟩ := by
  obtain ⟨t, m, hvalue, hfaithful, hgrown, -, hlevel, -⟩ := Unfolding.solveLevels_value h
  refine ⟨⟨S, t⟩, m, hvalue, rfl, hfaithful, hgrown, ?_, ?_⟩
  · intro n hn
    exact Unfolding.exists_name hn
  · intro n q hq
    have hfinite : (m.level n).isFinite = true ↔ Satisfied T.equations q := by
      rw [Level.isFinite_iff, satisfied_iff_exists_stage]
      exact exists_congr fun k => hlevel n q k hq
    left
    show (if (m.level n).isFinite = true then Status.proved else .unproved).Reports _
    split
    · next hn => exact hfinite.mp hn
    · next hn => exact fun hq => hn (hfinite.mpr hq)

theorem run_exact (solver : Solver) (h : nodes.Faithful T T.surplus)
    (hroot : nodes.name root = some r) :
    ∃ o, (solver.run (⟨S, nodes⟩ : Unfolding ρ)).value = .ok o ∧ o.solver = solver ∧
      o.Exact T nodes ∧ o.Decides root := by
  cases solver with
  | onDemand =>
    obtain ⟨u, m, hvalue, hexact, hexplored⟩ := solve_exact h hroot
    exact ⟨_, Run.value_bind_of_ok hvalue _, rfl, hexact, hexplored⟩
  | exhaustive =>
    obtain ⟨u, m, hvalue, hexact⟩ := solveAll_exact h
    exact ⟨_, Run.value_bind_of_ok hvalue _, rfl, hexact,
      Unfolding.name_lt_size (hexact.grown root r hroot)⟩
  | levels =>
    obtain ⟨u, m, hvalue, hexact⟩ := solveLevels_exact h
    exact ⟨_, Run.value_bind_of_ok hvalue _, rfl, hexact,
      Unfolding.name_lt_size (hexact.grown root r hroot)⟩

/-- What a graph knows about a node after a run it also knows after all later runs. -/
theorem Outcome.Exact.upheld {a b : Outcome (Unfolding ρ)} (ha : a.Exact T nodes)
    (hb : b.Exact T a.graph.nodes) : a.Upheld b := by
  intro n hn
  obtain ⟨q, hq⟩ := ha.named n hn
  have hearlier := ha.reports_of_decides hn hq
  rcases hb.reports n q (hb.grown n q hq) with hlater | hnone
  · exact .inl (hlater.eq hearlier)
  · exact .inr hnone

theorem Outcome.Exact.of_grown {nodes' : NodeTable ρ} {o : Outcome (Unfolding ρ)}
    (hgrown : ∀ n q, nodes.name n = some q → nodes'.name n = some q) (h : o.Exact T nodes') :
    o.Exact T nodes :=
  { h with grown := fun n q hn => h.grown n q (hgrown n q hn) }

theorem solveInTurn_exact (solvers : List Solver) (h : nodes.Faithful T T.surplus)
    (hroot : nodes.name root = some r) :
    ∃ outcomes, (solveInTurn solvers (⟨S, nodes⟩ : Unfolding ρ)).value = .ok outcomes ∧
      outcomes.map (·.solver) = solvers ∧
      (∀ o ∈ outcomes, o.Exact T nodes ∧ o.Decides root) ∧ outcomes.Pairwise Outcome.Upheld := by
  induction solvers generalizing nodes with
  | nil => exact ⟨[], rfl, rfl, by simp, .nil⟩
  | cons solver solvers ih =>
    obtain ⟨o, hvalue, hsolver, ho, hdecides⟩ := run_exact solver h hroot
    obtain ⟨os, hrest, hsolvers, hos, hpairwise⟩ := ih ho.faithful (ho.grown root r hroot)
    refine ⟨o :: os, ?_, by simp [hsolver, hsolvers], ?_, ?_⟩
    · have hgraph : o.graph = ⟨S, o.graph.nodes⟩ := by
        rw [← ho.system_eq]
      rw [solveInTurn, Run.value_bind_of_ok hvalue, hgraph, Run.value_bind_of_ok hrest]
      rfl
    · intro b hb
      rcases List.mem_cons.mp hb with rfl | hb
      · exact ⟨ho, hdecides⟩
      · obtain ⟨hexact, hdecides⟩ := hos b hb
        exact ⟨hexact.of_grown ho.grown, hdecides⟩
    · exact List.pairwise_cons.mpr ⟨fun b hb => ho.upheld (hos b hb).1, hpairwise⟩

/-- The solvers agree on an unfolding whose first node stands for a record, and the answer is whether
the record is satisfied. -/
theorem Unfolding.solversAgree {answer : Prop} (h : nodes.Faithful T T.surplus)
    (hroot : nodes.name root = some r) (hanswer : Satisfied T.equations r ↔ answer) :
    SolversAgree (⟨S, nodes⟩ : Unfolding ρ) answer := by
  intro solvers
  obtain ⟨outcomes, hvalue, hsolvers, hexact, hpairwise⟩ := solveInTurn_exact solvers h hroot
  refine ⟨outcomes, hvalue, hsolvers, ?_, hpairwise⟩
  intro o ho
  obtain ⟨ho, hdecides⟩ := hexact o ho
  rw [← propext hanswer]
  exact ho.reports_of_decides hdecides (ho.grown root r hroot)

end

section

variable {l : Lts} {p q s : StateId} {f : Formula} {d : Definitions}

/-- The solvers agree on the games, chases and formula searches of a system. -/
theorem solvers_agree (hl : l.InRange) (hp : p < l.stateCount) (hq : q < l.stateCount)
    (attack defend : Strength) (hf : f.definitions = .ok d) (hs : s < l.stateCount)
    (reading : Strength → Strength) (kind : Extremum) (v : Valuation) :
    SolversAgree (Game.ofPair (l.generator attack) (l.generator defend) p q)
        (¬ Bisimilar (l.Move attack) (l.Move defend) p q) ∧
      SolversAgree (Chase.ofPair (l.generator attack) (l.generator defend) p q)
        (¬ TracesIncluded (l.Move attack) (l.Move defend) p q) ∧
      SolversAgree ((l.modelBy reading d).unfold kind s f)
        (kind.Sought (f.Holds (l.movesBy reading) v s)) := by
  refine ⟨?_, ?_, ?_⟩
  · have hoccurs : (gameTheory hl attack defend).Occurs (.pair p q) := ⟨hp, hq⟩
    obtain ⟨hfaithful, hroot⟩ := Unfolding.faithful_ofRoot _ hoccurs rfl
    exact Unfolding.solversAgree (T := gameTheory hl attack defend) hfaithful hroot
      (satisfied_pair_iff hl hp hq)
  · have hoccurs : (pursuitTheory hl attack defend).Occurs ⟨p, [q]⟩ := Pursuit.occurs_start hp hq
    obtain ⟨hfaithful, hroot⟩ := Unfolding.faithful_ofRoot _ hoccurs rfl
    exact Unfolding.solversAgree (T := pursuitTheory hl attack defend) hfaithful hroot
      (satisfied_pursuit_iff hl hp hq)
  · obtain ⟨hd, hscoped, hclosed⟩ := Formula.definitions_spec hf
    have hsettle := settles_depth hl hf reading kind v
    have hjudges : Judges l reading kind f v (meaning l reading kind v) :=
      fun _ _ _ _ _ _ _ => meaning_iff
    have hroot : (Model.firstNodes (.check s f)).name root = some (.check s f) := rfl
    exact Unfolding.solversAgree
      (T := queryTheory reading (meaning l reading kind v) hl hscoped hclosed hsettle s)
      (faithful_firstNodes hl hscoped hclosed hsettle hs) hroot
      (satisfied_top_iff hl hd hscoped hclosed hjudges hs)

theorem solvers_agree_hesitant :
    Lts.hesitant.InRange ∧ 0 < Lts.hesitant.stateCount ∧ 2 < Lts.hesitant.stateCount ∧
      alwaysReady.definitions = .ok [("X", alwaysReady), ("Y", ready)] ∧
      SolversAgree (Game.ofPair (Lts.hesitant.generator .strong) (Lts.hesitant.generator .weak) 0 2)
        (¬ Bisimilar (Lts.hesitant.Move .strong) (Lts.hesitant.Move .weak) 0 2) ∧
      SolversAgree
        (Chase.ofPair (Lts.hesitant.generator .strong) (Lts.hesitant.generator .weak) 0 2)
        (¬ TracesIncluded (Lts.hesitant.Move .strong) (Lts.hesitant.Move .weak) 0 2) ∧
      SolversAgree
        ((Lts.hesitant.modelBy id [("X", alwaysReady), ("Y", ready)]).unfold .greatest 0 alwaysReady)
        (¬ alwaysReady.Holds (Lts.hesitant.movesBy id) (fun _ _ => False) 0) :=
  ⟨by decide, by decide, by decide, rfl,
    solvers_agree (by decide) (by decide) (by decide) .strong .weak rfl (by decide) id .greatest _⟩

end

end ProcessLogic
