import ProcessLogic.Proofs.Formula.Acceptance
import ProcessLogic.Proofs.Formula.Satisfaction

/-!
# Names are declared

A search may break off for several reasons, but not because a name has no definition, if it is for a
formula that was accepted: the queries that come up are about parts of the formula, also in the
searches that decide fixpoints of the other kind. This takes no assumption on the system.
-/

set_option autoImplicit false

namespace ProcessLogic

/-- The outcome has the property, or is a fault that is not about a name. -/
def Resolves {α : Type} (Q : α → Prop) : Except Fault α → Prop
  | .ok a => Q a
  | .error e => ∀ name, e ≠ .undeclared name

section

variable {α β σ : Type} {Q : α → Prop} {R : β → Prop}

@[simp] theorem resolves_ok {a : α} : Resolves Q (.ok a) ↔ Q a := Iff.rfl

@[simp] theorem resolves_error {e : Fault} :
    Resolves Q (.error e) ↔ ∀ name, e ≠ .undeclared name := Iff.rfl

theorem Resolves.ne_undeclared {x : Except Fault α} (h : Resolves Q x) (name : String) :
    x ≠ .error (.undeclared name) := by
  rintro rfl
  exact h name rfl

theorem Resolves.bind {x : Except Fault α} {f : α → Except Fault β} (hx : Resolves Q x)
    (hf : ∀ a, Q a → Resolves R (f a)) : Resolves R (x >>= f) := by
  cases x with
  | error e => exact hx
  | ok a => exact hf a hx

theorem Resolves.bind_run {x : Run α} {f : α → Run β} (hx : Resolves Q x.value)
    (hf : ∀ a, Q a → Resolves R (f a).value) : Resolves R (x >>= f).value := by
  rw [Run.value_bind]
  exact hx.bind hf

theorem resolves_fetch {t : Table α} (h : ∀ a ∈ t, Q a) (i : Nat) : Resolves Q (t.fetch i) := by
  unfold Table.fetch
  cases hi : t[i]? with
  | none => simp
  | some a => exact h a (Array.mem_of_getElem? hi)

theorem resolves_mapM {f : α → Except Fault β} (hf : ∀ a, Resolves (fun _ => True) (f a))
    (as : List α) : Resolves (fun _ => True) (as.mapM f) := by
  induction as with
  | nil => trivial
  | cons a as ih =>
    rw [List.mapM_cons]
    exact (hf a).bind fun _ _ => ih.bind fun _ _ => trivial

theorem resolves_iterate {I : σ → Prop} {done : σ → Bool} {step : σ → Run σ}
    (hstep : ∀ s, I s → Resolves I (step s).value) (n : Nat) {s : σ} (hs : I s) :
    Resolves I (Run.iterate done step n s).value := by
  induction n generalizing s with
  | zero => exact hs
  | succ n ih =>
    rw [Run.iterate_succ]
    split
    · exact hs
    · exact (hstep s hs).bind_run fun t ht => ih ht

end

namespace Lts

variable {l : Lts}

theorem resolves_row (s : StateId) : Resolves (fun _ => True) (l.row s) :=
  resolves_fetch (fun _ _ => trivial) s

theorem resolves_closeStack (fuel : Nat) (stack : List StateId) (seen : Numbering StateId) :
    Resolves (fun _ => True) (l.closeStack fuel stack seen) := by
  induction fuel generalizing stack seen with
  | zero => cases stack <;> simp [closeStack]
  | succ fuel ih =>
    cases stack with
    | nil => simp [closeStack]
    | cons s stack =>
      rw [closeStack]
      exact (resolves_row s).bind fun row _ => ih _ _

theorem resolves_tauClosure (s : StateId) : Resolves (fun _ => True) (l.tauClosure s) := by
  have h := resolves_closeStack (l := l) (l.stateCount + 1) [s] (Numbering.ofList [s])
  unfold tauClosure
  cases hclose : l.closeStack (l.stateCount + 1) [s] (Numbering.ofList [s]) with
  | error e => rwa [hclose] at h
  | ok seen => trivial

theorem resolves_visibleMoves (s : StateId) : Resolves (fun _ => True) (l.visibleMoves s) := by
  refine (resolves_row s).bind fun row _ => ?_
  refine (resolves_mapM (fun t => ?_) _).bind fun _ _ => trivial
  exact (resolves_tauClosure t.target).bind fun _ _ => trivial

theorem resolves_weakRow (s : StateId) : Resolves (fun _ => True) (l.weakRow s) := by
  refine (resolves_tauClosure s).bind fun before _ => ?_
  exact (resolves_mapM resolves_visibleMoves before).bind fun _ _ => trivial

theorem resolves_row_generator (strength : Strength) (s : StateId) :
    Resolves (fun _ => True) ((l.generator strength).row s) := by
  have hrows : ∀ row ∈ (l.generator strength).rows, Resolves (fun _ => True) row.get := by
    intro row hrow
    cases strength with
    | strong =>
      obtain ⟨ts, -, rfl⟩ := Array.mem_map.mp hrow
      trivial
    | weak =>
      obtain ⟨t, -, rfl⟩ := Array.mem_map.mp hrow
      exact resolves_weakRow t
  exact (resolves_fetch hrows s).bind fun _ hrow => hrow

theorem resolves_successors (strength : Strength) (s : StateId) :
    Resolves (fun _ => True) ((l.generator strength).successors s).value := by
  have hrow : Resolves (fun _ => True)
      (liftM ((l.generator strength).row s) : Run (List Transition)).value :=
    resolves_row_generator strength s
  refine hrow.bind_run fun row _ => ?_
  split <;> trivial

end Lts

namespace NodeTable

variable {ρ : Type} {Q : ρ → Prop} {t : NodeTable ρ} {r : ρ}

/-- All records have the property. -/
def All (Q : ρ → Prop) (t : NodeTable ρ) : Prop := ∀ row ∈ t.rows, Q row.record

theorem All.push (h : t.All Q) {row : Node ρ} (hrow : Q row.record) (index : Index) :
    All Q ⟨t.rows.push row, index⟩ := by
  intro row' hmem
  rcases Array.mem_push.mp hmem with hmem | rfl
  · exact h row' hmem
  · exact hrow

theorem resolves_store (h : t.All Q) (node : NodeId) (edges : List Hyperedge) :
    Resolves (All Q) (t.store node edges) := by
  have hfetch : Resolves (fun n : Node ρ => Q n.record) (t.rows.fetch node) :=
    resolves_fetch h node
  refine hfetch.bind fun n hn => ?_
  split
  · show ∀ name, Fault.builtTwice node ≠ .undeclared name
    simp
  · have hassign : Resolves (fun rows : Table (Node ρ) => ∀ row ∈ rows, Q row.record)
        (t.rows.assign node { n with edges := some edges }) := by
      unfold Table.assign
      split
      · intro row hrow
        rcases Array.mem_or_eq_of_mem_setIfInBounds hrow with hrow | rfl
        · exact h row hrow
        · exact hn
      · simp
    exact hassign.bind fun rows hrows => hrows

variable [DecidableEq ρ]

theorem All.intern (h : t.All Q) (hr : Q r) (key? : Option Nat) : (t.intern key? r).1.All Q := by
  cases key? with
  | none => exact h.push hr t.index
  | some key =>
    cases hfind : t.find? key r with
    | some node =>
      rw [intern_found hfind]
      exact h
    | none =>
      rw [intern_new hfind]
      exact h.push hr _

theorem All.internEdge {key? : ρ → Option Nat} {records : List ρ} (h : t.All Q)
    (hrecords : ∀ r ∈ records, Q r) : (t.internEdge key? records).1.All Q := by
  induction records generalizing t with
  | nil => exact h
  | cons r records ih =>
    obtain ⟨hr, hrest⟩ := List.forall_mem_cons.mp hrecords
    rw [NodeTable.internEdge, thread_cons]
    exact ih (h.intern hr (key? r)) hrest

theorem All.internEdges {key? : ρ → Option Nat} {equation : List (List ρ)} (h : t.All Q)
    (hequation : ∀ r ∈ equation.flatten, Q r) : (t.internEdges key? equation).1.All Q := by
  induction equation generalizing t with
  | nil => exact h
  | cons records equation ih =>
    rw [List.flatten_cons] at hequation
    rw [NodeTable.internEdges, thread_cons]
    exact ih (h.internEdge fun r hr => hequation r (List.mem_append_left _ hr))
      fun r hr => hequation r (List.mem_append_right _ hr)

end NodeTable

/-- Building a node keeps a property of all records, if the equations do. -/
theorem Unfolding.resolves_hyperedges {ρ : Type} [DecidableEq ρ] {Q : ρ → Prop} {u : Unfolding ρ}
    (hequation : ∀ r, Q r →
      Resolves (fun e => ∀ q ∈ e.flatten, Q q) (u.system.equation r).value)
    (h : u.nodes.All Q) (node : NodeId) :
    Resolves (fun p => p.1.system = u.system ∧ p.1.nodes.All Q) (u.hyperedges node).value := by
  rcases u with ⟨system, nodes⟩
  have hfetch : Resolves (fun n : Node ρ => Q n.record)
      (liftM (nodes.rows.fetch node) : Run (Node ρ)).value := resolves_fetch h node
  refine hfetch.bind_run fun n hn => ?_
  rcases n with ⟨r, built⟩
  cases built with
  | some edges => exact ⟨rfl, h⟩
  | none =>
    have hreport : Resolves (fun _ => True) (Run.report (system.announce node r)).value := trivial
    refine hreport.bind_run fun _ _ => (hequation r hn).bind_run fun e he => ?_
    have hstore : Resolves (NodeTable.All Q)
        (liftM ((nodes.internEdges system.key? e).1.store node
          (nodes.internEdges system.key? e).2) : Run (NodeTable ρ)).value :=
      NodeTable.resolves_store (h.internEdges he) node _
    exact hstore.bind_run fun t ht => ⟨rfl, ht⟩

section

variable {γ : Type} [Hypergraph γ] {I : γ → Prop}
  (hedges : ∀ g node, I g → Resolves (fun p => I p.1) (Hypergraph.hyperedges g node).value)

include hedges

theorem resolves_explore {s : Search γ} (hs : I s.graph) (node : NodeId) (os : List Obligation) :
    Resolves (fun t => I t.graph) (s.explore node os).value := by
  rcases s with ⟨g, marking, waiting, work, explored, steps⟩
  simp only [Search.explore]
  split
  · exact (hedges g node hs).bind_run fun p hp => hp
  · have hrows : Resolves (fun _ => True)
        (liftM (Table.checkedRows (node + 1)) : Run Unit).value := by
      rw [Run.value_lift, Table.checkedRows]
      split <;> simp
    exact hrows.bind_run fun _ _ => by simp [Run.fail]

theorem resolves_treat {s : Search γ} (hs : I s.graph) (o : Obligation) :
    Resolves (fun t => I t.graph) (s.treat o).value := by
  obtain ⟨-, htreat⟩ | ⟨-, -, htreat⟩ | ⟨-, next, rest, -, ⟨-, htreat⟩ | ⟨-, htreat⟩⟩ :=
    Search.treat_cases s o
  all_goals rw [htreat]
  · exact hs
  · exact hs
  · exact hs
  · exact resolves_explore hedges hs next _

theorem resolves_step {s : Search γ} (hs : I s.graph) :
    Resolves (fun t => I t.graph) s.step.value := by
  rcases s with ⟨g, marking, waiting, work, explored, steps⟩
  cases work with
  | nil => exact hs
  | cons o work =>
    exact resolves_treat hedges (s := ⟨g, marking, waiting, work, explored, steps + 1⟩) hs o

/-- A search breaks off on a name only if building a node does. -/
theorem resolves_solve {g : γ} (hg : I g) (root : NodeId) :
    Resolves (fun p => I p.1) (solve g root).value := by
  have hcomplete : Resolves (fun t : Search γ => I t.graph) (Search.complete g root).value := by
    refine (resolves_explore hedges hg root []).bind_run fun s hs => ?_
    refine (resolves_iterate (fun _ => resolves_step hedges) _ hs).bind_run fun t ht => ?_
    split
    · exact ht
    · simp [Run.fail]
  exact hcomplete.bind_run fun t ht => ht

end

theorem Formula.Scoped.of_contains {d : Definitions} {f g : Formula} {scope : Scope}
    (hf : f.Scoped d) (h : f.Contains scope g) : g.Scoped d := by
  induction h with
  | self => exact hf
  | modal _ ih =>
    cases hf with
    | modal hbody => exact ih hbody
  | part hmem _ ih =>
    cases hf with
    | junction hparts => exact ih (hparts _ hmem)
  | body _ ih =>
    cases hf with
    | fix _ _ hbody => exact ih hbody

/-- All names of the formula that is asked about have definitions. -/
def Query.Scoped (d : Definitions) (q : Query) : Prop :=
  ∀ s f, q.question? = some (s, f) → f.Scoped d

theorem Query.scoped_check {d : Definitions} {s : StateId} {f : Formula} (hf : f.Scoped d) :
    (Query.check s f).Scoped d := by
  intro s' f' heq
  obtain ⟨-, rfl⟩ := Prod.mk.inj (Option.some.inj heq)
  exact hf

namespace Model

variable {l : Lts} {reading : Strength → Strength} {d : Definitions} {kind : Extremum}
  {settle : StateId → Formula → Run (List (List Query))}

theorem scoped_of_mem_settled (satisfied : Bool) :
    ∀ q ∈ (settled satisfied : List (List Query)).flatten, q.Scoped d := by
  rw [flatten_settled]
  simp

theorem resolves_equation
    (hd : ∀ x F, d.find? x = some F → F.Scoped d)
    (hsettle : ∀ s f, f.Scoped d →
      Resolves (fun e => ∀ q ∈ e.flatten, q.Scoped d) (settle s f).value)
    {s : StateId} {f : Formula} (hf : f.Scoped d) :
    Resolves (fun e => ∀ q ∈ e.flatten, q.Scoped d)
      ((l.modelBy reading d).equation kind settle s f).value := by
  induction f using Formula.induct with
  | const value => exact scoped_of_mem_settled _
  | var x =>
    cases hf with
    | @var k _ g hx =>
      have hfind : (l.modelBy reading d).definitions.find? x = some (.fix k x g) := hx
      rw [Model.equation, hfind]
      intro q hq s' f' heq
      obtain rfl : q = .definition s x (.fix k x g) := by simpa using hq
      obtain ⟨-, rfl⟩ := Prod.mk.inj (Option.some.inj heq)
      exact hd x _ hx
  | modal q strength a f _ =>
    cases hf with
    | modal hbody =>
      rw [Model.equation, generator_modelBy]
      refine (Lts.resolves_successors (reading strength) s).bind_run fun row _ => ?_
      intro query hquery
      rw [flatten_spread] at hquery
      obtain ⟨t, -, rfl⟩ := List.mem_map.mp hquery
      exact Query.scoped_check hbody
  | junction q fs _ =>
    cases hf with
    | junction hparts =>
      intro query hquery
      rw [flatten_spread] at hquery
      obtain ⟨f, hf, rfl⟩ := List.mem_map.mp hquery
      exact Query.scoped_check (hparts f hf)
  | fix k x f ih =>
    rw [Model.equation]
    split
    · cases hf with
      | fix _ _ hbody => exact ih hbody
    · exact hsettle s _ hf

/-- What the unfolding of a formula search keeps. -/
structure Declares (d : Definitions) (u : Unfolding Query) : Prop where
  records : u.nodes.All (Query.Scoped d)
  equation : ∀ q, Query.Scoped d q →
    Resolves (fun e => ∀ r ∈ e.flatten, Query.Scoped d r) (u.system.equation q).value

theorem Declares.hyperedges {u : Unfolding Query} (h : Declares d u) (node : NodeId) :
    Resolves (fun p => Declares d p.1) (u.hyperedges node).value := by
  have hkeep := Unfolding.resolves_hyperedges h.equation h.records node
  cases hvalue : (u.hyperedges node).value with
  | error e => rwa [hvalue] at hkeep
  | ok p =>
    rw [hvalue] at hkeep
    obtain ⟨hsystem, hrecords⟩ := hkeep
    exact ⟨hrecords, hsystem ▸ h.equation⟩

theorem declares_unfoldWith (hd : ∀ x F, d.find? x = some F → F.Scoped d)
    (hsettle : ∀ s f, f.Scoped d →
      Resolves (fun e => ∀ q ∈ e.flatten, q.Scoped d) (settle s f).value)
    (s : StateId) {f : Formula} (hf : f.Scoped d) :
    Declares d ((l.modelBy reading d).unfoldWith kind settle s f) where
  records := by
    intro row hrow
    have hmem : row ∈ (Model.firstNodes (.check s f)).rows.toList := Array.mem_toList_iff.mpr hrow
    have hrows : (Model.firstNodes (.check s f)).rows.toList =
        [⟨.check s f, none⟩, ⟨.verdict true, some (settled true)⟩,
          ⟨.verdict false, some (settled false)⟩] := rfl
    rw [hrows] at hmem
    simp only [List.mem_cons, List.not_mem_nil, or_false] at hmem
    rcases hmem with rfl | rfl | rfl
    · exact Query.scoped_check hf
    · exact fun _ _ heq => by simp [Query.question?] at heq
    · exact fun _ _ heq => by simp [Query.question?] at heq
  equation := by
    intro q hq
    cases q with
    | verdict value => exact scoped_of_mem_settled value
    | check t g => exact resolves_equation hd hsettle (hq t g rfl)
    | definition t x g => exact resolves_equation hd hsettle (hq t g rfl)

theorem resolves_settle (hd : ∀ x F, d.find? x = some F → F.Scoped d) (depth : Nat)
    (kind : Extremum) (s : StateId) (f : Formula) (hf : f.Scoped d) :
    Resolves (fun e => ∀ q ∈ e.flatten, q.Scoped d)
      ((l.modelBy reading d).settle depth kind s f).value := by
  induction depth generalizing kind s f with
  | zero => simp [Model.settle, Run.fail]
  | succ depth ih =>
    have hunfold : Declares d ((l.modelBy reading d).unfoldWith kind.dual
        ((l.modelBy reading d).settle depth kind.dual) s f) :=
      declares_unfoldWith hd (ih kind.dual) s hf
    rw [Model.settle]
    refine (resolves_solve (fun _ node h => h.hyperedges node) hunfold root).bind_run
      fun p _ => ?_
    exact scoped_of_mem_settled _

theorem Declares.of_asks {u u' : Unfolding Query} (h : Declares d u)
    (hasks : Relation.ReflTransGen Unfolding.Asks u u') : Declares d u' := by
  induction hasks with
  | refl => exact h
  | tail _ hask ih =>
    obtain ⟨node, edges, -, hvalue⟩ := hask
    have hkeep := ih.hyperedges node
    rw [hvalue] at hkeep
    exact hkeep

end Model

namespace Formula

variable {f F : Formula} {d : Definitions} {x : String}

/-- The definition of a name is the fixpoint that binds it. -/
theorem find?_definitions_iff (h : f.definitions = .ok d) :
    d.find? x = some F ↔ ∃ scope kind g, F = .fix kind x g ∧ f.Contains scope F := by
  obtain ⟨haccept, rfl⟩ := definitions_eq_ok_iff.mp h
  rw [Definitions.find?_eq_some_iff haccept.distinct, mem_fixpoints]

theorem scoped_of_find? (h : f.definitions = .ok d) (hx : d.find? x = some F) : F.Scoped d := by
  obtain ⟨scope, -, -, -, hcontains⟩ := (find?_definitions_iff h).mp hx
  exact (definitions_spec h).2.1.of_contains hcontains

/-- A formula is accepted if and only if it is closed, binds no name twice and is free of
alternation. Then its names stand for the fixpoints that bind them, and no search for it meets a
name without a definition. -/
theorem definitions_iff_acceptable (f : Formula) :
    ((∃ d, f.definitions = .ok d) ↔ f.Acceptable) ∧
      ∀ d, f.definitions = .ok d →
        (∀ x F, d.find? x = some F ↔
          ∃ scope kind g, F = .fix kind x g ∧ f.Contains scope F) ∧
        ∀ (l : Lts) (reading : Strength → Strength) (kind : Extremum) (s : StateId)
          (u : Unfolding Query),
          Relation.ReflTransGen Unfolding.Asks ((l.modelBy reading d).unfold kind s f) u →
            ∀ node name, (u.hyperedges node).value ≠ .error (.undeclared name) := by
  refine ⟨?_, ?_⟩
  · simp [definitions_eq_ok_iff]
  · intro d h
    refine ⟨fun x F => find?_definitions_iff h, ?_⟩
    intro l reading kind s u hasks node name
    have hd : ∀ x F, d.find? x = some F → F.Scoped d := fun _ _ => scoped_of_find? h
    have hstart : Model.Declares d ((l.modelBy reading d).unfold kind s f) :=
      Model.declares_unfoldWith hd (Model.resolves_settle hd _ kind) s (definitions_spec h).2.1
    exact ((hstart.of_asks hasks).hyperedges node).ne_undeclared name

theorem definitions_iff_acceptable_alwaysReady :
    alwaysReady.definitions = .ok [("X", alwaysReady), ("Y", ready)] ∧ alwaysReady.Acceptable ∧
      (∀ x F, Definitions.find? [("X", alwaysReady), ("Y", ready)] x = some F ↔
        ∃ scope kind g, F = .fix kind x g ∧ alwaysReady.Contains scope F) ∧
      ∀ (l : Lts) (reading : Strength → Strength) (kind : Extremum) (s : StateId)
        (u : Unfolding Query),
        Relation.ReflTransGen Unfolding.Asks
          ((l.modelBy reading [("X", alwaysReady), ("Y", ready)]).unfold kind s alwaysReady) u →
          ∀ node name, (u.hyperedges node).value ≠ .error (.undeclared name) :=
  ⟨rfl, (definitions_iff_acceptable alwaysReady).1.mp ⟨_, rfl⟩,
    (definitions_iff_acceptable alwaysReady).2 _ rfl⟩

/-- A formula that is not accepted may well meet such a name. -/
example : (((Lts.hesitant.modelBy id []).unfold .least 0 (.var "X")).hyperedges root).value =
    .error (.undeclared "X") := rfl

end Formula

end ProcessLogic
