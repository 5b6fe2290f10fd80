import ProcessLogic.Marking.Exhaustive
import ProcessLogic.Proofs.Marking.OnDemand
import ProcessLogic.Proofs.Marking.Rank

/-!
# Solving every node is exact

Solving all nodes at once is a search that begins with every node explored. So what holds throughout
a search holds here, and at the end exactly the satisfied nodes are proved. A search has a node it
starts from; here one more unknown plays that part, with a hyperedge to every node.
-/

set_option autoImplicit false

namespace ProcessLogic

section

variable {γ ρ : Type} [Hypergraph γ]

/-- The same graph for other equations, which agree on what its nodes stand for. -/
def Presentation.withEquations (P : Presentation γ ρ) (e : Equations ρ)
    (h : ∀ {g node r}, P.Lawful g → P.name g node = some r → e r = P.equations r) :
    Presentation γ ρ where
  equations := e
  Lawful := P.Lawful
  name := P.name
  bound := P.bound
  searchBound_eq := P.searchBound_eq
  lt_size := P.lt_size
  hyperedges_value := by
    intro g node r hg hname
    obtain ⟨g', edges, hvalue, hg', hgrow, hspells⟩ := P.hyperedges_value hg hname
    rw [← h hg hname] at hspells
    exact ⟨g', edges, hvalue, hg', hgrow, hspells⟩
  weight_le := by
    intro g named hg hnodup hnamed
    have hweights : named.map (fun p => weight (e p.2)) =
        named.map fun p => weight (P.equations p.2) := by
      apply List.map_congr_left
      intro p hp
      rw [h hg (hnamed p hp)]
    rw [hweights]
    exact P.weight_le hg hnodup hnamed

/-- Equations that agree on a closed set have the same solution there. -/
theorem Satisfied.congr {e e' : Equations ρ} {D : ρ → Prop} (hagree : ∀ r, D r → e' r = e r)
    (hclosed : ∀ r, D r → ∀ us ∈ e r, ∀ q ∈ us, D q) {r : ρ} (hr : D r) (h : Satisfied e r) :
    Satisfied e' r := by
  induction h with
  | @intro r us hus _ ih =>
    have hus' : us ∈ e' r := by rwa [hagree r hr]
    exact .intro hus' fun q hq => ih q hq (hclosed r hr us hus q hq)

end

/-- One more unknown, beyond the nodes, with all of them as targets. -/
def Snapshot.rooted (s : Snapshot) : Equations NodeId :=
  fun node => if node = s.size then [List.range s.size] else s.equations node

theorem Snapshot.rooted_of_lt {s : Snapshot} {node : NodeId} (h : node < s.size) :
    s.rooted node = s.equations node := if_neg (Nat.ne_of_lt h)

theorem Snapshot.satisfied_rooted_iff {s : Snapshot} (hs : s.InRange) {node : NodeId}
    (hnode : node < s.size) : Satisfied s.rooted node ↔ Satisfied s.equations node := by
  constructor
  · apply Satisfied.congr (D := fun n => n < s.size) _ _ hnode
    · intro n hn
      exact (rooted_of_lt hn).symm
    · intro n hn us hus
      rw [rooted_of_lt hn] at hus
      exact hs n us hus
  · apply Satisfied.congr (D := fun n => n < s.size) _ _ hnode
    · intro n hn
      exact rooted_of_lt hn
    · intro n _
      exact hs n

def Graph.rootedPresentation (g : Graph) (hg : g.nodes.InRange) : Presentation Graph NodeId :=
  (g.presentation hg).withEquations g.nodes.rooted (by
    intro h node r hh hname
    obtain rfl : h = g := hh
    obtain ⟨hlt, rfl⟩ := Graph.nodeName_eq_some_iff.mp hname
    exact Snapshot.rooted_of_lt hlt)

namespace Propagation

/-- The search that has explored every node of the graph. -/
def search (g : Graph) (p : Propagation) : Search Graph where
  graph := g
  marking := ⟨p.status⟩
  waiting := p.waiting
  work := p.work
  explored := g.size
  steps := p.steps

variable {g : Graph} {p : Propagation} {o : Obligation} {node : NodeId}

theorem search_prove (hstatus : node < p.status.size) (hwaiting : node < p.waiting.size) :
    (p.prove node).search g = (p.search g).prove node := by
  have hput : ∀ {α : Type} (t : Table α) (a filler : α), node < t.size →
      t.put node a filler = t.setIfInBounds node a := fun _ _ _ h => if_pos h
  rcases p with ⟨status, waiting, work, steps⟩
  simp only [search, prove, Search.prove, Marking.set, hput status _ _ hstatus,
    hput waiting _ _ hwaiting]

theorem search_wait (hwaiting : node < p.waiting.size) (o : Obligation) :
    (p.wait node o).search g = (p.search g).wait node o := by
  rcases p with ⟨status, waiting, work, steps⟩
  have hmodify : waiting.modify node (o :: ·) =
      waiting.put node (o :: waiting[node]?.getD []) [] := by
    rw [Table.put, if_pos hwaiting]
    apply Array.ext_getElem?
    intro n
    rw [Array.getElem?_modify, Array.getElem?_setIfInBounds]
    by_cases hn : node = n
    · subst hn
      have hlt : node < waiting.size := hwaiting
      simp [hlt]
    · simp [hn]
  simp only [search, wait, Search.wait, hmodify]

theorem fetch_status {status : Table Status} (h : node < status.size) :
    status.fetch node = .ok (Marking.status ⟨status⟩ node) := by
  rw [Table.fetch_eq_ok_iff, Marking.status, Array.getElem?_eq_getElem h]
  rfl

theorem dropProved_eq {status : Table Status} {nodes : List NodeId}
    (h : ∀ n ∈ nodes, n < status.size) :
    dropProved status nodes = .ok (nodes.dropWhile (Marking.holds ⟨status⟩)) := by
  induction nodes with
  | nil => rfl
  | cons n nodes ih =>
    rw [dropProved, fetch_status (h n List.mem_cons_self)]
    show (if Marking.status ⟨status⟩ n = .proved then _ else _) = _
    by_cases hn : Marking.status ⟨status⟩ n = .proved
    · rw [if_pos hn, List.dropWhile_cons_of_pos (Marking.holds_iff.mpr hn)]
      exact ih fun m hm => h m (List.mem_cons_of_mem n hm)
    · rw [if_neg hn, List.dropWhile_cons_of_neg fun hholds => hn (Marking.holds_iff.mp hholds)]
      rfl

/-- Every node of the graph has a row in both tables, and has been explored. -/
structure Covers (g : Graph) (p : Propagation) : Prop where
  status_size : p.status.size = g.size
  waiting_size : p.waiting.size = g.size
  explored : ∀ n, n < g.size → Marking.status ⟨p.status⟩ n ≠ .unexplored

theorem treat_eq (h : Covers g p) (hsource : o.source < g.size) :
    p.treat o = if Marking.status ⟨p.status⟩ o.source ≠ .unproved then .ok p
      else dropProved p.status o.pending >>= fun
        | [] => .ok (p.prove o.source)
        | next :: rest => .ok (p.wait next { o with pending := next :: rest }) := by
  rw [treat, fetch_status (h.status_size ▸ hsource)]
  show (if _ then _ else _) = _
  split
  · rfl
  · rfl

/-- Treating an obligation does to a propagation what it does to the search. -/
theorem treat_search (h : Covers g p) (hsource : o.source < g.size)
    (hpending : ∀ n ∈ o.pending, n < g.size) :
    ∃ p', p.treat o = .ok p' ∧ (p.search g).treat o = pure (p'.search g) ∧
      p'.status.size = p.status.size ∧ p'.waiting.size = p.waiting.size := by
  have hdrop : dropProved p.status o.pending =
      .ok (o.pending.dropWhile (p.search g).marking.holds) :=
    dropProved_eq fun n hn => h.status_size ▸ hpending n hn
  rw [treat_eq h hsource, hdrop]
  rcases Search.treat_cases (p.search g) o with
    ⟨hst, htreat⟩ | ⟨hst, hnil, htreat⟩ | ⟨hst, next, rest, hcons, hnext⟩
  · exact ⟨p, if_pos hst, htreat, rfl, rfl⟩
  · refine ⟨p.prove o.source, ?_, ?_, Array.size_setIfInBounds, Array.size_setIfInBounds⟩
    · rw [hnil]
      exact if_neg (not_not.mpr hst)
    · rw [htreat, search_prove (h.status_size ▸ hsource) (h.waiting_size ▸ hsource)]
  · have hmem : next ∈ o.pending := by
      apply (List.dropWhile_sublist (p.search g).marking.holds).subset
      rw [hcons]
      exact List.mem_cons_self
    have hlt := hpending next hmem
    rcases hnext with ⟨-, htreat⟩ | ⟨hunexplored, -⟩
    · refine ⟨p.wait next { o with pending := next :: rest }, ?_, ?_, rfl, Array.size_modify⟩
      · rw [hcons]
        exact if_neg (not_not.mpr hst)
      · rw [htreat, search_wait (h.waiting_size ▸ hlt)]
    · exact absurd hunexplored (h.explored next hlt)

/-- Every node is explored, and what holds throughout a search holds. -/
def Exact (g : Graph) (hg : g.nodes.InRange) (p : Propagation) : Prop :=
  p.status.size = g.size ∧ p.waiting.size = g.size ∧
    ∃ explored, Search.Exact (g.rootedPresentation hg) g.size explored [] (p.search g) ∧
      ∀ n, n < g.size → (n, n) ∈ explored

variable {hg : g.nodes.InRange} {status : Table Status} {waiting : Table (List Obligation)}
  {work : List Obligation} {steps : Nat}

theorem Exact.steps_le (h : Exact g hg p) : p.steps ≤ g.nodes.weight := by
  obtain ⟨-, -, explored, hexact, -⟩ := h
  have hload := hexact.steps_le
  have hweight := (g.rootedPresentation hg).weight_le hexact.lawful hexact.nodup hexact.name_eq
  exact (Nat.le_add_right _ _).trans (hload.trans hweight)

theorem Exact.treat (h : Exact g hg ⟨status, waiting, o :: work, steps⟩) :
    ∃ p', Propagation.treat ⟨status, waiting, work, steps + 1⟩ o = .ok p' ∧ Exact g hg p' ∧
      p'.steps = steps + 1 := by
  obtain ⟨hstatus, hwaiting, explored, hexact, hall⟩ := h
  have hpop : Search.Exact (g.rootedPresentation hg) g.size explored [o]
      (search g ⟨status, waiting, work, steps + 1⟩) := hexact.pop rfl
  have hcovers : Covers g ⟨status, waiting, work, steps + 1⟩ := by
    refine ⟨hstatus, hwaiting, fun n hn => ?_⟩
    exact (hpop.explored_iff n).mp (List.mem_map_of_mem (hall n hn))
  obtain ⟨r, hr, us, -, hfits⟩ := hpop.owed o (.inl List.mem_cons_self)
  have hsource : o.source < g.size := (Graph.nodeName_eq_some_iff.mp (hpop.name_eq _ hr)).1
  have hpending : ∀ n ∈ o.pending, n < g.size := by
    intro n hn
    obtain ⟨q, -, hname⟩ := hfits.pending n hn
    exact (Graph.nodeName_eq_some_iff.mp hname).1
  obtain ⟨p', htreat, hsearch, hstatus', hwaiting'⟩ := treat_search hcovers hsource hpending
  obtain ⟨t, explored', hvalue, ht, hsub, hsteps⟩ := hpop.treat
  rw [hsearch] at hvalue
  obtain rfl := Except.ok.inj hvalue
  exact ⟨p', htreat, ⟨hstatus'.trans hstatus, hwaiting'.trans hwaiting, explored', ht,
    fun n hn => hsub (hall n hn)⟩, hsteps⟩

/-- Each step is paid for by the weight of the graph, so the run ends within it. -/
theorem run_value {limit : Nat} (h : Exact g hg p) (hlimit : g.nodes.weight ≤ limit + p.steps) :
    ∃ p', p.run limit = .ok p' ∧ Exact g hg p' ∧ p'.work = [] := by
  induction limit generalizing p with
  | zero =>
    rcases p with ⟨status, waiting, work, steps⟩
    cases work with
    | nil => exact ⟨_, rfl, h, rfl⟩
    | cons o work =>
      obtain ⟨p', -, hp', hsteps⟩ := h.treat
      have hle := hp'.steps_le
      simp only at hlimit
      omega
  | succ limit ih =>
    rcases p with ⟨status, waiting, work, steps⟩
    cases work with
    | nil => exact ⟨_, rfl, h, rfl⟩
    | cons o work =>
      obtain ⟨p', htreat, hp', hsteps⟩ := h.treat
      simp only at hlimit
      obtain ⟨p'', hrun, hexact, hwork⟩ := ih hp' (by omega)
      refine ⟨p'', ?_, hexact, hwork⟩
      rw [run, htreat]
      exact hrun

theorem Exact.proved_iff (h : Exact g hg p) (hwork : p.work = []) (hnode : node < g.size) :
    Marking.status ⟨p.status⟩ node = .proved ↔ Satisfied g.nodes.equations node := by
  obtain ⟨-, -, explored, hexact, hall⟩ := h
  have hmem := hall node hnode
  have hdone : (p.search g).isDone = true := List.isEmpty_iff.mpr hwork
  rw [← Snapshot.satisfied_rooted_iff hg hnode]
  constructor
  · intro hproved
    exact hexact.satisfied _ hmem hproved
  · intro hsatisfied
    exact hexact.proved_of_satisfied hdone hsatisfied hmem

theorem Exact.explored (h : Exact g hg p) (hnode : node < g.size) :
    Marking.status ⟨p.status⟩ node ≠ .unexplored := by
  obtain ⟨-, -, explored, hexact, hall⟩ := h
  exact (hexact.explored_iff node).mp (List.mem_map_of_mem (hall node hnode))

theorem start_work (s : Snapshot) : (start s).work =
    ((Levelling.relaxations s).map fun r => (⟨r.source, r.edge.reverse⟩ : Obligation)).reverse := by
  simp only [start, Levelling.relaxations, List.map_flatMap, List.map_map, obligations]
  rfl

theorem mem_start_work {s : Snapshot} :
    o ∈ (start s).work ↔ ∃ edge ∈ s.equations o.source, o.pending = edge.reverse := by
  rw [start_work, List.mem_reverse, List.mem_map]
  constructor
  · intro h
    obtain ⟨r, hr, rfl⟩ := h
    exact ⟨r.edge, Levelling.mem_relaxations.mp hr, rfl⟩
  · intro h
    obtain ⟨edge, hedge, hpending⟩ := h
    refine ⟨⟨o.source, edge⟩, Levelling.mem_relaxations.mpr hedge, ?_⟩
    rw [← hpending]

theorem status_start (s : Snapshot) (n : NodeId) :
    Marking.status ⟨(start s).status⟩ n = if n < s.size then .unproved else .unexplored := by
  rw [Marking.status, start, Array.getElem?_replicate]
  split <;> rfl

theorem waitingAt_start (n : NodeId) : ((start g.nodes).search g).waitingAt n = [] := by
  rw [Search.waitingAt, search, start, Array.getElem?_replicate]
  split <;> rfl

theorem load_start_le : ((start g.nodes).search g).load [] ≤ g.nodes.weight := by
  have hwaiting : ((start g.nodes).search g).waiting.total
      (fun os => (os.map fun o => o.pending.length).sum) = 0 := by
    simp [search, start, Table.total_eq_sum]
  have hwork : (((start g.nodes).search g).work.map fun o =>
      o.remaining ((start g.nodes).search g).marking + 1).sum ≤
      ((start g.nodes).work.map fun o => o.pending.length + 1).sum := by
    apply List.sum_le_sum
    intro o _
    exact Nat.succ_le_succ (Obligation.remaining_le_length _ o)
  have hweight : ((start g.nodes).work.map fun o => o.pending.length + 1).sum =
      g.nodes.weight := by
    rw [start_work, List.map_reverse, List.sum_reverse, ← Levelling.length_add_sum_relaxations]
    simp [Function.comp_def, List.sum_map_add, Nat.add_comm]
  rw [Search.load, hwaiting, List.map_nil, List.sum_nil]
  omega

theorem fits_start (hg : g.nodes.InRange) {n : NodeId} {edge : Hyperedge}
    (hedge : edge ∈ g.nodes.equations n) :
    Obligation.Fits (g.rootedPresentation hg) g ⟨n, edge.reverse⟩ edge := by
  apply Obligation.fits_of_stands
  apply List.map_congr_left
  intro target htarget
  exact Graph.nodeName_eq_some_iff.mpr ⟨hg n edge hedge target htarget, rfl⟩

/-- The nodes, each standing for itself. -/
def allNodes (g : Graph) : List (NodeId × NodeId) := (List.range g.size).map fun n => (n, n)

theorem mem_allNodes {n r : NodeId} : (n, r) ∈ allNodes g ↔ n < g.size ∧ r = n := by
  simp only [allNodes, List.mem_map, List.mem_range, Prod.mk.injEq]
  constructor
  · intro h
    obtain ⟨m, hm, rfl, rfl⟩ := h
    exact ⟨hm, rfl⟩
  · intro h
    exact ⟨n, h.1, rfl, h.2.symm⟩

theorem sum_weight_allNodes :
    ((allNodes g).map fun p => weight (g.nodes.rooted p.2)).sum = g.nodes.weight := by
  rw [allNodes, List.map_map, Snapshot.weight, Table.total_eq_sum_range _ _ ([] : List Hyperedge)]
  congr 1
  apply List.map_congr_left
  intro n hn
  have hrooted : g.nodes.rooted n = g.nodes.equations n :=
    Snapshot.rooted_of_lt (List.mem_range.mp hn)
  simp only [Function.comp_apply, hrooted]
  rfl

theorem mem_work_of_owes_start (h : ((start g.nodes).search g).Owes [] o) :
    o ∈ (start g.nodes).work := by
  rcases h with h | h | ⟨n, h⟩
  · exact absurd h List.not_mem_nil
  · exact h
  · rw [waitingAt_start] at h
    exact absurd h List.not_mem_nil

theorem rooted_mem_allNodes {q : NodeId × NodeId} (h : q ∈ allNodes g) :
    g.nodes.rooted q.2 = g.nodes.equations q.1 := by
  obtain ⟨hlt, heq⟩ := mem_allNodes.mp h
  rw [heq]
  exact Snapshot.rooted_of_lt hlt

/-- At the start every hyperedge of every node is at work. -/
theorem search_exact_start (hg : g.nodes.InRange) :
    Search.Exact (g.rootedPresentation hg) g.size (allNodes g) [] ((start g.nodes).search g) where
  lawful := rfl
  nodup := by
    have hfst : (allNodes g).map Prod.fst = List.range g.size := by
      simp [allNodes, Function.comp_def]
    rw [hfst]
    exact List.nodup_range
  explored_iff := by
    intro n
    show _ ↔ Marking.status ⟨(start g.nodes).status⟩ n ≠ .unexplored
    rw [status_start]
    simp [allNodes, Graph.size]
  name_eq := fun _ hq => Graph.nodeName_eq_some_iff.mpr (mem_allNodes.mp hq)
  reachable := by
    intro q hq
    obtain ⟨hlt, heq⟩ := mem_allNodes.mp hq
    have hedge : List.range g.size ∈ g.nodes.rooted g.size := by simp [Snapshot.rooted, Graph.size]
    exact .target .start hedge (List.mem_range.mpr (heq ▸ hlt))
  satisfied := by
    intro q _ hproved
    replace hproved : Marking.status ⟨(start g.nodes).status⟩ q.1 = .proved := hproved
    rw [status_start] at hproved
    split at hproved <;> cases hproved
  owed := by
    intro o ho
    obtain ⟨edge, hedge, hpending⟩ := mem_start_work.mp (mem_work_of_owes_start ho)
    have hmem : (o.source, o.source) ∈ allNodes g :=
      mem_allNodes.mpr ⟨Snapshot.lt_size_of_mem_equations hedge, rfl⟩
    have hfits := fits_start hg hedge
    rw [← hpending] at hfits
    refine ⟨o.source, hmem, edge, ?_, hfits⟩
    show edge ∈ g.nodes.rooted o.source
    rwa [rooted_mem_allNodes hmem]
  covered := by
    intro q hq _ us hus
    replace hus : us ∈ g.nodes.rooted q.2 := hus
    rw [rooted_mem_allNodes hq] at hus
    exact ⟨⟨q.1, us.reverse⟩, .inr (.inl (mem_start_work.mpr ⟨us, hus, rfl⟩)), rfl,
      fits_start hg hus⟩
  waits := by
    intro n o ho
    rw [waitingAt_start] at ho
    exact absurd ho List.not_mem_nil
  steps_le := by
    have hsum : ((allNodes g).map fun q =>
        weight ((g.rootedPresentation hg).equations q.2)).sum = g.nodes.weight :=
      sum_weight_allNodes
    rw [hsum]
    exact (Nat.zero_add _).trans_le load_start_le

theorem exact_start (hg : g.nodes.InRange) : Exact g hg (start g.nodes) :=
  ⟨Array.size_replicate, Array.size_replicate, allNodes g, search_exact_start hg,
    fun _ hn => mem_allNodes.mpr ⟨hn, rfl⟩⟩

end Propagation

/-- Solving every node ends when its propagation has no work left. -/
theorem solveAll_run {γ : Type} [Hypergraph γ] {g g' : γ} {s : Snapshot}
    (hsnapshot : (Hypergraph.snapshot g).value = .ok (g', s)) (hs : s.InRange) :
    ∃ p, Propagation.Exact ⟨s⟩ hs p ∧ p.work = [] ∧
      (solveAll g).value = .ok (g', ⟨p.status⟩) := by
  have hstart : Propagation.Exact ⟨s⟩ hs (Propagation.start s) := Propagation.exact_start hs
  obtain ⟨p, hrun, hp, hwork⟩ := Propagation.run_value hstart (Nat.le_add_right _ _)
  refine ⟨p, hp, hwork, ?_⟩
  have hrun : (liftM ((Propagation.start s).run s.weight) : Run Propagation).value = .ok p := hrun
  rw [solveAll, Run.value_bind_of_ok hsnapshot]
  simp only
  rw [Run.value_bind_of_ok hrun]
  rfl

/-- Solving every node ends; exactly the satisfied nodes are proved, and none is left unexplored. -/
theorem solveAll_value {γ : Type} [Hypergraph γ] {g g' : γ} {s : Snapshot}
    (hsnapshot : (Hypergraph.snapshot g).value = .ok (g', s)) (hs : s.InRange) :
    ∃ m : Marking, (solveAll g).value = .ok (g', m) ∧
      ∀ n, n < s.size → m.status n ≠ .unexplored ∧
        (m.status n = .proved ↔ Satisfied s.equations n) := by
  obtain ⟨p, hp, hwork, hvalue⟩ := solveAll_run hsnapshot hs
  exact ⟨⟨p.status⟩, hvalue, fun n hn => ⟨hp.explored hn, hp.proved_iff hwork hn⟩⟩

/-- The status says whether the property holds. -/
def Status.Reports : Status → Prop → Prop
  | .unexplored, _ => False
  | .unproved, P => ¬ P
  | .proved, P => P

theorem Status.reports_of_proved_iff {st : Status} {P : Prop} (hst : st ≠ .unexplored)
    (h : st = .proved ↔ P) : st.Reports P := by
  cases st with
  | unexplored => exact absurd rfl hst
  | unproved => exact fun hP => nomatch h.mpr hP
  | proved => exact h.mp rfl

theorem Status.Reports.ne_unexplored {st : Status} {P : Prop} (h : st.Reports P) :
    st ≠ .unexplored := by
  intro hst
  rw [hst] at h
  exact h

theorem Status.Reports.proved_iff {st : Status} {P : Prop} (h : st.Reports P) :
    st = .proved ↔ P := by
  cases st with
  | unexplored => exact h.elim
  | unproved => exact ⟨fun heq => (by cases heq), fun hP => absurd hP h⟩
  | proved => exact ⟨fun _ => h, fun _ => rfl⟩

theorem Status.Reports.unproved_iff {st : Status} {P : Prop} (h : st.Reports P) :
    st = .unproved ↔ ¬ P := by
  cases st with
  | unexplored => exact h.elim
  | unproved => exact ⟨fun _ => h, fun _ => rfl⟩
  | proved => exact ⟨fun heq => (by cases heq), fun hnot => absurd h hnot⟩

theorem Status.Reports.eq {a b : Status} {P : Prop} (ha : a.Reports P) (hb : b.Reports P) :
    a = b := by
  cases a with
  | unexplored => exact ha.elim
  | unproved => exact (hb.unproved_iff.mpr ha).symm
  | proved =>
    cases b with
    | unexplored => exact hb.elim
    | unproved => exact absurd ha hb
    | proved => rfl

/-- Exactly the nodes in the least fixed point of the equations are proved, the other nodes are
unproved, and no node is left unexplored. -/
structure Marking.Solves (m : Marking) (s : Snapshot) : Prop where
  proved_iff : ∀ n, m.status n = .proved ↔ n ∈ OrderHom.lfp s.equations.derive
  unproved_iff : ∀ n, m.status n = .unproved ↔ n < s.size ∧ n ∉ OrderHom.lfp s.equations.derive
  unexplored_iff : ∀ n, m.status n = .unexplored ↔ s.size ≤ n

theorem Snapshot.lt_size_of_mem_lfp {s : Snapshot} {n : NodeId}
    (h : n ∈ OrderHom.lfp s.equations.derive) : n < s.size := by
  obtain ⟨edge, hedge, -⟩ := satisfied_iff.mp (satisfied_iff_lfp.mpr h)
  exact lt_size_of_mem_equations hedge

/-- A table with a row for every node solves the equations if its rows report on them. -/
theorem Marking.solves_of_reports {m : Marking} {s : Snapshot} (hsize : m.table.size = s.size)
    (h : ∀ n, n < s.size → (m.status n).Reports (Satisfied s.equations n)) : m.Solves s := by
  have hbeyond : ∀ n, s.size ≤ n → m.status n = .unexplored := by
    intro n hn
    rw [status, Array.getElem?_eq_none (hsize ▸ hn)]
    rfl
  refine ⟨fun n => ?_, fun n => ?_, fun n => ?_⟩
  all_goals by_cases hn : n < s.size
  · rw [← satisfied_iff_lfp]
    exact (h n hn).proved_iff
  · rw [hbeyond n (Nat.le_of_not_lt hn)]
    exact iff_of_false (by simp) fun hmem => hn (Snapshot.lt_size_of_mem_lfp hmem)
  · rw [and_iff_right hn, ← satisfied_iff_lfp]
    exact (h n hn).unproved_iff
  · rw [hbeyond n (Nat.le_of_not_lt hn)]
    exact iff_of_false (by simp) fun hmem => hn hmem.1
  · exact iff_of_false (h n hn).ne_unexplored (Nat.not_le_of_lt hn)
  · exact iff_of_true (hbeyond n (Nat.le_of_not_lt hn)) (Nat.le_of_not_lt hn)

namespace Graph

/-- Solving every node of a graph ends with the least fixed point of its equations. -/
theorem solveAll_solves (g : Graph) (hg : g.nodes.InRange) :
    ∃ m, (solveAll g).value = .ok (g, m) ∧ m.Solves g.nodes := by
  have hsnapshot : (Hypergraph.snapshot g).value = .ok (g, g.nodes) := rfl
  obtain ⟨p, hp, hwork, hvalue⟩ := solveAll_run hsnapshot hg
  refine ⟨⟨p.status⟩, hvalue, Marking.solves_of_reports hp.1 fun n hn => ?_⟩
  exact Status.reports_of_proved_iff (hp.explored hn) (hp.proved_iff hwork hn)

theorem solveAll_solves_cyclic :
    cyclic.nodes.InRange ∧
      ∃ m, (solveAll cyclic).value = .ok (cyclic, m) ∧ m.Solves cyclic.nodes :=
  ⟨by decide, cyclic.solveAll_solves (by decide)⟩

example : (solveAll cyclic).value = .ok (cyclic, ⟨#[.proved, .unproved, .proved, .unproved]⟩) := by
  decide +kernel

end Graph

/-- Solving every node of an unfolding decides all its records. -/
theorem Unfolding.solveAll_value {ρ : Type} [DecidableEq ρ] {S : System ρ} {T : S.Theory}
    {nodes : NodeTable ρ} (h : nodes.Faithful T T.surplus) :
    ∃ t m, (solveAll (⟨S, nodes⟩ : Unfolding ρ)).value = .ok (⟨S, t⟩, m) ∧
      t.Faithful T T.surplus ∧ (∀ n q, nodes.name n = some q → t.name n = some q) ∧
      ∀ n q, t.name n = some q → (m.status n).Reports (Satisfied T.equations q) := by
  obtain ⟨t, s, hsnapshot, hfaithful, hgrown, hsize, hrows⟩ := snapshot_value h
  obtain ⟨hs, hspells⟩ := inRange_and_spells hfaithful hsize hrows
  have hsnapshot : (Hypergraph.snapshot (⟨S, nodes⟩ : Unfolding ρ)).value = .ok (⟨S, t⟩, s) :=
    hsnapshot
  obtain ⟨m, hvalue, hstatus⟩ := ProcessLogic.solveAll_value hsnapshot hs
  refine ⟨t, m, hvalue, hfaithful, hgrown.name, ?_⟩
  intro n q hn
  obtain ⟨hexplored, hproved⟩ := hstatus n (hsize ▸ name_lt_size hn)
  exact Status.reports_of_proved_iff hexplored (hproved.trans (satisfied_iff_of_spells hspells hn))

end ProcessLogic
