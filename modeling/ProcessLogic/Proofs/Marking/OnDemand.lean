import ProcessLogic.Marking.OnDemand
import ProcessLogic.Proofs.Graph.Presentation
import ProcessLogic.Proofs.Graph.Unfolding

/-!
# Searches are exact

While a search runs, every hyperedge of an unproved node is at work or waits at an unproved target,
and every proved node is satisfied. When the work is done, an unproved node is therefore not
satisfied: each of its hyperedges has an unproved target. Each round is paid for by a hyperedge of
an explored node or by one of its targets, so the search ends within its bound.
-/

set_option autoImplicit false

namespace ProcessLogic

theorem Table.getD_put {α : Type} (t : Table α) (i j : Nat) (a filler : α) :
    (t.put i a filler)[j]?.getD filler = if j = i then a else t[j]?.getD filler := by
  rw [getElem?_put]
  split
  · rfl
  · split
    · rfl
    · next hj =>
      have hnone : t[j]? = none := Array.getElem?_eq_none (by omega)
      rw [hnone]
      split <;> rfl

namespace Marking

theorem status_set (m : Marking) (node n : NodeId) (st : Status) :
    (m.set node st).status n = if n = node then st else m.status n :=
  Table.getD_put m.table node n st .unexplored

theorem holds_iff {m : Marking} {n : NodeId} : m.holds n = true ↔ m.status n = .proved := by
  simp [holds]

theorem holds_set_unproved {m : Marking} {node : NodeId} (h : m.status node ≠ .proved) :
    (m.set node .unproved).holds = m.holds := by
  funext n
  unfold holds
  rw [status_set]
  split
  · next heq =>
    subst heq
    simp [h]
  · rfl

theorem holds_set_proved {m : Marking} {node n : NodeId} (h : m.holds n = true) :
    (m.set node .proved).holds n = true := by
  rw [holds_iff] at h ⊢
  rw [status_set]
  split
  · rfl
  · exact h

end Marking

namespace Obligation

variable {γ ρ : Type} [Hypergraph γ] {P : Presentation γ ρ} {g g' : γ} {o : Obligation}
  {unknowns : List ρ}

/-- The obligation is what is left of a hyperedge: the targets dropped so far are satisfied. -/
structure Fits (P : Presentation γ ρ) (g : γ) (o : Obligation) (unknowns : List ρ) : Prop where
  pending : ∀ node ∈ o.pending, ∃ r ∈ unknowns, P.name g node = some r
  dropped : ∀ r ∈ unknowns, Satisfied P.equations r ∨ ∃ node ∈ o.pending, P.name g node = some r

theorem Fits.mono (hname : ∀ n r, P.name g n = some r → P.name g' n = some r)
    (h : Fits P g o unknowns) : Fits P g' o unknowns where
  pending := by
    intro node hnode
    obtain ⟨r, hr, hn⟩ := h.pending node hnode
    exact ⟨r, hr, hname node r hn⟩
  dropped := by
    intro r hr
    rcases h.dropped r hr with hsat | ⟨node, hnode, hn⟩
    · exact .inl hsat
    · exact .inr ⟨node, hnode, hname node r hn⟩

theorem Fits.dropWhile {m : Marking}
    (hproved : ∀ n r, m.holds n = true → P.name g n = some r → Satisfied P.equations r)
    (h : Fits P g o unknowns) :
    Fits P g { o with pending := o.pending.dropWhile m.holds } unknowns where
  pending := fun node hnode => h.pending node ((List.dropWhile_sublist _).subset hnode)
  dropped := by
    intro r hr
    rcases h.dropped r hr with hsat | ⟨node, hnode, hn⟩
    · exact .inl hsat
    · rw [← List.takeWhile_append_dropWhile (p := m.holds) (l := o.pending)] at hnode
      rcases List.mem_append.mp hnode with htaken | hleft
      · exact .inl (hproved node r (List.mem_takeWhile_imp htaken) hn)
      · exact .inr ⟨node, hleft, hn⟩

theorem Fits.satisfied_of_nil (h : Fits P g o unknowns) (hnil : o.pending = []) :
    ∀ r ∈ unknowns, Satisfied P.equations r := by
  intro r hr
  rcases h.dropped r hr with hsat | ⟨node, hnode, _⟩
  · exact hsat
  · rw [hnil] at hnode
    exact (List.not_mem_nil hnode).elim

theorem fits_of_stands {node : NodeId} {edge : Hyperedge} (h : Stands (P.name g) edge unknowns) :
    Fits P g ⟨node, edge.reverse⟩ unknowns where
  pending := fun _ hnode => h.unknown_of_mem (List.mem_reverse.mp hnode)
  dropped := by
    intro r hr
    obtain ⟨node, hnode, hn⟩ := h.node_of_mem hr
    exact .inr ⟨node, List.mem_reverse.mpr hnode, hn⟩

/-- The targets that are still to be proved. -/
def remaining (m : Marking) (o : Obligation) : Nat := (o.pending.dropWhile m.holds).length

theorem remaining_eq_length {m : Marking} {o : Obligation} {node : NodeId} {rest : List NodeId}
    (hpending : o.pending = node :: rest) (hst : m.status node ≠ .proved) :
    o.remaining m = o.pending.length := by
  have hfirst : ¬ m.holds node = true := fun h => hst (Marking.holds_iff.mp h)
  rw [remaining, hpending, List.dropWhile_cons_of_neg hfirst]

theorem remaining_le_length (m : Marking) (o : Obligation) : o.remaining m ≤ o.pending.length :=
  (List.dropWhile_sublist _).length_le

theorem remaining_mono {m m' : Marking} (h : ∀ n, m.holds n = true → m'.holds n = true) :
    o.remaining m' ≤ o.remaining m := by
  unfold remaining
  induction o.pending with
  | nil => simp
  | cons n ns ih =>
    by_cases hn : m.holds n = true
    · rw [List.dropWhile_cons_of_pos hn, List.dropWhile_cons_of_pos (h n hn)]
      exact ih
    · rw [List.dropWhile_cons_of_neg hn]
      exact (List.dropWhile_sublist _).length_le

end Obligation

namespace Search

variable {γ ρ : Type}

def waitingAt (s : Search γ) (node : NodeId) : List Obligation := s.waiting[node]?.getD []

/-- The obligations of a search: those taken from the work, at work or waiting. -/
def Owes (hand : List Obligation) (s : Search γ) (o : Obligation) : Prop :=
  o ∈ hand ∨ o ∈ s.work ∨ ∃ node, o ∈ s.waitingAt node

/-- What the obligations of a search may still cost. One that is at work costs a step at once, one
that waits does not before its first target is proved. -/
def load (hand : List Obligation) (s : Search γ) : Nat :=
  (hand.map (Obligation.remaining s.marking)).sum +
    (s.work.map fun o => o.remaining s.marking + 1).sum +
    s.waiting.total fun os => (os.map fun o => o.pending.length).sum

section

variable {s : Search γ} {o : Obligation} {node n : NodeId}

theorem status_prove (s : Search γ) (node n : NodeId) :
    (s.prove node).marking.status n = if n = node then .proved else s.marking.status n :=
  Marking.status_set s.marking node n .proved

theorem waitingAt_prove (s : Search γ) (node n : NodeId) :
    (s.prove node).waitingAt n = if n = node then [] else s.waitingAt n :=
  Table.getD_put s.waiting node n [] []

theorem owes_prove : Owes [] (s.prove node) o ↔ Owes [] s o := by
  have hwork : o ∈ (s.prove node).work ↔ o ∈ s.waitingAt node ∨ o ∈ s.work := List.mem_append
  simp only [Owes, List.not_mem_nil, false_or, hwork, waitingAt_prove]
  constructor
  · rintro ((hw | hw) | ⟨n, hn⟩)
    · exact .inr ⟨node, hw⟩
    · exact .inl hw
    · split at hn
      · exact (List.not_mem_nil hn).elim
      · exact .inr ⟨n, hn⟩
  · rintro (hw | ⟨n, hn⟩)
    · exact .inl (.inr hw)
    · by_cases heq : n = node
      · exact .inl (.inl (heq ▸ hn))
      · exact .inr ⟨n, by rwa [if_neg heq]⟩

/-- What comes back to work has its first target proved, and what is at work costs no more. -/
theorem load_prove_le (hfirst : ∀ o ∈ s.waitingAt node, ∃ rest, o.pending = node :: rest) :
    (s.prove node).load [] ≤ s.load [] := by
  have hback : ((s.waitingAt node).map fun o => o.remaining (s.prove node).marking + 1).sum ≤
      ((s.waitingAt node).map fun o => o.pending.length).sum := by
    apply List.sum_le_sum
    intro o ho
    obtain ⟨rest, hrest⟩ := hfirst o ho
    have hnode : (s.prove node).marking.holds node = true := by
      rw [Marking.holds_iff, status_prove, if_pos rfl]
    simp only [Obligation.remaining, hrest, List.dropWhile_cons_of_pos hnode, List.length_cons]
    exact Nat.succ_le_succ (List.dropWhile_sublist _).length_le
  have hkept : (s.work.map fun o => o.remaining (s.prove node).marking + 1).sum ≤
      (s.work.map fun o => o.remaining s.marking + 1).sum := by
    apply List.sum_le_sum
    intro o _
    exact Nat.succ_le_succ (Obligation.remaining_mono fun _ => Marking.holds_set_proved)
  have htotal := Table.total_put (fun os => (os.map fun o => o.pending.length).sum)
    s.waiting node [] [] rfl
  have hwork : (s.prove node).work = s.waitingAt node ++ s.work := rfl
  have hwaiting : (s.prove node).waiting = s.waiting.put node [] [] := rfl
  simp only [load, hwork, hwaiting, List.map_append, List.sum_append, List.map_nil, List.sum_nil]
  simp only [waitingAt] at hback
  simp only [waitingAt, List.map_nil, List.sum_nil] at htotal ⊢
  omega

theorem waitingAt_wait (s : Search γ) (node n : NodeId) (o : Obligation) :
    (s.wait node o).waitingAt n = if n = node then o :: s.waitingAt node else s.waitingAt n :=
  Table.getD_put s.waiting node n _ []

theorem owes_wait {o' : Obligation} : Owes [] (s.wait node o') o ↔ Owes [o'] s o := by
  have hwork : (s.wait node o').work = s.work := rfl
  simp only [Owes, List.not_mem_nil, false_or, hwork, waitingAt_wait, List.mem_singleton]
  constructor
  · rintro (hw | ⟨n, hn⟩)
    · exact .inr (.inl hw)
    · split at hn
      · rcases List.mem_cons.mp hn with rfl | hn
        · exact .inl rfl
        · exact .inr (.inr ⟨node, hn⟩)
      · exact .inr (.inr ⟨n, hn⟩)
  · rintro (rfl | hw | ⟨n, hn⟩)
    · exact .inr ⟨node, by simp⟩
    · exact .inl hw
    · refine .inr ⟨n, ?_⟩
      split
      · next heq => exact List.mem_cons_of_mem _ (heq ▸ hn)
      · exact hn

theorem load_wait (h : o.remaining s.marking = o.pending.length) :
    (s.wait node o).load [] = s.load [o] := by
  have htotal := Table.total_put (fun os => (os.map fun o => o.pending.length).sum)
    s.waiting node (o :: s.waitingAt node) [] rfl
  have hmarking : (s.wait node o).marking = s.marking := rfl
  have hwork : (s.wait node o).work = s.work := rfl
  have hwaiting : (s.wait node o).waiting = s.waiting.put node (o :: s.waitingAt node) [] := rfl
  simp only [load, hmarking, hwork, hwaiting, List.map_cons, List.map_nil, List.sum_cons,
    List.sum_nil, h]
  simp only [waitingAt, List.map_cons, List.sum_cons] at htotal ⊢
  omega

/-- The search once a node has been explored. -/
def enter (s : Search γ) (graph : γ) (edges : List Hyperedge) (node : NodeId)
    (os : List Obligation) : Search γ where
  graph
  marking := s.marking.set node .unproved
  waiting := s.waiting.put node os []
  work := obligations node edges ++ s.work
  explored := s.explored + 1
  steps := s.steps

variable {graph : γ} {edges : List Hyperedge} {os : List Obligation}

theorem status_enter :
    (s.enter graph edges node os).marking.status n =
      if n = node then .unproved else s.marking.status n :=
  Marking.status_set s.marking node n .unproved

theorem waitingAt_enter :
    (s.enter graph edges node os).waitingAt n = if n = node then os else s.waitingAt n :=
  Table.getD_put s.waiting node n os []

theorem mem_obligations : o ∈ obligations node edges ↔ ∃ edge ∈ edges, o = ⟨node, edge.reverse⟩ := by
  simp [obligations, eq_comm]

/-- Nothing waits at a node before it is explored. -/
theorem owes_enter (hnone : s.waitingAt node = []) :
    Owes [] (s.enter graph edges node os) o ↔ o ∈ obligations node edges ∨ Owes os s o := by
  have hwork : (s.enter graph edges node os).work = obligations node edges ++ s.work := rfl
  simp only [Owes, List.not_mem_nil, false_or, hwork, List.mem_append, waitingAt_enter, or_assoc]
  apply or_congr_right
  constructor
  · rintro (hw | ⟨n, hn⟩)
    · exact .inr (.inl hw)
    · split at hn
      · exact .inl hn
      · exact .inr (.inr ⟨n, hn⟩)
  · rintro (ho | hw | ⟨n, hn⟩)
    · exact .inr ⟨node, by simpa using ho⟩
    · exact .inl hw
    · refine .inr ⟨n, ?_⟩
      split
      · next heq =>
        rw [heq, hnone] at hn
        exact (List.not_mem_nil hn).elim
      · exact hn

theorem sum_obligations_le (m : Marking) (node : NodeId) (edges : List Hyperedge) :
    ((obligations node edges).map fun o => o.remaining m + 1).sum ≤ weight edges := by
  rw [weight_eq_sum, obligations, List.map_map]
  apply List.sum_le_sum
  intro edge _
  have h := Obligation.remaining_le_length m ⟨node, edge.reverse⟩
  simp only [List.length_reverse] at h
  exact Nat.succ_le_succ h

theorem load_enter_le (hnone : s.waitingAt node = []) (hst : s.marking.status node = .unexplored)
    (hos : ∀ o ∈ os, o.remaining s.marking = o.pending.length) :
    (s.enter graph edges node os).load [] ≤ s.load os + weight edges := by
  have hholds : (s.enter graph edges node os).marking.holds = s.marking.holds :=
    Marking.holds_set_unproved (by rw [hst]; simp)
  have hremaining : Obligation.remaining (s.enter graph edges node os).marking =
      Obligation.remaining s.marking := by
    funext o
    simp only [Obligation.remaining, hholds]
  have hhand : os.map (Obligation.remaining s.marking) = os.map fun o => o.pending.length :=
    List.map_congr_left hos
  have htotal := Table.total_put (fun os => (os.map fun o => o.pending.length).sum)
    s.waiting node os [] rfl
  have hwork : (s.enter graph edges node os).work = obligations node edges ++ s.work := rfl
  have hwaiting : (s.enter graph edges node os).waiting = s.waiting.put node os [] := rfl
  have hnew := sum_obligations_le s.marking node edges
  simp only [waitingAt] at hnone
  simp only [hnone, List.map_nil, List.sum_nil] at htotal
  simp only [load, hremaining, hwork, hwaiting, hhand, List.map_append, List.sum_append,
    List.map_nil, List.sum_nil]
  omega

end

variable [Hypergraph γ]

/-- What holds throughout a search. The list gives the explored nodes, each with the unknown that
it stands for. -/
structure Exact (P : Presentation γ ρ) (start : ρ) (explored : List (NodeId × ρ))
    (hand : List Obligation) (s : Search γ) : Prop where
  lawful : P.Lawful s.graph
  nodup : (explored.map Prod.fst).Nodup
  explored_iff : ∀ n, n ∈ explored.map Prod.fst ↔ s.marking.status n ≠ .unexplored
  name_eq : ∀ p ∈ explored, P.name s.graph p.1 = some p.2
  reachable : ∀ p ∈ explored, Reachable P.equations start p.2
  satisfied : ∀ p ∈ explored, s.marking.status p.1 = .proved → Satisfied P.equations p.2
  owed : ∀ o, s.Owes hand o →
    ∃ r, (o.source, r) ∈ explored ∧ ∃ us ∈ P.equations r, o.Fits P s.graph us
  covered : ∀ p ∈ explored, s.marking.status p.1 = .unproved → ∀ us ∈ P.equations p.2,
    ∃ o, s.Owes hand o ∧ o.source = p.1 ∧ o.Fits P s.graph us
  waits : ∀ node, ∀ o ∈ s.waitingAt node,
    s.marking.status node = .unproved ∧ ∃ rest, o.pending = node :: rest
  steps_le : s.steps + s.load hand ≤ (explored.map fun p => weight (P.equations p.2)).sum

section

variable {P : Presentation γ ρ} {start : ρ} {explored : List (NodeId × ρ)}
  {hand : List Obligation} {s : Search γ} {o : Obligation}

theorem Exact.mem_explored (h : Exact P start explored hand s) {n : NodeId} {r : ρ}
    (hn : s.marking.status n ≠ .unexplored) (hr : P.name s.graph n = some r) :
    (n, r) ∈ explored := by
  obtain ⟨p, hp, rfl⟩ := List.mem_map.mp ((h.explored_iff n).mpr hn)
  have heq : p.2 = r := by
    have := h.name_eq p hp
    rw [hr] at this
    exact (Option.some.inj this).symm
  exact heq ▸ hp

theorem Exact.satisfied_of_holds (h : Exact P start explored hand s) {n : NodeId} {r : ρ}
    (hn : s.marking.holds n = true) (hr : P.name s.graph n = some r) :
    Satisfied P.equations r := by
  have hproved : s.marking.status n = .proved := Marking.holds_iff.mp hn
  have hmem : (n, r) ∈ explored := h.mem_explored (by rw [hproved]; simp) hr
  exact h.satisfied (n, r) hmem hproved

theorem Exact.fits_dropWhile (h : Exact P start explored hand s) {us : List ρ}
    (hfits : o.Fits P s.graph us) :
    Obligation.Fits P s.graph { o with pending := o.pending.dropWhile s.marking.holds } us :=
  hfits.dropWhile fun _ _ hn hr => h.satisfied_of_holds hn hr

/-- An obligation is taken from the work. -/
theorem Exact.pop {work : List Obligation} (h : Exact P start explored [] s)
    (hwork : s.work = o :: work) :
    Exact P start explored [o] { s with work := work, steps := s.steps + 1 } := by
  have howes : ∀ o', Owes [o] { s with work := work, steps := s.steps + 1 } o' ↔ Owes [] s o' := by
    intro o'
    simp only [Owes, waitingAt, hwork, List.mem_cons, List.not_mem_nil, or_false, false_or, or_assoc]
  refine ⟨h.lawful, h.nodup, h.explored_iff, h.name_eq, h.reachable, h.satisfied,
    fun o' ho' => h.owed o' ((howes o').mp ho'), ?_, h.waits, ?_⟩
  · intro p hp hst us hus
    obtain ⟨o', ho', hsource, hfits⟩ := h.covered p hp hst us hus
    exact ⟨o', (howes o').mpr ho', hsource, hfits⟩
  · have hle := h.steps_le
    simp only [load, hwork, List.map_cons, List.sum_cons, List.map_nil, List.sum_nil] at hle ⊢
    omega

/-- An obligation whose source is already proved is dropped. -/
theorem Exact.drop (h : Exact P start explored [o] s) (ho : s.marking.status o.source ≠ .unproved) :
    Exact P start explored [] s := by
  refine ⟨h.lawful, h.nodup, h.explored_iff, h.name_eq, h.reachable, h.satisfied,
    fun o' ho' => h.owed o' (.inr (ho'.resolve_left List.not_mem_nil)), ?_, h.waits, ?_⟩
  · intro p hp hst us hus
    obtain ⟨o', ho', hsource, hfits⟩ := h.covered p hp hst us hus
    have hne : o' ∉ [o] := by
      intro hmem
      rw [List.mem_singleton.mp hmem] at hsource
      exact ho (hsource ▸ hst)
    exact ⟨o', .inr (ho'.resolve_left hne), hsource, hfits⟩
  · have hle := h.steps_le
    simp only [load, List.map_cons, List.map_nil, List.sum_cons, List.sum_nil] at hle ⊢
    omega

/-- The proved targets at the front of an obligation are dropped. -/
theorem Exact.shorten (h : Exact P start explored [o] s) :
    Exact P start explored [{ o with pending := o.pending.dropWhile s.marking.holds }] s := by
  refine ⟨h.lawful, h.nodup, h.explored_iff, h.name_eq, h.reachable, h.satisfied, ?_, ?_, h.waits,
    ?_⟩
  · intro o' ho'
    rcases ho' with ho' | ho'
    · obtain ⟨r, hr, us, hus, hfits⟩ := h.owed o (.inl List.mem_cons_self)
      rw [List.mem_singleton.mp ho']
      exact ⟨r, hr, us, hus, h.fits_dropWhile hfits⟩
    · exact h.owed o' (.inr ho')
  · intro p hp hst us hus
    obtain ⟨o', ho', hsource, hfits⟩ := h.covered p hp hst us hus
    rcases ho' with ho' | ho'
    · obtain rfl := List.mem_singleton.mp ho'
      exact ⟨_, .inl List.mem_cons_self, hsource, h.fits_dropWhile hfits⟩
    · exact ⟨o', .inr ho', hsource, hfits⟩
  · have hle := h.steps_le
    have hshort := Obligation.remaining_le_length s.marking
      { o with pending := o.pending.dropWhile s.marking.holds }
    simp only [load, List.map_cons, List.map_nil, List.sum_cons, List.sum_nil] at hle ⊢
    simp only [Obligation.remaining] at hle hshort ⊢
    omega

theorem Exact.name_unique (h : Exact P start explored hand s) {n : NodeId} {r r' : ρ}
    (hr : (n, r) ∈ explored) (hr' : (n, r') ∈ explored) : r = r' := by
  have hname := h.name_eq (n, r) hr
  rw [h.name_eq (n, r') hr'] at hname
  exact (Option.some.inj hname).symm

/-- The last target of a hyperedge is proved, hence its source. -/
theorem Exact.prove (h : Exact P start explored [o] s) (hnil : o.pending = [])
    (hst : s.marking.status o.source = .unproved) :
    Exact P start explored [] (s.prove o.source) := by
  obtain ⟨r, hr, us, hus, hfits⟩ := h.owed o (.inl List.mem_cons_self)
  have hsat : Satisfied P.equations r := .intro hus (hfits.satisfied_of_nil hnil)
  -- the obligations that waited at the node go back to work, so they are still owed
  refine ⟨h.lawful, h.nodup, ?_, h.name_eq, h.reachable, ?_, ?_, ?_, ?_, ?_⟩
  · intro n
    rw [status_prove, h.explored_iff]
    split
    · next heq => simp [heq, hst]
    · rfl
  · intro p hp hproved
    rw [status_prove] at hproved
    split at hproved
    · next heq =>
      have hp' : (o.source, p.2) ∈ explored := heq ▸ hp
      exact h.name_unique hr hp' ▸ hsat
    · exact h.satisfied p hp hproved
  · intro o' ho'
    exact h.owed o' (.inr ((owes_prove.mp ho').resolve_left List.not_mem_nil))
  · intro p hp hunproved us' hus'
    rw [status_prove] at hunproved
    split at hunproved
    · simp at hunproved
    · next hne =>
      obtain ⟨o', ho', hsource, hfits'⟩ := h.covered p hp hunproved us' hus'
      refine ⟨o', owes_prove.mpr (.inr (ho'.resolve_left ?_)), hsource, hfits'⟩
      intro hmem
      rw [List.mem_singleton.mp hmem] at hsource
      exact hne hsource.symm
  · intro node o' ho'
    rw [waitingAt_prove] at ho'
    rw [status_prove]
    split at ho'
    · exact (List.not_mem_nil ho').elim
    · next hne =>
      rw [if_neg hne]
      exact h.waits node o' ho'
  · have hle := h.steps_le
    have hload : (s.prove o.source).load [] ≤ s.load [] :=
      load_prove_le fun o' ho' => (h.waits _ o' ho').2
    have hsteps : (s.prove o.source).steps = s.steps := rfl
    rw [hsteps]
    simp only [load, List.map_cons, List.map_nil, List.sum_cons, List.sum_nil] at hle hload ⊢
    omega

/-- An obligation waits at its first target. -/
theorem Exact.wait (h : Exact P start explored [o] s) {node : NodeId} {rest : List NodeId}
    (hpending : o.pending = node :: rest) (hst : s.marking.status node = .unproved) :
    Exact P start explored [] (s.wait node o) := by
  refine ⟨h.lawful, h.nodup, h.explored_iff, h.name_eq, h.reachable, h.satisfied, ?_, ?_, ?_, ?_⟩
  · exact fun o' ho' => h.owed o' (owes_wait.mp ho')
  · intro p hp hunproved us hus
    obtain ⟨o', ho', hsource, hfits⟩ := h.covered p hp hunproved us hus
    exact ⟨o', owes_wait.mpr ho', hsource, hfits⟩
  · intro n o' ho'
    rw [waitingAt_wait] at ho'
    have hmarking : (s.wait node o).marking = s.marking := rfl
    rw [hmarking]
    split at ho'
    · next heq =>
      subst heq
      rcases List.mem_cons.mp ho' with rfl | ho'
      · exact ⟨hst, rest, hpending⟩
      · exact h.waits _ o' ho'
    · exact h.waits n o' ho'
  · have hsteps : (s.wait node o).steps = s.steps := rfl
    rw [load_wait (Obligation.remaining_eq_length hpending (by simp [hst])), hsteps]
    exact h.steps_le

theorem Exact.waitingAt_eq_nil (h : Exact P start explored hand s) {node : NodeId}
    (hst : s.marking.status node ≠ .unproved) : s.waitingAt node = [] := by
  cases hw : s.waitingAt node with
  | nil => rfl
  | cons o os =>
    have ho : o ∈ s.waitingAt node := hw ▸ List.mem_cons_self
    exact (hst (h.waits node o ho).1).elim

section

variable {graph : γ} {edges : List Hyperedge} {node : NodeId} {r : ρ}

theorem Exact.owed_enter (h : Exact P start explored hand s) (hnone : s.waitingAt node = [])
    (hname : ∀ n q, P.name s.graph n = some q → P.name graph n = some q)
    (hspells : Spells (P.name graph) edges (P.equations r))
    (ho : Owes [] (s.enter graph edges node hand) o) :
    ∃ q, (o.source, q) ∈ (node, r) :: explored ∧ ∃ us ∈ P.equations q, o.Fits P graph us := by
  rcases (owes_enter hnone).mp ho with ho | ho
  · obtain ⟨edge, hedge, rfl⟩ := mem_obligations.mp ho
    obtain ⟨us, hus, hstands⟩ := hspells.unknowns_of_mem hedge
    exact ⟨r, List.mem_cons_self, us, hus, Obligation.fits_of_stands hstands⟩
  · obtain ⟨q, hq, us, hus, hfits⟩ := h.owed o ho
    exact ⟨q, List.mem_cons_of_mem _ hq, us, hus, hfits.mono hname⟩

theorem covered_enter (hnone : s.waitingAt node = [])
    (hspells : Spells (P.name graph) edges (P.equations r)) {us : List ρ}
    (hus : us ∈ P.equations r) :
    ∃ o, Owes [] (s.enter graph edges node hand) o ∧ o.source = node ∧ o.Fits P graph us := by
  obtain ⟨edge, hedge, hstands⟩ := hspells.edge_of_mem hus
  have ho : ⟨node, edge.reverse⟩ ∈ obligations node edges :=
    mem_obligations.mpr ⟨edge, hedge, rfl⟩
  exact ⟨_, (owes_enter hnone).mpr (.inl ho), rfl, Obligation.fits_of_stands hstands⟩

/-- A node is explored while the obligations in hand wait for it. -/
theorem Exact.enter (h : Exact P start explored hand s)
    (hst : s.marking.status node = .unexplored) (hreach : Reachable P.equations start r)
    (hhand : ∀ o ∈ hand, ∃ rest, o.pending = node :: rest) (hlawful : P.Lawful graph)
    (hname : ∀ n q, P.name s.graph n = some q → P.name graph n = some q)
    (hnode : P.name s.graph node = some r) (hspells : Spells (P.name graph) edges (P.equations r)) :
    Exact P start ((node, r) :: explored) [] (s.enter graph edges node hand) := by
  have hnone : s.waitingAt node = [] := h.waitingAt_eq_nil (by rw [hst]; simp)
  have hnew : node ∉ explored.map Prod.fst := by
    rw [h.explored_iff, hst]
    simp
  -- the node is new, so the other nodes keep their status
  have hother : ∀ p ∈ explored, (s.enter graph edges node hand).marking.status p.1 =
      s.marking.status p.1 := by
    intro p hp
    have hne : p.1 ≠ node := by
      rintro rfl
      exact hnew (List.mem_map_of_mem hp)
    rw [status_enter, if_neg hne]
  refine ⟨hlawful, List.nodup_cons.mpr ⟨hnew, h.nodup⟩, ?_, ?_, ?_, ?_,
    fun o ho => h.owed_enter hnone hname hspells ho, ?_, ?_, ?_⟩
  · intro n
    rw [status_enter, List.map_cons, List.mem_cons, h.explored_iff]
    split
    · next heq => simp [heq]
    · next hn => simp [hn]
  · exact List.forall_mem_cons.mpr
      ⟨hname node r hnode, fun p hp => hname p.1 p.2 (h.name_eq p hp)⟩
  · exact List.forall_mem_cons.mpr ⟨hreach, h.reachable⟩
  · intro p hp hproved
    rcases List.mem_cons.mp hp with rfl | hp
    · simp [status_enter] at hproved
    · rw [hother p hp] at hproved
      exact h.satisfied p hp hproved
  · intro p hp hunproved us hus
    rcases List.mem_cons.mp hp with rfl | hp
    · exact covered_enter hnone hspells hus
    · rw [hother p hp] at hunproved
      obtain ⟨o, ho, hsource, hfits⟩ := h.covered p hp hunproved us hus
      exact ⟨o, (owes_enter hnone).mpr (.inr ho), hsource, hfits.mono hname⟩
  · intro n o ho
    rw [waitingAt_enter] at ho
    rw [status_enter]
    split at ho
    · next heq => exact ⟨if_pos heq, heq ▸ hhand o ho⟩
    · next hn =>
      rw [if_neg hn]
      exact h.waits n o ho
  · have hremaining : ∀ o ∈ hand, o.remaining s.marking = o.pending.length := by
      intro o ho
      obtain ⟨rest, hrest⟩ := hhand o ho
      exact Obligation.remaining_eq_length hrest (by simp [hst])
    have hload : (s.enter graph edges node hand).load [] ≤ s.load hand + weight edges :=
      load_enter_le hnone hst hremaining
    have hweight := hspells.weight_eq
    have hle := h.steps_le
    have hsteps : (s.enter graph edges node hand).steps = s.steps := rfl
    simp only [hsteps, List.map_cons, List.sum_cons]
    omega

end

theorem Exact.explore {node : NodeId} {r : ρ} (h : Exact P start explored hand s)
    (hst : s.marking.status node = .unexplored) (hnode : P.name s.graph node = some r)
    (hreach : Reachable P.equations start r)
    (hhand : ∀ o ∈ hand, ∃ rest, o.pending = node :: rest) :
    ∃ t, (s.explore node hand).value = .ok t ∧ Exact P start ((node, r) :: explored) [] t ∧
      t.steps = s.steps := by
  obtain ⟨graph, edges, hvalue, hlawful, hname, hspells⟩ := P.hyperedges_value h.lawful hnode
  refine ⟨s.enter graph edges node hand, ?_,
    h.enter hst hreach hhand hlawful hname hnode hspells, rfl⟩
  show (if node < Hypergraph.size s.graph then _ else _ : Run (Search γ)).value = _
  rw [if_pos (P.lt_size h.lawful hnode), Run.value_bind_of_ok hvalue]
  rfl

/-- What treating one obligation comes to, once the proved targets at its front are dropped. -/
theorem treat_cases (s : Search γ) (o : Obligation) :
    (s.marking.status o.source ≠ .unproved ∧ s.treat o = pure s) ∨
    (s.marking.status o.source = .unproved ∧ o.pending.dropWhile s.marking.holds = [] ∧
      s.treat o = pure (s.prove o.source)) ∨
    (s.marking.status o.source = .unproved ∧
      ∃ next rest, o.pending.dropWhile s.marking.holds = next :: rest ∧
      (s.marking.status next = .unproved ∧
          s.treat o = pure (s.wait next { o with pending := next :: rest }) ∨
        s.marking.status next = .unexplored ∧
          s.treat o = s.explore next [{ o with pending := next :: rest }])) := by
  unfold treat
  by_cases hst : s.marking.status o.source = .unproved
  · rw [if_neg (by simpa using hst)]
    cases hdrop : o.pending.dropWhile s.marking.holds with
    | nil => exact .inr (.inl ⟨hst, rfl, rfl⟩)
    | cons next rest =>
      refine .inr (.inr ⟨hst, next, rest, rfl, ?_⟩)
      have hnext : s.marking.holds next ≠ true := by
        have hhead := List.head?_dropWhile_not s.marking.holds o.pending
        rw [hdrop] at hhead
        simpa using hhead
      cases hn : s.marking.status next with
      | unexplored => exact .inr ⟨rfl, by simp [hn]⟩
      | unproved => exact .inl ⟨rfl, by simp [hn]⟩
      | proved => exact (hnext (Marking.holds_iff.mpr hn)).elim
  · exact .inl ⟨hst, if_pos hst⟩

theorem Exact.treat (h : Exact P start explored [o] s) :
    ∃ t explored', (s.treat o).value = .ok t ∧ Exact P start explored' [] t ∧
      explored ⊆ explored' ∧ t.steps = s.steps := by
  obtain ⟨hst, htreat⟩ | ⟨hst, hdrop, htreat⟩ |
    ⟨-, next, rest, hdrop, ⟨hst, htreat⟩ | ⟨hst, htreat⟩⟩ := treat_cases s o
  all_goals rw [htreat]
  · exact ⟨s, explored, rfl, h.drop hst, List.Subset.refl _, rfl⟩
  · exact ⟨_, explored, rfl, h.shorten.prove hdrop hst, List.Subset.refl _, rfl⟩
  · have hshort := h.shorten
    rw [hdrop] at hshort
    exact ⟨_, explored, rfl, hshort.wait rfl hst, List.Subset.refl _, rfl⟩
  · have hshort := h.shorten
    rw [hdrop] at hshort
    obtain ⟨r, hr, us, hus, hfits⟩ := hshort.owed _ (.inl List.mem_cons_self)
    obtain ⟨q, hq, hname⟩ := hfits.pending next List.mem_cons_self
    obtain ⟨t, hvalue, ht, hsteps⟩ := hshort.explore hst hname
      (.target (h.reachable _ hr) hus hq) (by simp)
    exact ⟨t, _, hvalue, ht, List.subset_cons_self _ _, hsteps⟩

theorem Exact.step (h : Exact P start explored [] s) (hdone : s.isDone = false) :
    ∃ t explored', s.step.value = .ok t ∧ Exact P start explored' [] t ∧
      explored ⊆ explored' ∧ t.steps = s.steps + 1 := by
  cases hwork : s.work with
  | nil => simp [isDone, hwork] at hdone
  | cons o work =>
    have hstep : s.step = Search.treat { s with work := work, steps := s.steps + 1 } o := by
      rcases s with ⟨graph, marking, waiting, _, count, steps⟩
      simp only at hwork
      rw [hwork]
      rfl
    rw [hstep]
    exact (h.pop hwork).treat

/-- When nothing is at work, what is satisfied and explored is proved. -/
theorem Exact.proved_of_satisfied (h : Exact P start explored [] s) (hdone : s.isDone = true)
    {n : NodeId} {r : ρ} (hr : Satisfied P.equations r) (hn : (n, r) ∈ explored) :
    s.marking.status n = .proved := by
  have hwork : s.work = [] := List.isEmpty_iff.mp hdone
  induction hr generalizing n with
  | @intro r us hus _ ih =>
    have hexplored := (h.explored_iff n).mp (List.mem_map_of_mem hn)
    cases hst : s.marking.status n with
    | unexplored => exact (hexplored hst).elim
    | proved => rfl
    | unproved =>
      obtain ⟨o, ho, -, hfits⟩ := h.covered (n, r) hn hst us hus
      -- The hyperedge waits at a target that is not proved, but all its targets are satisfied.
      rcases ho with ho | ho | ⟨node, ho⟩
      · exact (List.not_mem_nil ho).elim
      · rw [hwork] at ho
        exact (List.not_mem_nil ho).elim
      · obtain ⟨hnode, rest, hpending⟩ := h.waits node o ho
        obtain ⟨q, hq, hname⟩ := hfits.pending node (hpending ▸ List.mem_cons_self)
        have hmem : (node, q) ∈ explored := h.mem_explored (by rw [hnode]; simp) hname
        have hproved := ih q hq hmem
        rw [hnode] at hproved
        exact hproved

theorem exact_init {g : γ} (hg : P.Lawful g) : Exact P start [] [] ({ graph := g } : Search γ) := by
  have hstatus : ∀ n, ({ graph := g } : Search γ).marking.status n = .unexplored := by
    intro n
    simp [Marking.status]
  have hwaiting : ∀ n, ({ graph := g } : Search γ).waitingAt n = [] := by
    intro n
    simp [waitingAt]
  refine ⟨hg, List.nodup_nil, ?_, by simp, by simp, by simp, ?_, by simp, ?_, by simp [load]⟩
  · intro n
    simp [hstatus]
  · rintro o (ho | ho | ⟨node, ho⟩)
    · exact (List.not_mem_nil ho).elim
    · exact (List.not_mem_nil ho).elim
    · rw [hwaiting] at ho
      exact (List.not_mem_nil ho).elim
  · intro node o ho
    rw [hwaiting] at ho
    exact (List.not_mem_nil ho).elim

theorem start_value (P : Presentation γ ρ) {g : γ} (hg : P.Lawful g) {root : NodeId} {r : ρ}
    (hroot : P.name g root = some r) :
    ∃ s, (Search.start g root).value = .ok s ∧ Exact P r [(root, r)] [] s ∧ s.steps = 0 := by
  have hinit : Exact P r [] [] ({ graph := g } : Search γ) := exact_init hg
  have hst : ({ graph := g } : Search γ).marking.status root = .unexplored := by
    simp [Marking.status]
  exact hinit.explore hst hroot .start (by simp)

/-- A search is done within its bound, and keeps the invariant to its end. -/
theorem Exact.advance_bound (h : Exact P start explored [] s) :
    ∃ t explored', (s.advance P.bound).value = .ok t ∧ t.isDone = true ∧
      Exact P start explored' [] t ∧ explored ⊆ explored' := by
  let Inv (t : Search γ) : Prop :=
    ∃ explored', Exact P start explored' [] t ∧ explored ⊆ explored'
  have hround : ∀ s, Inv s → s.isDone = false →
      ∃ t, s.step.value = .ok t ∧ Inv t ∧ P.bound - t.steps < P.bound - s.steps := by
    rintro s ⟨explored', hs, hsub⟩ hdone
    obtain ⟨t, explored'', hvalue, ht, hsub', hsteps⟩ := hs.step hdone
    have hle := ht.steps_le
    have hweight := P.weight_le ht.lawful ht.nodup ht.name_eq
    exact ⟨t, hvalue, ⟨explored'', ht, fun _ hp => hsub' (hsub hp)⟩, by omega⟩
  obtain ⟨t, hvalue, ⟨explored', ht, hsub⟩, hdone⟩ := Run.iterate_ends Inv
    (fun s => P.bound - s.steps) hround ⟨explored, h, List.Subset.refl _⟩
    (Nat.sub_le P.bound s.steps)
  exact ⟨t, explored', hvalue, hdone, ht, hsub⟩

theorem complete_of_advance {g : γ} {root : NodeId} {t : Search γ}
    (hstart : (Search.start g root).value = .ok s)
    (hrun : (s.advance (Hypergraph.searchBound g)).value = .ok t) (hdone : t.isDone = true) :
    (complete g root).value = .ok t := by
  rw [complete, Run.value_bind_of_ok hstart, Run.value_bind_of_ok hrun, if_pos hdone]
  rfl

theorem complete_value (P : Presentation γ ρ) {g : γ} (hg : P.Lawful g) {root : NodeId} {r : ρ}
    (hroot : P.name g root = some r) :
    ∃ t explored, (complete g root).value = .ok t ∧ t.isDone = true ∧
      Exact P r explored [] t ∧ (root, r) ∈ explored := by
  obtain ⟨s, hstart, hs, -⟩ := start_value P hg hroot
  obtain ⟨t, explored, hrun, hdone, ht, hsub⟩ := hs.advance_bound
  rw [← P.searchBound_eq hg] at hrun
  exact ⟨t, explored, complete_of_advance hstart hrun hdone, hdone, ht, hsub List.mem_cons_self⟩

end

end Search

section

variable {γ ρ : Type} [Hypergraph γ]

/-- The search for a node that stands for an unknown decides that unknown, and every other one that
it looks at. -/
theorem solve_value (P : Presentation γ ρ) {g : γ} (hg : P.Lawful g) {root : NodeId} {r : ρ}
    (hroot : P.name g root = some r) :
    ∃ g' m, (solve g root).value = .ok (g', m) ∧ P.Lawful g' ∧
      (m.status root = .proved ↔ Satisfied P.equations r) ∧ m.status root ≠ .unexplored ∧
      ∀ n, m.status n ≠ .unexplored → ∃ q, P.name g' n = some q ∧
        Reachable P.equations r q ∧ (m.status n = .proved ↔ Satisfied P.equations q) := by
  obtain ⟨t, explored, hvalue, hdone, ht, hmem⟩ := Search.complete_value P hg hroot
  have hiff : ∀ p ∈ explored, t.marking.status p.1 = .proved ↔ Satisfied P.equations p.2 :=
    fun p hp => ⟨ht.satisfied p hp, fun hsat => ht.proved_of_satisfied hdone hsat hp⟩
  refine ⟨t.graph, t.marking, ?_, ht.lawful, hiff _ hmem,
    (ht.explored_iff root).mp (List.mem_map_of_mem hmem), ?_⟩
  · rw [solve, Run.value_bind_of_ok hvalue]
    rfl
  · intro n hn
    obtain ⟨p, hp, rfl⟩ := List.mem_map.mp ((ht.explored_iff n).mpr hn)
    exact ⟨p.2, ht.name_eq p hp, ht.reachable p hp, hiff p hp⟩

end

/-- The search in a new unfolding decides the record that it was made for, which holds where `P`
fails. -/
theorem Unfolding.solve_ofRoot {ρ : Type} [DecidableEq ρ] {S : System ρ} (T : S.Theory)
    (hsurplus : T.surplus = 0) {r : ρ} (hr : T.Occurs r) (hkey : (S.key? r).isSome = true)
    {P : Prop} [Decidable P] (hP : Satisfied T.equations r ↔ ¬ P) :
    ∃ u m, (solve (ofRoot S r) root).value = .ok (u, m) ∧ (!m.holds root) = decide P := by
  obtain ⟨hfaithful, hname⟩ := faithful_ofRoot T hr hkey
  have hlawful : (presentation T).Lawful (ofRoot S r) := ⟨rfl, hsurplus ▸ hfaithful⟩
  obtain ⟨u, m, hvalue, -, hiff, -⟩ := solve_value (presentation T) hlawful hname
  refine ⟨u, m, hvalue, ?_⟩
  rw [Bool.eq_iff_iff, Bool.not_eq_true', ← Bool.not_eq_true, Marking.holds_iff, decide_eq_true_iff]
  exact (hiff.trans hP).not_left

/-- What a search from `root` is to find out about the equations of a graph. -/
structure Marking.Decides (m : Marking) (e : Equations NodeId) (root : NodeId) : Prop where
  root_explored : m.status root ≠ .unexplored
  satisfied : ∀ n, m.status n = .proved → Satisfied e n
  not_satisfied : ∀ n, m.status n = .unproved → ¬ Satisfied e n
  reachable : ∀ n, m.status n ≠ .unexplored → Reachable e root n

namespace Graph

theorem solve_decides (g : Graph) (hg : g.nodes.InRange) (root : NodeId) (hroot : root < g.size) :
    ∃ m, (solve g root).value = .ok (g, m) ∧ m.Decides g.nodes.equations root := by
  obtain ⟨g', m, hvalue, hlawful, -, hdecided, hexact⟩ := solve_value (g.presentation hg) rfl
    (nodeName_eq_some_iff.mpr ⟨hroot, rfl⟩)
  obtain rfl : g' = g := hlawful
  have hnode : ∀ n, m.status n ≠ .unexplored → Reachable g'.nodes.equations root n ∧
      (m.status n = .proved ↔ Satisfied g'.nodes.equations n) := by
    intro n hn
    obtain ⟨q, hname, hreach, hiff⟩ := hexact n hn
    obtain ⟨-, rfl⟩ := nodeName_eq_some_iff.mp hname
    exact ⟨hreach, hiff⟩
  refine ⟨m, hvalue, hdecided, ?_, ?_, fun n hn => (hnode n hn).1⟩
  · intro n hn
    exact (hnode n (by rw [hn]; simp)).2.mp hn
  · intro n hn hsat
    have hproved := (hnode n (by rw [hn]; simp)).2.mpr hsat
    rw [hn] at hproved
    simp at hproved

/-- Two nodes that wait for each other, with a way out through a repeated target. -/
def cyclic : Graph := ⟨#[[[1], [2, 2]], [[0, 1]], [[3], []], [[3]]]⟩

theorem solve_decides_cyclic :
    cyclic.nodes.InRange ∧ 0 < cyclic.size ∧
      ∃ m, (solve cyclic 0).value = .ok (cyclic, m) ∧ m.Decides cyclic.nodes.equations 0 :=
  ⟨by decide, by decide, cyclic.solve_decides (by decide) 0 (by decide)⟩

end Graph

end ProcessLogic
