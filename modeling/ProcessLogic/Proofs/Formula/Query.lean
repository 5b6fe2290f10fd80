import ProcessLogic.Proofs.Formula.Scope
import ProcessLogic.Proofs.Graph.Unfolding
import ProcessLogic.Proofs.Lts.Saturation
import ProcessLogic.Satisfaction

/-!
# The queries of a search

A search for fixpoints of one kind stays within its formula: it passes through fixpoints of that
kind and stops at those of the other, which are closed and smaller than the formula if this is a
fixpoint of the kind sought. The queries that occur are finitely many, and the capacity of the
system accounts for them.
-/

set_option autoImplicit false

namespace ProcessLogic

namespace Formula

variable {d : Definitions} {kind : Extremum} {top f : Formula} {fs : List Formula}

theorem one_le_size (f : Formula) : 1 ≤ f.size := by
  cases f <;> simp [size]

theorem size_le_sizes (hf : f ∈ fs) : f.size ≤ sizes fs := by
  induction fs with
  | nil => simp at hf
  | cons g fs ih =>
    simp only [sizes]
    rcases List.mem_cons.mp hf with rfl | hf
    · omega
    · have h := ih hf
      omega

theorem length_le_sizes (fs : List Formula) : fs.length ≤ sizes fs := by
  induction fs with
  | nil => simp
  | cons f fs ih =>
    have hf := f.one_le_size
    simp only [List.length_cons, sizes]
    omega

/-- Parts of a formula outside of its fixpoints of the other kind, and these fixpoints. -/
inductive Within (kind : Extremum) (top : Formula) : Formula → Prop where
  | top : Within kind top top
  | modal {q : Quantifier} {strength : Strength} {a : Act} {f : Formula} :
      Within kind top (.modal q strength a f) → Within kind top f
  | part {q : Quantifier} {fs : List Formula} {f : Formula} :
      Within kind top (.junction q fs) → f ∈ fs → Within kind top f
  | body {x : String} {f : Formula} : Within kind top (.fix kind x f) → Within kind top f

namespace Within

theorem inScope (h : Within kind top f) (htop : top.Scoped d) : f.Scoped d := by
  induction h with
  | top => exact htop
  | modal _ ih =>
    cases ih with
    | modal hf => exact hf
  | part _ hf ih =>
    cases ih with
    | junction hfs => exact hfs _ hf
  | body _ ih =>
    cases ih with
    | fix _ _ hf => exact hf

/-- The free names of a part are bound on the way to it, by fixpoints of the kind sought. -/
theorem find?_of_mentions (h : Within kind top f) (htop : top.Scoped d) (hclosed : top.IsClosed)
    {y : String} (hy : f.mentions y = true) :
    ∃ g, d.find? y = some (.fix kind y g) ∧ Within kind top (.fix kind y g) := by
  induction h with
  | top => simp [hclosed y] at hy
  | modal _ ih => exact ih hy
  | part _ hf ih => exact ih (mentionsAny_iff.mpr ⟨_, hf, hy⟩)
  | @body x f hfix ih =>
    by_cases hyx : y = x
    · cases hfix.inScope htop with
      | fix hx _ _ => exact ⟨f, hyx ▸ hx, hyx ▸ hfix⟩
    · exact ih (mentions_fix.mpr ⟨hyx, hy⟩)

/-- A fixpoint of the other kind depends on no name at all. -/
theorem isClosed {k : Extremum} {x : String} (h : Within kind top (.fix k x f))
    (htop : top.Scoped d) (hclosed : top.IsClosed) (hk : k ≠ kind) : (fix k x f).IsClosed := by
  intro y
  by_contra hy
  have hy : (fix k x f).mentions y = true := by simpa using hy
  obtain ⟨g, hg, -⟩ := h.find?_of_mentions htop hclosed hy
  cases h.inScope htop with
  | fix _ hfree _ =>
    obtain ⟨g', hg'⟩ := hfree y (mentions_fix.mp hy).2
    rw [hg] at hg'
    cases Option.some.inj hg'
    exact hk rfl

theorem eq_or_size_lt (h : Within kind top f) : f = top ∨ f.size < top.size := by
  have below : ∀ {g f : Formula}, g = top ∨ g.size < top.size → f.size < g.size →
      f = top ∨ f.size < top.size := by
    rintro g f (rfl | hg) hf
    · exact .inr hf
    · exact .inr (hf.trans hg)
  induction h with
  | top => exact .inl rfl
  | modal _ ih => exact below ih (by simp [size])
  | part _ hf ih => exact below ih (Nat.lt_succ_of_le (size_le_sizes hf))
  | body _ ih => exact below ih (by simp [size])

theorem size_le (h : Within kind top f) : f.size ≤ top.size := by
  rcases h.eq_or_size_lt with rfl | h
  · exact Nat.le_refl _
  · exact h.le

end Within

end Formula

section

variable {α : Type} {q : Quantifier} {as : List α}

theorem mem_of_mem_spread {edge : List α} {a : α} (hedge : edge ∈ spread q as) (ha : a ∈ edge) :
    a ∈ as := by
  cases q with
  | any =>
    obtain ⟨b, hb, rfl⟩ := List.mem_map.mp hedge
    rwa [List.mem_singleton.mp ha]
  | all => rwa [← List.mem_singleton.mp hedge]

theorem flatten_spread : (spread q as).flatten = as := by
  cases q with
  | any => simp [spread, ← List.flatMap_def]
  | all => simp [spread]

theorem weight_spread_le : weight (spread q as) ≤ 2 * as.length + 1 := by
  cases q with
  | any =>
    rw [spread, weight_map_singleton]
    omega
  | all =>
    simp only [spread, weight]
    omega

theorem flatten_settled {satisfied : Bool} : (settled satisfied : List (List α)).flatten = [] := by
  cases satisfied <;> rfl

theorem weight_settled_le {satisfied : Bool} : weight (settled satisfied : List (List α)) ≤ 1 := by
  cases satisfied <;> simp [settled, weight]

end

namespace Model

variable {m : Model} {kind : Extremum} {verdict : StateId → Formula → Bool}

/-- The targets that a modality looks at. -/
def targets (m : Model) (strength : Strength) (a : Act) (s : StateId) : List StateId :=
  (((m.generator strength).transitions s).filter fun t => a.matches t.label).map (·.target)

/-- The equation of a formula, given the verdicts on fixpoints of the other kind. -/
def formulaEquation (m : Model) (kind : Extremum) (verdict : StateId → Formula → Bool)
    (s : StateId) : Formula → List (List Query)
  | .const value => settled (value = (kind = .least : Bool))
  | .var x =>
    match m.definitions.find? x with
    | some f => [[.definition s x f]]
    | none => []
  | .junction q fs => spread (kind.seeks q) (fs.map (.check s))
  | .modal q strength a f =>
    spread (kind.seeks q) ((m.targets strength a s).map fun t => .check t f)
  | .fix k x f =>
    if k = kind then formulaEquation m kind verdict s f else settled (verdict s (.fix k x f))

def queryEquations (m : Model) (kind : Extremum) (verdict : StateId → Formula → Bool) :
    Equations Query
  | .verdict value => settled value
  | .check s f => m.formulaEquation kind verdict s f
  | .definition s _ f => m.formulaEquation kind verdict s f

end Model

/-- The model of a system whose modalities read moves of the given strengths. -/
def Lts.modelBy (l : Lts) (reading : Strength → Strength) (d : Definitions) : Model where
  strong := l.generator (reading .strong)
  weak := l.generator (reading .weak)
  definitions := d

section

variable {l : Lts} {reading : Strength → Strength} {d : Definitions} {kind : Extremum}
  {verdict : StateId → Formula → Bool} {settle : StateId → Formula → Run (List (List Query))}
  {top f : Formula} {s : StateId}

theorem generator_modelBy (strength : Strength) :
    (l.modelBy reading d).generator strength = l.generator (reading strength) := by
  cases strength <;> rfl

theorem mem_targets (hl : l.InRange) (hs : s < l.stateCount) {strength : Strength} {a : Act}
    {t : StateId} : t ∈ (l.modelBy reading d).targets strength a s ↔
      ∃ b, l.Move (reading strength) s b t ∧ a.matches b = true := by
  simp only [Model.targets, generator_modelBy, List.mem_map, List.mem_filter]
  constructor
  · rintro ⟨⟨b, _⟩, ⟨he, hab⟩, rfl⟩
    exact ⟨b, (Lts.mem_transitions_generator hl hs).mp he, hab⟩
  · rintro ⟨b, step, hab⟩
    exact ⟨⟨b, t⟩, ⟨(Lts.mem_transitions_generator hl hs).mpr step, hab⟩, rfl⟩

theorem length_targets_le (hl : l.InRange) (hs : s < l.stateCount) {strength : Strength}
    {a : Act} : ((l.modelBy reading d).targets strength a s).length ≤
      (l.modelBy reading d).degree := by
  have hrow : ((l.generator (reading strength)).transitions s).length ≤
      (l.generator (reading strength)).degree := Lts.length_transitions_generator_le hl hs
  have hdegree : (l.generator (reading strength)).degree ≤ (l.modelBy reading d).degree := by
    cases strength with
    | strong => exact Nat.le_add_right _ _
    | weak => exact Nat.le_add_left _ _
  rw [Model.targets, generator_modelBy, List.length_map]
  exact (List.length_filter_le _ _).trans (hrow.trans hdegree)

/-- The search for `kind` in `top` is given the right verdicts on fixpoints of the other kind. -/
def Settles (l : Lts) (kind : Extremum) (top : Formula) (verdict : StateId → Formula → Bool)
    (settle : StateId → Formula → Run (List (List Query))) : Prop :=
  ∀ s k x f, s < l.stateCount → k ≠ kind → Formula.Within kind top (.fix k x f) →
    (settle s (.fix k x f)).value = .ok (settled (verdict s (.fix k x f)))

theorem equation_value (hl : l.InRange) (htop : top.Scoped d)
    (hsettle : Settles l kind top verdict settle) (hs : s < l.stateCount)
    (hf : Formula.Within kind top f) :
    ((l.modelBy reading d).equation kind settle s f).value =
      .ok ((l.modelBy reading d).formulaEquation kind verdict s f) := by
  induction f using Formula.induct with
  | const value => rfl
  | var x =>
    cases hf.inScope htop with
    | var hx =>
      have hx : (l.modelBy reading d).definitions.find? x = some _ := hx
      rw [Model.equation, Model.formulaEquation, hx]
      rfl
  | modal q strength a f _ =>
    have hrow : (((l.modelBy reading d).generator strength).successors s).value =
        .ok (((l.modelBy reading d).generator strength).transitions s) := by
      rw [generator_modelBy]
      exact Lts.successors_value hl hs
    rw [Model.equation, Run.value_bind_of_ok hrow]
    rfl
  | junction q fs _ => rfl
  | fix k x f ih =>
    rw [Model.equation, Model.formulaEquation]
    by_cases hk : k = kind
    · subst hk
      rw [if_pos rfl, if_pos rfl]
      exact ih hf.body
    · rw [if_neg hk, if_neg hk]
      exact hsettle s k x f hs hk hf

namespace Query

/-- Queries of the search for `kind` in `top`. -/
def Occurs (l : Lts) (d : Definitions) (kind : Extremum) (top : Formula) : Query → Prop
  | .verdict _ => True
  | .check s f => s < l.stateCount ∧ Formula.Within kind top f
  | .definition s x f =>
    s < l.stateCount ∧ Formula.Within kind top f ∧ d.find? x = some f

def allowance (degree : Nat) : Query → Nat
  | .verdict _ => 1
  | .check _ f => f.spreadBound degree
  | .definition _ _ f => f.spreadBound degree

/-- A definition is shared, so it costs nothing to mention it. -/
def price (degree : Nat) (r : Query) : Nat := if r.key?.isSome then 0 else r.allowance degree

end Query

theorem Formula.one_le_spreadBound (degree : Nat) (f : Formula) : 1 ≤ f.spreadBound degree := by
  induction f using Formula.induct with
  | const value => exact Nat.le_refl 1
  | var x => exact Nat.le_refl 1
  | modal q strength a f _ => exact Nat.le_add_left 1 _
  | junction q fs _ => exact Nat.le_add_left 1 _
  | fix kind x f ih => exact ih

theorem Formula.spreadBounds_eq_sum (degree : Nat) (fs : List Formula) :
    spreadBounds degree fs = (fs.map (spreadBound degree)).sum := by
  induction fs with
  | nil => rfl
  | cons f fs ih => simp [spreadBounds, ih]

theorem occurs_of_mem_formulaEquation (hl : l.InRange) (htop : top.Scoped d)
    (hclosed : top.IsClosed) (hs : s < l.stateCount) (hf : Formula.Within kind top f)
    {edge : List Query} {r : Query}
    (hedge : edge ∈ (l.modelBy reading d).formulaEquation kind verdict s f) (hr : r ∈ edge) :
    r.Occurs l d kind top := by
  induction f using Formula.induct with
  | const value =>
    have hmem := List.mem_flatten_of_mem hedge hr
    rw [Model.formulaEquation, flatten_settled] at hmem
    simp at hmem
  | var x =>
    obtain ⟨g, hg, hwithin⟩ := hf.find?_of_mentions htop hclosed (y := x) (by
      simp [Formula.mentions])
    have hx : (l.modelBy reading d).definitions.find? x = some _ := hg
    rw [Model.formulaEquation, hx] at hedge
    obtain rfl := List.mem_singleton.mp hedge
    obtain rfl := List.mem_singleton.mp hr
    exact ⟨hs, hwithin, hg⟩
  | modal q strength a f _ =>
    obtain ⟨t, ht, rfl⟩ := List.mem_map.mp (mem_of_mem_spread hedge hr)
    obtain ⟨b, step, -⟩ := (mem_targets hl hs).mp ht
    exact ⟨step.lt hl hs, hf.modal⟩
  | junction q fs _ =>
    obtain ⟨g, hg, rfl⟩ := List.mem_map.mp (mem_of_mem_spread hedge hr)
    exact ⟨hs, hf.part hg⟩
  | fix k x f ih =>
    rw [Model.formulaEquation] at hedge
    by_cases hk : k = kind
    · subst hk
      rw [if_pos rfl] at hedge
      exact ih hf.body hedge
    · rw [if_neg hk] at hedge
      have hmem := List.mem_flatten_of_mem hedge hr
      rw [flatten_settled] at hmem
      simp at hmem

theorem weight_formulaEquation_le (hl : l.InRange) (hs : s < l.stateCount)
    (hf : f.size ≤ top.size) :
    weight ((l.modelBy reading d).formulaEquation kind verdict s f) ≤
      (l.modelBy reading d).width top := by
  unfold Model.width
  induction f using Formula.induct with
  | const value =>
    have h : weight ((l.modelBy reading d).formulaEquation kind verdict s (.const value)) ≤ 1 :=
      weight_settled_le
    omega
  | var x =>
    rw [Model.formulaEquation]
    split
    · simp only [weight, List.length_cons, List.length_nil]
      omega
    · exact Nat.zero_le _
  | modal q strength a f _ =>
    have hspread : weight (spread (kind.seeks q)
        (((l.modelBy reading d).targets strength a s).map fun t => Query.check t f)) ≤ _ :=
      weight_spread_le
    have htargets : ((l.modelBy reading d).targets strength a s).length ≤
        (l.modelBy reading d).degree := length_targets_le hl hs
    rw [List.length_map] at hspread
    rw [Model.formulaEquation]
    omega
  | junction q fs _ =>
    have hspread : weight (spread (kind.seeks q) (fs.map (Query.check s))) ≤ _ := weight_spread_le
    have hlength := Formula.length_le_sizes fs
    rw [List.length_map] at hspread
    rw [Formula.size] at hf
    rw [Model.formulaEquation]
    omega
  | fix k x f ih =>
    rw [Model.formulaEquation]
    split
    · rw [Formula.size] at hf
      exact ih (by omega)
    · have h : weight (settled (verdict s (.fix k x f)) : List (List Query)) ≤ 1 :=
        weight_settled_le
      omega

theorem sum_price_formulaEquation_le (hl : l.InRange) (hs : s < l.stateCount) :
    (((l.modelBy reading d).formulaEquation kind verdict s f).flatten.map
      (Query.price (l.modelBy reading d).degree)).sum + 1 ≤
        f.spreadBound (l.modelBy reading d).degree := by
  induction f using Formula.induct with
  | const value =>
    rw [Model.formulaEquation, flatten_settled]
    exact Nat.le_refl 1
  | var x =>
    rw [Model.formulaEquation]
    split
    · exact Nat.le_refl 1
    · exact Nat.le_refl 1
  | modal q strength a f _ =>
    have htargets : ((l.modelBy reading d).targets strength a s).length ≤
        (l.modelBy reading d).degree := length_targets_le hl hs
    have hconst : ((l.modelBy reading d).targets strength a s).map
        (Query.price (l.modelBy reading d).degree ∘ fun t => Query.check t f) =
        List.replicate ((l.modelBy reading d).targets strength a s).length
          (f.spreadBound (l.modelBy reading d).degree) := List.map_const'
    rw [Model.formulaEquation, flatten_spread, List.map_map, hconst, List.sum_replicate,
      smul_eq_mul, Formula.spreadBound]
    exact Nat.succ_le_succ (Nat.mul_le_mul_right _ htargets)
  | junction q fs _ =>
    rw [Model.formulaEquation, flatten_spread, List.map_map, Formula.spreadBound,
      Formula.spreadBounds_eq_sum]
    exact Nat.le_refl _
  | fix k x f ih =>
    rw [Model.formulaEquation]
    split
    · exact ih
    · rw [flatten_settled]
      exact Formula.one_le_spreadBound _ _

def allDefinitions (l : Lts) (d : Definitions) : List Query :=
  (List.range l.stateCount).flatMap fun s => d.map fun p => .definition s p.1 p.2

theorem sum_allDefinitions (degree : Nat) :
    ((allDefinitions l d).map (Query.allowance degree)).sum =
      l.stateCount * Formula.spreadBounds degree (d.map (·.2)) := by
  have hrow : ∀ s, ((d.map fun p => Query.definition s p.1 p.2).map
      (Query.allowance degree)).sum = Formula.spreadBounds degree (d.map (·.2)) := by
    intro s
    rw [Formula.spreadBounds_eq_sum, List.map_map, List.map_map]
    rfl
  unfold allDefinitions
  induction l.stateCount with
  | zero => simp
  | succ n ih =>
    rw [List.range_succ, List.flatMap_append, List.map_append, List.sum_append, ih,
      List.flatMap_singleton, hrow, Nat.succ_mul]

variable (reading verdict) in
/-- The queries of the search for `kind` in a closed formula. -/
def queryTheory (hl : l.InRange) (htop : top.Scoped d) (hclosed : top.IsClosed)
    (hsettle : Settles l kind top verdict settle) (s : StateId) :
    ((l.modelBy reading d).unfoldWith kind settle s top).system.Theory where
  equations := (l.modelBy reading d).queryEquations kind verdict
  Occurs := Query.Occurs l d kind top
  allowance := Query.allowance (l.modelBy reading d).degree
  shared := allDefinitions l d
  surplus := top.spreadBound (l.modelBy reading d).degree + 1 + 1
  equation_value := by
    intro r hr
    cases r with
    | verdict value => rfl
    | check s f => exact equation_value hl htop hsettle hr.1 hr.2
    | definition s x f => exact equation_value hl htop hsettle hr.1 hr.2.1
  occurs_of_mem := by
    intro r us q hr hus hq
    cases r with
    | verdict value =>
      have hmem := List.mem_flatten_of_mem hus hq
      rw [Model.queryEquations, flatten_settled] at hmem
      simp at hmem
    | check s f => exact occurs_of_mem_formulaEquation hl htop hclosed hr.1 hr.2 hus hq
    | definition s x f => exact occurs_of_mem_formulaEquation hl htop hclosed hr.1 hr.2.1 hus hq
  weight_le := by
    intro r hr
    cases r with
    | verdict value =>
      have h : weight ((l.modelBy reading d).queryEquations kind verdict (.verdict value)) ≤ 1 :=
        weight_settled_le
      exact h.trans (Nat.le_add_left 1 _)
    | check s f => exact weight_formulaEquation_le hl hr.1 hr.2.size_le
    | definition s x f => exact weight_formulaEquation_le hl hr.1 hr.2.1.size_le
  allowance_le := by
    intro r hr
    cases r with
    | verdict value =>
      rw [Model.queryEquations, flatten_settled]
      exact Nat.le_refl 1
    | check s f => exact sum_price_formulaEquation_le hl hr.1
    | definition s x f => exact sum_price_formulaEquation_le hl hr.1
  mem_shared := by
    intro r hr hkey
    cases r with
    | verdict value => simp [Model.unfoldWith, Query.key?] at hkey
    | check s f => simp [Model.unfoldWith, Query.key?] at hkey
    | definition s x f =>
      refine List.mem_flatMap.mpr ⟨s, List.mem_range.mpr hr.1, ?_⟩
      exact List.mem_map.mpr ⟨(x, f), Definitions.mem_of_find? hr.2.2, rfl⟩
  capacity_le := by
    have hreach : l.stateCount ≤ (l.modelBy reading d).reach := by
      have hlts : (l.generator (reading .strong)).lts.stateCount = l.stateCount := by simp
      show l.stateCount ≤ (l.generator (reading .strong)).lts.stateCount + _ + _ + 1
      omega
    have hshared := Nat.mul_le_mul_right
      (Formula.spreadBounds (l.modelBy reading d).degree (d.map (·.2))) hreach
    rw [sum_allDefinitions]
    show _ ≤ 2 + top.spreadBound _ + (l.modelBy reading d).reach * _
    exact Nat.add_le_add (by omega) hshared

theorem spells_settled (name : NodeId → Option Query) (satisfied : Bool) :
    Spells name (settled satisfied) (settled satisfied) := by
  cases satisfied with
  | false => exact .nil
  | true => exact .cons .nil .nil

theorem faithful_firstNodes (hl : l.InRange) (htop : top.Scoped d) (hclosed : top.IsClosed)
    (hsettle : Settles l kind top verdict settle) (hs : s < l.stateCount) :
    (Model.firstNodes (.check s top)).Faithful
      (queryTheory reading verdict hl htop hclosed hsettle s)
      (queryTheory reading verdict hl htop hclosed hsettle s).surplus := by
  let T := queryTheory reading verdict hl htop hclosed hsettle s
  have hcheck : T.Occurs (.check s top) := ⟨hs, .top⟩
  have hverdict : ∀ value, T.Occurs (.verdict value) := fun _ => trivial
  have hspells : ∀ name value, Spells name (settled value) (T.equations (.verdict value)) :=
    spells_settled
  have hfirst := (NodeTable.faithful_empty T).add hcheck rfl
  have htrue := hfirst.addBuilt (hverdict true) rfl (hspells _ true)
  have hfalse := htrue.addBuilt (hverdict false) rfl (hspells _ false)
  rw [Nat.zero_add] at hfalse
  exact hfalse

end

end ProcessLogic
