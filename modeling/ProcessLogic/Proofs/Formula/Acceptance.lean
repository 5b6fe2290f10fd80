import ProcessLogic.Proofs.Formula.Scope

/-!
# Which formulas are accepted

Gathering definitions is one pass through a formula, which remembers the binders around it and the
fixpoints it has seen. It succeeds exactly for the formulas that bind what they use, bind no name
twice and have no fixpoint that depends on an enclosing one of the other kind, and then lists all
fixpoints of the formula.
-/

set_option autoImplicit false

namespace ProcessLogic

namespace Definitions

variable {d : Definitions} {x : String} {F : Formula}

theorem find?_eq_none_iff : d.find? x = none ↔ x ∉ d.map Prod.fst := by
  induction d with
  | nil => simp [find?]
  | cons p d ih =>
    rw [find?, List.lookup_cons, List.map_cons, List.mem_cons]
    split
    · next heq => simp [eq_of_beq heq]
    · next heq =>
      have hne : x ≠ p.1 := by simpa using heq
      exact ih.trans (by simp [hne])

/-- Where no name is bound twice, a name finds every fixpoint that binds it. -/
theorem find?_eq_some_iff (h : (d.map Prod.fst).Nodup) : d.find? x = some F ↔ (x, F) ∈ d := by
  refine ⟨mem_of_find?, fun hmem => ?_⟩
  induction d with
  | nil => exact (List.not_mem_nil hmem).elim
  | cons p d ih =>
    obtain ⟨hp, hd⟩ := List.nodup_cons.mp h
    rw [find?, List.lookup_cons]
    rcases List.mem_cons.mp hmem with rfl | hmem
    · simp
    · have hne : x ≠ p.1 := fun heq => hp (heq ▸ List.mem_map_of_mem hmem)
      rw [beq_false_of_ne hne]
      exact ih hd hmem

end Definitions

namespace Formula

/-- The second formula stands in the first, below the binders of the scope. -/
inductive Contains : Formula → Scope → Formula → Prop where
  | self (f : Formula) : Contains f [] f
  | modal {q : Quantifier} {strength : Strength} {a : Act} {f g : Formula} {scope : Scope} :
      Contains f scope g → Contains (.modal q strength a f) scope g
  | part {q : Quantifier} {fs : List Formula} {f g : Formula} {scope : Scope} :
      f ∈ fs → Contains f scope g → Contains (.junction q fs) scope g
  | body {kind : Extremum} {x : String} {f g : Formula} {scope : Scope} :
      Contains f scope g → Contains (.fix kind x f) ((x, kind) :: scope) g

/-- The name stands in the formula, outside of every fixpoint that binds it. -/
def OccursFree (x : String) (f : Formula) : Prop :=
  ∃ scope, f.Contains scope (.var x) ∧ ∀ kind, (x, kind) ∉ scope

mutual

/-- The fixpoints of a formula under the names they bind, as often as they stand in it. -/
def fixpoints : Formula → Definitions
  | .const _ | .var _ => []
  | .modal _ _ _ f => f.fixpoints
  | .junction _ fs => fixpointsOf fs
  | .fix kind x f => (x, .fix kind x f) :: f.fixpoints

def fixpointsOf : List Formula → Definitions
  | [] => []
  | f :: fs => f.fixpoints ++ fixpointsOf fs

end

/-- What a formula has to be like to be accepted. -/
structure Acceptable (f : Formula) : Prop where
  /-- Every name stands below a binder of it. -/
  bound : ∀ scope x, f.Contains scope (.var x) → ∃ kind, (x, kind) ∈ scope
  /-- No two fixpoints bind the same name. -/
  distinct : (f.fixpoints.map Prod.fst).Nodup
  /-- No fixpoint depends on an enclosing one of the other kind. -/
  independent : ∀ scope kind x g, f.Contains scope (.fix kind x g) →
    ∀ y outer, (y, outer) ∈ scope → outer ≠ kind → ¬ g.OccursFree y

section

variable {q : Quantifier} {strength : Strength} {a : Act} {kind : Extremum} {x y : String}
  {f g F : Formula} {fs : List Formula} {scope : Scope}

theorem contains_const {value : Bool} :
    Contains (.const value) scope g ↔ scope = [] ∧ g = .const value := by
  constructor
  · intro h
    cases h
    exact ⟨rfl, rfl⟩
  · intro h
    obtain ⟨rfl, rfl⟩ := h
    exact .self _

theorem contains_var : Contains (.var x) scope g ↔ scope = [] ∧ g = .var x := by
  constructor
  · intro h
    cases h
    exact ⟨rfl, rfl⟩
  · intro h
    obtain ⟨rfl, rfl⟩ := h
    exact .self _

theorem contains_modal :
    Contains (.modal q strength a f) scope g ↔
      (scope = [] ∧ g = .modal q strength a f) ∨ f.Contains scope g := by
  constructor
  · intro h
    cases h with
    | self => exact .inl ⟨rfl, rfl⟩
    | modal h => exact .inr h
  · intro h
    obtain ⟨rfl, rfl⟩ | h := h
    · exact .self _
    · exact .modal h

theorem contains_junction :
    Contains (.junction q fs) scope g ↔
      (scope = [] ∧ g = .junction q fs) ∨ ∃ f ∈ fs, f.Contains scope g := by
  constructor
  · intro h
    cases h with
    | self => exact .inl ⟨rfl, rfl⟩
    | part hf h => exact .inr ⟨_, hf, h⟩
  · intro h
    obtain ⟨rfl, rfl⟩ | ⟨f, hf, h⟩ := h
    · exact .self _
    · exact .part hf h

theorem contains_fix :
    Contains (.fix kind x f) scope g ↔
      (scope = [] ∧ g = .fix kind x f) ∨
        ∃ inner, scope = (x, kind) :: inner ∧ f.Contains inner g := by
  constructor
  · intro h
    cases h with
    | self => exact .inl ⟨rfl, rfl⟩
    | body h => exact .inr ⟨_, rfl, h⟩
  · intro h
    obtain ⟨rfl, rfl⟩ | ⟨inner, rfl, h⟩ := h
    · exact .self _
    · exact .body h

theorem mentions_iff_occursFree : f.mentions x = true ↔ f.OccursFree x := by
  induction f using Formula.induct with
  | const value =>
    simp only [mentions, OccursFree, contains_const, reduceCtorEq, and_false, false_and,
      exists_false, Bool.false_eq_true]
  | var y =>
    simp only [mentions, OccursFree, contains_var, beq_iff_eq, var.injEq, and_assoc,
      exists_eq_left, List.not_mem_nil, not_false_eq_true, implies_true, and_true]
  | modal q strength a f ih =>
    rw [mentions, ih]
    refine exists_congr fun scope => and_congr_left fun _ => ?_
    simp only [contains_modal, reduceCtorEq, and_false, false_or]
  | junction q fs ih =>
    rw [mentions, mentionsAny_iff]
    constructor
    · intro h
      obtain ⟨f, hf, hx⟩ := h
      obtain ⟨scope, hcontains, hfree⟩ := (ih f hf).mp hx
      exact ⟨scope, .part hf hcontains, hfree⟩
    · intro h
      obtain ⟨scope, hcontains, hfree⟩ := h
      obtain ⟨-, heq⟩ | ⟨f, hf, hcontains⟩ := contains_junction.mp hcontains
      · simp at heq
      · exact ⟨f, hf, (ih f hf).mpr ⟨scope, hcontains, hfree⟩⟩
  | fix kind y f ih =>
    rw [mentions_fix]
    constructor
    · intro h
      obtain ⟨hne, hx⟩ := h
      obtain ⟨scope, hcontains, hfree⟩ := ih.mp hx
      refine ⟨(y, kind) :: scope, .body hcontains, fun k hk => ?_⟩
      rcases List.mem_cons.mp hk with heq | hk
      · exact hne (Prod.mk.inj heq).1
      · exact hfree k hk
    · intro h
      obtain ⟨scope, hcontains, hfree⟩ := h
      obtain ⟨-, heq⟩ | ⟨inner, rfl, hbody⟩ := contains_fix.mp hcontains
      · simp at heq
      · refine ⟨?_, ih.mpr ⟨inner, hbody, fun k hk => hfree k (List.mem_cons_of_mem _ hk)⟩⟩
        rintro rfl
        exact hfree kind List.mem_cons_self

theorem mem_fixpointsOf {p : String × Formula} :
    p ∈ fixpointsOf fs ↔ ∃ f ∈ fs, p ∈ f.fixpoints := by
  induction fs with
  | nil => simp [fixpointsOf]
  | cons f fs ih => simp [fixpointsOf, ih]

theorem mem_fixpoints :
    (x, F) ∈ f.fixpoints ↔ ∃ scope kind g, F = .fix kind x g ∧ f.Contains scope F := by
  induction f using Formula.induct with
  | const value =>
    refine iff_of_false List.not_mem_nil fun h => ?_
    obtain ⟨scope, kind, g, rfl, hcontains⟩ := h
    exact absurd (contains_const.mp hcontains).2 (by simp)
  | var y =>
    refine iff_of_false List.not_mem_nil fun h => ?_
    obtain ⟨scope, kind, g, rfl, hcontains⟩ := h
    exact absurd (contains_var.mp hcontains).2 (by simp)
  | modal q strength a f ih =>
    rw [fixpoints, ih]
    constructor
    · intro h
      obtain ⟨scope, kind, g, hF, hcontains⟩ := h
      exact ⟨scope, kind, g, hF, .modal hcontains⟩
    · intro h
      obtain ⟨scope, kind, g, rfl, hcontains⟩ := h
      obtain ⟨-, heq⟩ | hcontains := contains_modal.mp hcontains
      · simp at heq
      · exact ⟨scope, kind, g, rfl, hcontains⟩
  | junction q fs ih =>
    rw [fixpoints, mem_fixpointsOf]
    constructor
    · intro h
      obtain ⟨f, hf, hmem⟩ := h
      obtain ⟨scope, kind, g, hF, hcontains⟩ := (ih f hf).mp hmem
      exact ⟨scope, kind, g, hF, .part hf hcontains⟩
    · intro h
      obtain ⟨scope, kind, g, rfl, hcontains⟩ := h
      obtain ⟨-, heq⟩ | ⟨f, hf, hcontains⟩ := contains_junction.mp hcontains
      · simp at heq
      · exact ⟨f, hf, (ih f hf).mpr ⟨scope, kind, g, rfl, hcontains⟩⟩
  | fix kind y f ih =>
    rw [fixpoints, List.mem_cons, ih]
    constructor
    · intro h
      obtain heq | ⟨scope, k, g, hF, hcontains⟩ := h
      · obtain ⟨rfl, rfl⟩ := Prod.mk.inj heq
        exact ⟨[], kind, f, rfl, .self _⟩
      · exact ⟨(y, kind) :: scope, k, g, hF, .body hcontains⟩
    · intro h
      obtain ⟨scope, k, g, rfl, hcontains⟩ := h
      obtain ⟨-, heq⟩ | ⟨inner, -, hcontains⟩ := contains_fix.mp hcontains
      · obtain ⟨rfl, rfl, rfl⟩ := fix.inj heq
        exact .inl rfl
      · exact .inr ⟨inner, k, g, rfl, hcontains⟩

end

/-- The formula may stand below the binders of the scope. -/
structure Fits (scope : Scope) (f : Formula) : Prop where
  bound : ∀ inner x, f.Contains inner (.var x) → ∃ kind, (x, kind) ∈ scope ++ inner
  independent : ∀ inner kind x g, f.Contains inner (.fix kind x g) →
    ∀ y outer, (y, outer) ∈ scope ++ inner → outer ≠ kind → ¬ g.OccursFree y

section

variable {q : Quantifier} {strength : Strength} {a : Act} {kind : Extremum} {x : String}
  {f : Formula} {fs : List Formula} {scope : Scope}

theorem conflict?_eq_none_iff :
    scope.conflict? kind f = none ↔
      ∀ y outer, (y, outer) ∈ scope → outer ≠ kind → ¬ f.OccursFree y := by
  rw [Scope.conflict?, Option.map_eq_none_iff, List.find?_eq_none, Prod.forall]
  simp only [← mentions_iff_occursFree, Bool.and_eq_true, decide_eq_true_eq, not_and]

theorem fits_const {value : Bool} : Fits scope (.const value) :=
  ⟨fun _ _ h => absurd (contains_const.mp h).2 (by simp),
    fun _ _ _ _ h => absurd (contains_const.mp h).2 (by simp)⟩

theorem fits_var : Fits scope (.var x) ↔ ∃ kind, (x, kind) ∈ scope := by
  constructor
  · intro h
    simpa only [List.append_nil] using h.bound [] x (.self _)
  · intro h
    refine ⟨fun inner y hy => ?_, fun _ _ _ _ hg => absurd (contains_var.mp hg).2 (by simp)⟩
    obtain ⟨rfl, heq⟩ := contains_var.mp hy
    obtain rfl := var.inj heq
    simpa only [List.append_nil] using h

theorem fits_modal : Fits scope (.modal q strength a f) ↔ f.Fits scope := by
  constructor
  · intro h
    exact ⟨fun inner x hx => h.bound inner x (.modal hx),
      fun inner kind x g hg => h.independent inner kind x g (.modal hg)⟩
  · intro h
    refine ⟨fun inner x hx => h.bound inner x ?_, fun inner kind x g hg =>
      h.independent inner kind x g ?_⟩
    · simpa only [contains_modal, reduceCtorEq, and_false, false_or] using hx
    · simpa only [contains_modal, reduceCtorEq, and_false, false_or] using hg

theorem fits_junction : Fits scope (.junction q fs) ↔ ∀ f ∈ fs, f.Fits scope := by
  constructor
  · intro h f hf
    exact ⟨fun inner x hx => h.bound inner x (.part hf hx),
      fun inner kind x g hg => h.independent inner kind x g (.part hf hg)⟩
  · intro h
    refine ⟨fun inner x hx => ?_, fun inner kind x g hg => ?_⟩
    · obtain ⟨-, heq⟩ | ⟨f, hf, hx⟩ := contains_junction.mp hx
      · simp at heq
      · exact (h f hf).bound inner x hx
    · obtain ⟨-, heq⟩ | ⟨f, hf, hg⟩ := contains_junction.mp hg
      · simp at heq
      · exact (h f hf).independent inner kind x g hg

theorem fits_fix :
    Fits scope (.fix kind x f) ↔
      scope.conflict? kind f = none ∧ f.Fits (scope ++ [(x, kind)]) := by
  rw [conflict?_eq_none_iff]
  constructor
  · intro h
    refine ⟨by simpa only [List.append_nil] using h.independent [] kind x f (.self _), ?_⟩
    refine ⟨fun inner y hy => ?_, fun inner k y g hg => ?_⟩
    · rw [List.append_assoc]
      exact h.bound _ y (.body hy)
    · rw [List.append_assoc]
      exact h.independent _ k y g (.body hg)
  · intro h
    obtain ⟨houter, hbody⟩ := h
    refine ⟨fun inner y hy => ?_, fun inner k y g hg => ?_⟩
    · obtain ⟨-, heq⟩ | ⟨below, rfl, hy'⟩ := contains_fix.mp hy
      · simp at heq
      · rw [← List.singleton_append, ← List.append_assoc]
        exact hbody.bound below y hy'
    · obtain ⟨rfl, heq⟩ | ⟨below, rfl, hg'⟩ := contains_fix.mp hg
      · obtain ⟨rfl, rfl, rfl⟩ := fix.inj heq
        rw [List.append_nil]
        exact houter
      · rw [← List.singleton_append, ← List.append_assoc]
        exact hbody.independent below k y g hg'

end

section

variable {kind : Extremum} {x : String} {f : Formula} {fs : List Formula} {scope : Scope}
  {d d' : Definitions}

theorem gather_var_eq_ok_iff :
    (var x).gather scope d = .ok d' ↔ (∃ kind, (x, kind) ∈ scope) ∧ d' = d := by
  rw [gather]
  split
  · next h =>
    obtain ⟨⟨y, kind⟩, hmem, hy⟩ := List.any_eq_true.mp h
    obtain rfl : y = x := by simpa using hy
    have hbound : ∃ kind, (y, kind) ∈ scope := ⟨kind, hmem⟩
    rw [and_iff_right hbound, Except.ok.injEq, eq_comm]
  · next h =>
    have hfree : ¬ ∃ kind, (x, kind) ∈ scope := by
      intro hx
      obtain ⟨kind, hmem⟩ := hx
      exact h (List.any_eq_true.mpr ⟨(x, kind), hmem, by simp⟩)
    simp [hfree]

theorem gatherAll_cons_eq_ok_iff :
    gatherAll scope (f :: fs) d = .ok d' ↔
      ∃ d₁, f.gather scope d = .ok d₁ ∧ gatherAll scope fs d₁ = .ok d' := by
  refine ⟨gatherAll_cons_eq_ok, fun h => ?_⟩
  obtain ⟨d₁, hf, hfs⟩ := h
  rw [gatherAll, hf]
  exact hfs

theorem gather_fix_eq_ok_iff :
    (fix kind x f).gather scope d = .ok d' ↔
      d.find? x = none ∧ scope.conflict? kind f = none ∧
        f.gather (scope ++ [(x, kind)]) (d ++ [(x, .fix kind x f)]) = .ok d' := by
  refine ⟨gather_fix_eq_ok, fun h => ?_⟩
  obtain ⟨hx, hconflict, hbody⟩ := h
  rw [gather, if_neg (by simp [hx]), hconflict]
  exact hbody

/-- The pass accepts a formula that fits in its scope and binds new names only, and adds its
fixpoints to the definitions. -/
def GathersExactly (f : Formula) : Prop :=
  ∀ ⦃scope : Scope⦄ ⦃d d' : Definitions⦄, (d.map Prod.fst).Nodup →
    (f.gather scope d = .ok d' ↔
      f.Fits scope ∧ ((d ++ f.fixpoints).map Prod.fst).Nodup ∧ d' = d ++ f.fixpoints)

theorem gatherAll_eq_ok_iff (ih : ∀ f ∈ fs, f.GathersExactly) (hd : (d.map Prod.fst).Nodup) :
    gatherAll scope fs d = .ok d' ↔ (∀ f ∈ fs, f.Fits scope) ∧
      ((d ++ fixpointsOf fs).map Prod.fst).Nodup ∧ d' = d ++ fixpointsOf fs := by
  induction fs generalizing d with
  | nil => simp [gatherAll, fixpointsOf, hd, eq_comm]
  | cons f fs ihs =>
    have hf := ih f List.mem_cons_self
    have hfs := fun f hf => ih f (List.mem_cons_of_mem _ hf)
    rw [gatherAll_cons_eq_ok_iff, fixpointsOf, ← List.append_assoc, List.forall_mem_cons]
    constructor
    · intro h
      obtain ⟨d₁, hgather, hrest⟩ := h
      obtain ⟨hfits, hnodup, rfl⟩ := (hf hd).mp hgather
      obtain ⟨hall, hrest⟩ := (ihs hfs hnodup).mp hrest
      exact ⟨⟨hfits, hall⟩, hrest⟩
    · intro h
      obtain ⟨⟨hfits, hall⟩, hnodup, hd'⟩ := h
      -- the names bound so far are among those bound in the end
      have hfirst : ((d ++ f.fixpoints).map Prod.fst).Nodup := by
        rw [List.map_append] at hnodup
        exact hnodup.of_append_left
      exact ⟨_, (hf hd).mpr ⟨hfits, hfirst, rfl⟩, (ihs hfs hfirst).mpr ⟨hall, hnodup, hd'⟩⟩

theorem nodup_snoc_iff {F : Formula} (hd : (d.map Prod.fst).Nodup) :
    ((d ++ [(x, F)]).map Prod.fst).Nodup ↔ d.find? x = none := by
  rw [Definitions.find?_eq_none_iff, List.map_append, List.map_singleton,
    ← List.concat_eq_append, List.nodup_concat, and_iff_left hd]

theorem gathersExactly_fix (ih : f.GathersExactly) : (fix kind x f).GathersExactly := by
  intro scope d d' hd
  have hfixpoints : d ++ (fix kind x f).fixpoints = d ++ [(x, .fix kind x f)] ++ f.fixpoints := by
    simp [fixpoints]
  rw [gather_fix_eq_ok_iff, hfixpoints, fits_fix]
  constructor
  · intro h
    obtain ⟨hx, hconflict, hbody⟩ := h
    obtain ⟨hfits, hrest⟩ := (ih ((nodup_snoc_iff hd).mpr hx)).mp hbody
    exact ⟨⟨hconflict, hfits⟩, hrest⟩
  · intro h
    obtain ⟨⟨hconflict, hfits⟩, hnodup, hd'⟩ := h
    have hnew : ((d ++ [(x, fix kind x f)]).map Prod.fst).Nodup := by
      rw [List.map_append] at hnodup
      exact hnodup.of_append_left
    exact ⟨(nodup_snoc_iff hd).mp hnew, hconflict, (ih hnew).mpr ⟨hfits, hnodup, hd'⟩⟩

theorem gathersExactly (f : Formula) : f.GathersExactly := by
  induction f using Formula.induct with
  | const value =>
    intro scope d d' hd
    simp [gather, fixpoints, fits_const, hd, eq_comm]
  | var x =>
    intro scope d d' hd
    rw [gather_var_eq_ok_iff, fits_var]
    simp [fixpoints, hd]
  | modal q strength a f ih =>
    intro scope d d' hd
    rw [gather, fits_modal, fixpoints]
    exact ih hd
  | junction q fs ih =>
    intro scope d d' hd
    rw [gather, fits_junction, fixpoints]
    exact gatherAll_eq_ok_iff ih hd
  | fix kind x f ih => exact gathersExactly_fix ih

theorem definitions_eq_ok_iff : f.definitions = .ok d ↔ f.Acceptable ∧ d = f.fixpoints := by
  rw [definitions, f.gathersExactly (by simp), List.nil_append, ← and_assoc]
  refine and_congr_left fun _ => ?_
  constructor
  · intro h
    exact ⟨h.1.bound, h.2, h.1.independent⟩
  · intro h
    exact ⟨⟨h.bound, h.independent⟩, h.distinct⟩

end

end Formula

end ProcessLogic
