import ProcessLogic.Proofs.Formula.Query
import ProcessLogic.Proofs.Marking.OnDemand

/-!
# Checking a formula decides its meaning

The queries of a search are satisfied exactly where their formulas hold, or fail if greatest
fixpoints are sought. One direction reads the definitions of all names as one valuation, in which
the formulas solve the equations; the other turns the least solution into a valuation. Searches
for fixpoints of the other kind are handled by induction on how deeply they are nested.
-/

set_option autoImplicit false

namespace ProcessLogic

/-- What a search for fixpoints of this kind finds out about a property. -/
def Extremum.Sought : Extremum → Prop → Prop
  | .least, P => P
  | .greatest, P => ¬ P

def Quantifier.Over {α : Type} : Quantifier → List α → (α → Prop) → Prop
  | .any, as, P => ∃ a ∈ as, P a
  | .all, as, P => ∀ a ∈ as, P a

section

variable {kind : Extremum} {P Q : Prop}

theorem sought_sought : kind.Sought (kind.Sought P) ↔ P := by
  cases kind with
  | least => exact Iff.rfl
  | greatest => exact not_not

theorem sought_congr (h : P ↔ Q) : kind.Sought P ↔ kind.Sought Q := by
  rw [propext h]

theorem sought_dual : kind.dual.Sought P ↔ ¬ kind.Sought P := by
  cases kind with
  | least => exact Iff.rfl
  | greatest => exact not_not.symm

variable {α : Type} {q : Quantifier} {as : List α} {R S : α → Prop}

theorem sought_over :
    kind.Sought (q.Over as R) ↔ (kind.seeks q).Over as fun a => kind.Sought (R a) := by
  cases kind with
  | least => exact Iff.rfl
  | greatest =>
    cases q with
    | any => simp [Extremum.Sought, Extremum.seeks, Quantifier.dual, Quantifier.Over]
    | all => simp [Extremum.Sought, Extremum.seeks, Quantifier.dual, Quantifier.Over]

theorem Quantifier.Over.imp (hRS : ∀ a ∈ as, R a → S a) (h : q.Over as R) : q.Over as S := by
  cases q with
  | any =>
    obtain ⟨a, ha, hR⟩ := h
    exact ⟨a, ha, hRS a ha hR⟩
  | all => exact fun a ha => hRS a ha (h a ha)

theorem over_map {β : Type} {f : β → α} {bs : List β} :
    q.Over (bs.map f) R ↔ q.Over bs fun b => R (f b) := by
  cases q with
  | any => simp [Quantifier.Over]
  | all => simp [Quantifier.Over]

theorem exists_edge_spread : (∃ edge ∈ spread q as, ∀ a ∈ edge, R a) ↔ q.Over as R := by
  cases q with
  | any => simp [spread, Quantifier.Over]
  | all => simp [spread, Quantifier.Over]

theorem exists_edge_settled {satisfied : Bool} :
    (∃ edge ∈ (settled satisfied : List (List α)), ∀ a ∈ edge, R a) ↔ satisfied = true := by
  cases satisfied <;> simp [settled]

end

section

variable {l : Lts} {reading : Strength → Strength} {d : Definitions} {kind : Extremum}
  {verdict : StateId → Formula → Bool} {settle : StateId → Formula → Run (List (List Query))}
  {top f : Formula} {s : StateId} {v : Valuation} {P : Query → Prop}

/-- The moves that modalities of each strength read. -/
def Lts.movesBy (l : Lts) (reading : Strength → Strength) (strength : Strength) : Moves :=
  l.Move (reading strength)

theorem Formula.holds_junction_iff {moves : Strength → Moves} {q : Quantifier}
    {fs : List Formula} :
    (junction q fs).Holds moves v s ↔ q.Over fs fun f => f.Holds moves v s := by
  cases q with
  | any => exact holdsAny_iff
  | all => exact holdsAll_iff

theorem holds_modal_iff (hl : l.InRange) (hs : s < l.stateCount) {q : Quantifier}
    {strength : Strength} {a : Act} :
    (Formula.modal q strength a f).Holds (l.movesBy reading) v s ↔
      q.Over ((l.modelBy reading d).targets strength a s) fun t =>
        f.Holds (l.movesBy reading) v t := by
  cases q with
  | any =>
    constructor
    · rintro ⟨b, t, step, hab, ht⟩
      exact ⟨t, (mem_targets hl hs).mpr ⟨b, step, hab⟩, ht⟩
    · rintro ⟨t, hmem, ht⟩
      obtain ⟨b, step, hab⟩ := (mem_targets hl hs).mp hmem
      exact ⟨b, t, step, hab, ht⟩
  | all =>
    constructor
    · intro h t hmem
      obtain ⟨b, step, hab⟩ := (mem_targets hl hs).mp hmem
      exact h b t step hab
    · intro h b t step hab
      exact h t ((mem_targets hl hs).mpr ⟨b, step, hab⟩)

/-- One side of a query's equation holds in a set of queries. -/
def Derives (l : Lts) (reading : Strength → Strength) (d : Definitions) (kind : Extremum)
    (verdict : StateId → Formula → Bool) (P : Query → Prop) (s : StateId) (f : Formula) : Prop :=
  ∃ edge ∈ (l.modelBy reading d).formulaEquation kind verdict s f, ∀ r ∈ edge, P r

theorem derives_const {value : Bool} :
    Derives l reading d kind verdict P s (.const value) ↔ kind.Sought (value = true) := by
  rw [Derives, Model.formulaEquation, exists_edge_settled]
  cases kind with
  | least => simp [Extremum.Sought]
  | greatest => simp [Extremum.Sought]

theorem derives_var {x : String} {F : Formula} (hx : d.find? x = some F) :
    Derives l reading d kind verdict P s (.var x) ↔ P (.definition s x F) := by
  have hx : (l.modelBy reading d).definitions.find? x = some F := hx
  simp [Derives, Model.formulaEquation, hx]

theorem derives_modal {q : Quantifier} {strength : Strength} {a : Act} :
    Derives l reading d kind verdict P s (.modal q strength a f) ↔
      (kind.seeks q).Over ((l.modelBy reading d).targets strength a s) fun t =>
        P (.check t f) := by
  rw [Derives, Model.formulaEquation, exists_edge_spread, over_map]

theorem derives_junction {q : Quantifier} {fs : List Formula} :
    Derives l reading d kind verdict P s (.junction q fs) ↔
      (kind.seeks q).Over fs fun f => P (.check s f) := by
  rw [Derives, Model.formulaEquation, exists_edge_spread, over_map]

theorem formulaEquation_same {x : String} :
    (l.modelBy reading d).formulaEquation kind verdict s (.fix kind x f) =
      (l.modelBy reading d).formulaEquation kind verdict s f := by
  rw [Model.formulaEquation, if_pos rfl]

theorem derives_other {k : Extremum} {x : String} (hk : k ≠ kind) :
    Derives l reading d kind verdict P s (.fix k x f) ↔ verdict s (.fix k x f) = true := by
  rw [Derives, Model.formulaEquation, if_neg hk, exists_edge_settled]

theorem satisfied_check_iff :
    Satisfied ((l.modelBy reading d).queryEquations kind verdict) (.check s f) ↔
      Derives l reading d kind verdict
        (Satisfied ((l.modelBy reading d).queryEquations kind verdict)) s f :=
  satisfied_iff

/-- The definition of a name is checked like any other formula. -/
theorem satisfied_definition_iff {x : String} :
    Satisfied ((l.modelBy reading d).queryEquations kind verdict) (.definition s x f) ↔
      Satisfied ((l.modelBy reading d).queryEquations kind verdict) (.check s f) := by
  rw [satisfied_check_iff]
  exact satisfied_iff

/-- The verdicts on fixpoints of the other kind are right. -/
def Judges (l : Lts) (reading : Strength → Strength) (kind : Extremum) (top : Formula)
    (v : Valuation) (verdict : StateId → Formula → Bool) : Prop :=
  ∀ s k x f, s < l.stateCount → k ≠ kind → Formula.Within kind top (.fix k x f) →
    (verdict s (.fix k x f) = true ↔ kind.Sought ((Formula.fix k x f).Holds (l.movesBy reading) v s))

/-- What a query finds out in the given valuation. -/
def Query.Meant (l : Lts) (reading : Strength → Strength) (kind : Extremum) (top : Formula)
    (v : Valuation) : Query → Prop
  | .verdict _ => True
  | .check s f => s < l.stateCount → Formula.Within kind top f →
      kind.Sought (f.Holds (l.movesBy reading) v s)
  | .definition s _ f => s < l.stateCount → Formula.Within kind top f →
      kind.Sought (f.Holds (l.movesBy reading) v s)

theorem sought_of_derives (hl : l.InRange) (hd : d.Ordered) (htop : top.Scoped d)
    (hclosed : top.IsClosed) (hjudges : Judges l reading kind top v verdict)
    (hs : s < l.stateCount) (hf : Formula.Within kind top f)
    (h : Derives l reading d kind verdict
      (Query.Meant l reading kind top (d.valuation (l.movesBy reading) v)) s f) :
    kind.Sought (f.Holds (l.movesBy reading) (d.valuation (l.movesBy reading) v) s) := by
  induction f using Formula.induct with
  | const value => exact derives_const.mp h
  | var x =>
    obtain ⟨g, hg, hwithin⟩ := hf.find?_of_mentions htop hclosed (y := x) (by
      simp [Formula.mentions])
    have hmeant := (derives_var hg).mp h hs hwithin
    exact (sought_congr (hd.valuation_iff hg)).mpr hmeant
  | modal q strength a f _ =>
    rw [holds_modal_iff (d := d) hl hs, sought_over]
    refine (derives_modal.mp h).imp fun t ht hmeant => ?_
    obtain ⟨b, step, -⟩ := (mem_targets hl hs).mp ht
    exact hmeant (step.lt hl hs) hf.modal
  | junction q fs _ =>
    rw [Formula.holds_junction_iff, sought_over]
    exact (derives_junction.mp h).imp fun g hg hmeant => hmeant hs (hf.part hg)
  | fix k x f ih =>
    by_cases hk : k = kind
    · subst hk
      have hx : d.find? x = some (.fix k x f) := by
        cases hf.inScope htop with
        | fix hx _ _ => exact hx
      have hvalue : d.valuation (l.movesBy reading) v x =
          (Formula.fix k x f).Holds (l.movesBy reading) (d.valuation (l.movesBy reading) v) :=
        funext fun t => propext (hd.valuation_iff hx)
      rw [Derives, formulaEquation_same] at h
      rw [Formula.holds_fix_iff, ← hvalue, Valuation.set_self]
      exact ih hf.body h
    · have hnested := (hjudges s k x f hs hk hf).mp ((derives_other hk).mp h)
      exact (sought_congr ((hf.isClosed htop hclosed hk).holds_iff _ _)).mp hnested

/-- The queries that mean what is sought solve the equations, so they include the least solution. -/
theorem Query.meant_of_satisfied (hl : l.InRange) (hd : d.Ordered) (htop : top.Scoped d)
    (hclosed : top.IsClosed) (hjudges : Judges l reading kind top v verdict) {r : Query}
    (h : Satisfied ((l.modelBy reading d).queryEquations kind verdict) r) :
    r.Meant l reading kind top (d.valuation (l.movesBy reading) v) := by
  refine h.least fun r edge hedge hmeant => ?_
  cases r with
  | verdict value => exact trivial
  | check t f =>
    intro ht hf
    exact sought_of_derives hl hd htop hclosed hjudges ht hf ⟨edge, hedge, hmeant⟩
  | definition t x f =>
    intro ht hf
    exact sought_of_derives hl hd htop hclosed hjudges ht hf ⟨edge, hedge, hmeant⟩

/-- The sets that the satisfied definitions amount to. -/
def solution (l : Lts) (reading : Strength → Strength) (d : Definitions) (kind : Extremum)
    (verdict : StateId → Formula → Bool) : Valuation := fun x t =>
  kind.Sought (t < l.stateCount → ∀ F, d.find? x = some F →
    Satisfied ((l.modelBy reading d).queryEquations kind verdict) (.definition t x F))

/-- A set closed under the body, in the sense sought, contains the fixpoint. -/
theorem Formula.sought_of_fix {moves : Strength → Moves} {x : String} {Q : StateId → Prop}
    (hQ : ∀ t, kind.Sought (f.Holds moves (v.set x Q) t) → kind.Sought (Q t))
    (h : kind.Sought ((fix kind x f).Holds moves v s)) : kind.Sought (Q s) := by
  cases kind with
  | least => exact h Q hQ
  | greatest => exact fun hs => h ⟨Q, fun t ht => not_not.mp fun hf => hQ t hf ht, hs⟩

theorem satisfied_of_sought (hl : l.InRange) (htop : top.Scoped d) (hclosed : top.IsClosed)
    (hjudges : Judges l reading kind top v verdict) (hs : s < l.stateCount)
    (hf : Formula.Within kind top f)
    (h : kind.Sought (f.Holds (l.movesBy reading) (solution l reading d kind verdict) s)) :
    Satisfied ((l.modelBy reading d).queryEquations kind verdict) (.check s f) := by
  induction f using Formula.induct generalizing s with
  | const value => exact satisfied_check_iff.mpr (derives_const.mpr h)
  | var x =>
    obtain ⟨g, hg, -⟩ := hf.find?_of_mentions htop hclosed (y := x) (by simp [Formula.mentions])
    exact satisfied_check_iff.mpr ((derives_var hg).mpr (sought_sought.mp h hs _ hg))
  | modal q strength a f ih =>
    rw [holds_modal_iff (d := d) hl hs, sought_over] at h
    refine satisfied_check_iff.mpr (derives_modal.mpr (h.imp fun t ht hsought => ?_))
    obtain ⟨b, step, -⟩ := (mem_targets hl hs).mp ht
    exact ih (step.lt hl hs) hf.modal hsought
  | junction q fs ih =>
    rw [Formula.holds_junction_iff, sought_over] at h
    exact satisfied_check_iff.mpr (derives_junction.mpr (h.imp fun g hg =>
      ih g hg hs (hf.part hg)))
  | fix k x f ih =>
    by_cases hk : k = kind
    · subst hk
      have hx : d.find? x = some (.fix k x f) := by
        cases hf.inScope htop with
        | fix hx _ _ => exact hx
      have hsame : ∀ t, Satisfied ((l.modelBy reading d).queryEquations k verdict) (.check t f) →
          Satisfied ((l.modelBy reading d).queryEquations k verdict)
            (.definition t x (.fix k x f)) := by
        intro t ht
        obtain ⟨edge, hedge, hsat⟩ := satisfied_check_iff.mp ht
        rw [← formulaEquation_same] at hedge
        exact .intro hedge hsat
      -- the set of `x` in the solution is closed under the body
      have hfix := Formula.sought_of_fix (Q := solution l reading d k verdict x) ?_ h
      · exact satisfied_definition_iff.mp (sought_sought.mp hfix hs _ hx)
      · intro t ht
        rw [Valuation.set_self] at ht
        refine sought_sought.mpr fun htlt F hF => ?_
        obtain rfl := Option.some.inj (hx.symm.trans hF)
        exact hsame t (ih htlt hf.body ht)
    · refine satisfied_check_iff.mpr ((derives_other hk).mpr ?_)
      refine (hjudges s k x f hs hk hf).mpr ?_
      exact (sought_congr ((hf.isClosed htop hclosed hk).holds_iff _ _)).mp h

/-- The more of the names is sought, the more of the formula is. -/
theorem Formula.sought_mono {moves : Strength → Moves} {w : Valuation}
    (hvw : ∀ y, f.mentions y = true → ∀ t, kind.Sought (v y t) → kind.Sought (w y t))
    (h : kind.Sought (f.Holds moves v s)) : kind.Sought (f.Holds moves w s) := by
  cases kind with
  | least => exact Holds.mono hvw h
  | greatest => exact fun hw => h (hw.mono fun y hy t => not_imp_not.mp (hvw y hy t))

/-- The solution has in it what the definitions of the names mentioned denote. -/
theorem Formula.Within.sought_solution (hl : l.InRange) (hd : d.Ordered) (htop : top.Scoped d)
    (hclosed : top.IsClosed) (hjudges : Judges l reading kind top v verdict)
    (hf : Formula.Within kind top f) {y : String} (hy : f.mentions y = true) {t : StateId}
    (h : kind.Sought (d.valuation (l.movesBy reading) v y t)) :
    kind.Sought (solution l reading d kind verdict y t) := by
  -- along the way to the part, where each fixpoint brings in the name it binds
  induction hf generalizing y t with
  | top => simp [hclosed y] at hy
  | modal _ ih => exact ih hy h
  | part _ hpart ih => exact ih (mentionsAny_iff.mpr ⟨_, hpart, hy⟩) h
  | @body x f hfix ih =>
    by_cases hyx : y = x
    · subst hyx
      have hx : d.find? y = some (.fix kind y f) := by
        cases hfix.inScope htop with
        | fix hx _ _ => exact hx
      refine sought_sought.mpr fun ht F hF => ?_
      obtain rfl := Option.some.inj (hx.symm.trans hF)
      apply satisfied_definition_iff.mpr
      apply satisfied_of_sought hl htop hclosed hjudges ht hfix
      exact Formula.sought_mono (fun z hz u => ih hz) ((sought_congr (hd.valuation_iff hx)).mp h)
    · exact ih (mentions_fix.mpr ⟨hyx, hy⟩) h

/-- A query finds out what its formula means, with every name standing for its definition. -/
theorem satisfied_iff_sought (hl : l.InRange) (hd : d.Ordered) (htop : top.Scoped d)
    (hclosed : top.IsClosed) (hjudges : Judges l reading kind top v verdict)
    (hs : s < l.stateCount) (hf : Formula.Within kind top f) :
    Satisfied ((l.modelBy reading d).queryEquations kind verdict) (.check s f) ↔
      kind.Sought (f.Holds (l.movesBy reading) (d.valuation (l.movesBy reading) v) s) := by
  constructor
  · intro h
    exact Query.meant_of_satisfied hl hd htop hclosed hjudges h hs hf
  · intro h
    apply satisfied_of_sought hl htop hclosed hjudges hs hf
    exact Formula.sought_mono (fun y hy t => hf.sought_solution hl hd htop hclosed hjudges hy) h

theorem satisfied_top_iff (hl : l.InRange) (hd : d.Ordered) (htop : top.Scoped d)
    (hclosed : top.IsClosed) (hjudges : Judges l reading kind top v verdict)
    (hs : s < l.stateCount) :
    Satisfied ((l.modelBy reading d).queryEquations kind verdict) (.check s top) ↔
      kind.Sought (top.Holds (l.movesBy reading) v s) :=
  (satisfied_iff_sought hl hd htop hclosed hjudges hs .top).trans
    (sought_congr (hclosed.holds_iff _ _))

open scoped Classical in
/-- The right verdicts. -/
noncomputable def meaning (l : Lts) (reading : Strength → Strength) (kind : Extremum)
    (v : Valuation) (s : StateId) (f : Formula) : Bool :=
  decide (kind.Sought (f.Holds (l.movesBy reading) v s))

theorem meaning_iff : meaning l reading kind v s f = true ↔
    kind.Sought (f.Holds (l.movesBy reading) v s) := by
  simp [meaning]

theorem search_value (hl : l.InRange) (hd : d.Ordered) (htop : top.Scoped d)
    (hclosed : top.IsClosed) (hs : s < l.stateCount)
    (hsettle : Settles l kind top (meaning l reading kind v) settle) :
    ∃ u m, (solve ((l.modelBy reading d).unfoldWith kind settle s top) root).value = .ok (u, m) ∧
      (m.holds root = true ↔ kind.Sought (top.Holds (l.movesBy reading) v s)) := by
  let P := Unfolding.presentation
    (queryTheory reading (meaning l reading kind v) hl htop hclosed hsettle s)
  have hlawful : P.Lawful ((l.modelBy reading d).unfoldWith kind settle s top) :=
    ⟨rfl, faithful_firstNodes hl htop hclosed hsettle hs⟩
  have hname : P.name ((l.modelBy reading d).unfoldWith kind settle s top) root =
      some (.check s top) := rfl
  have hjudges : Judges l reading kind top v (meaning l reading kind v) :=
    fun _ _ _ _ _ _ _ => meaning_iff
  obtain ⟨u, m, hvalue, -, hiff, -⟩ := solve_value P hlawful hname
  refine ⟨u, m, hvalue, ?_⟩
  rw [Marking.holds_iff, hiff]
  exact satisfied_top_iff hl hd htop hclosed hjudges hs

theorem Extremum.eq_dual_of_ne {k : Extremum} (h : k ≠ kind) : k = kind.dual := by
  cases k <;> cases kind <;> first | rfl | exact absurd rfl h

/-- Enough depth settles a fixpoint of the other kind: what is nested in it is smaller. -/
theorem settle_value (hl : l.InRange) (hd : d.Ordered) {depth : Nat} {k : Extremum} {x : String}
    (hk : k ≠ kind) (hs : s < l.stateCount) (hf : (Formula.fix k x f).Scoped d)
    (hclosed : (Formula.fix k x f).IsClosed) (hsize : (Formula.fix k x f).size ≤ depth) :
    ((l.modelBy reading d).settle depth kind s (.fix k x f)).value =
      .ok (settled (meaning l reading kind v s (.fix k x f))) := by
  induction depth generalizing kind k x f s with
  | zero =>
    have hpos := (Formula.fix k x f).one_le_size
    omega
  | succ depth ih =>
    obtain rfl := Extremum.eq_dual_of_ne hk
    -- inside the nested search the kinds swap, and what it settles is strictly smaller
    have hsettle : Settles l kind.dual (.fix kind.dual x f) (meaning l reading kind.dual v)
        ((l.modelBy reading d).settle depth kind.dual) := by
      intro t k y g ht hk hwithin
      refine ih hk ht (hwithin.inScope hf) (hwithin.isClosed hf hclosed hk) ?_
      rcases hwithin.eq_or_size_lt with heq | hlt
      · cases heq
        exact absurd rfl hk
      · omega
    obtain ⟨u, m, hvalue, hiff⟩ := search_value hl hd hf hclosed hs hsettle
    have hverdict : (!m.holds root) = meaning l reading kind v s (.fix kind.dual x f) := by
      rw [Bool.eq_iff_iff, Bool.not_eq_true', ← Bool.not_eq_true, hiff, sought_dual, not_not,
        meaning_iff]
    rw [Model.settle, Run.value_bind_of_ok hvalue, ← hverdict]
    rfl

/-- The search for an accepted formula settles all fixpoints of the other kind. -/
theorem settles_depth (hl : l.InRange) (hf : f.definitions = .ok d)
    (reading : Strength → Strength) (kind : Extremum) (v : Valuation) :
    Settles l kind f (meaning l reading kind v)
      ((l.modelBy reading d).settle ((l.modelBy reading d).depth f) kind) := by
  obtain ⟨hd, hscoped, hclosed⟩ := Formula.definitions_spec hf
  intro t k x g ht hk hwithin
  refine settle_value hl hd hk ht (hwithin.inScope hscoped)
    (hwithin.isClosed hscoped hclosed hk) ?_
  have hsize := hwithin.size_le
  unfold Model.depth
  omega

open scoped Classical in
/-- The search for a formula ends, and finds out whether the state satisfies it. -/
theorem satisfies_value (hl : l.InRange) (hf : f.definitions = .ok d) (hs : s < l.stateCount)
    (reading : Strength → Strength) (v : Valuation) :
    ((l.modelBy reading d).satisfies s f).value =
      .ok (decide (f.Holds (l.movesBy reading) v s)) := by
  obtain ⟨hd, hscoped, hclosed⟩ := Formula.definitions_spec hf
  obtain ⟨u, m, hvalue, hiff⟩ := search_value hl hd hscoped hclosed hs
    (settles_depth hl hf reading .least v)
  have hverdict : m.holds root = decide (f.Holds (l.movesBy reading) v s) := by
    rw [Bool.eq_iff_iff, decide_eq_true_iff]
    exact hiff
  rw [Model.satisfies, Model.unfold, Run.value_bind_of_ok hvalue, ← hverdict]
  rfl

open scoped Classical in
theorem check_value (hl : l.InRange) (hf : f.definitions = .ok d) (hs : s < l.stateCount)
    (v : Valuation) : (l.check s f).value = .ok (.ok (decide (f.Holds l.Move v s))) := by
  have hmodel : ((l.model d).satisfies s f).value = .ok (decide (f.Holds l.Move v s)) :=
    satisfies_value hl hf hs id v
  simp only [Lts.check, hf, Run.value_withFirstSaturations]
  rw [Run.value_bind_of_ok hmodel]
  rfl

/-- Checking an accepted formula ends with the verdict that its meaning gives. -/
theorem check_decides (hl : l.InRange) (hf : f.definitions = .ok d) (hs : s < l.stateCount)
    (v : Valuation) :
    ∃ verdict, (l.check s f).value = .ok (.ok verdict) ∧
      (verdict = true ↔ f.Holds l.Move v s) := by
  classical
  exact ⟨_, check_value hl hf hs v, decide_eq_true_iff⟩

end

/-- Internal moves lead to a state that can do `a`. -/
def ready : Formula :=
  .fix .least "Y" (.junction .any [.modal .any .strong (.label "a") (.const true),
    .modal .any .strong (.label tau) (.var "Y")])

def alwaysReady : Formula :=
  .fix .greatest "X" (.junction .all [ready, .modal .all .weak .every (.var "X")])

theorem check_decides_alwaysReady :
    Lts.hesitant.InRange ∧ alwaysReady.definitions = .ok [("X", alwaysReady), ("Y", ready)] ∧
      0 < Lts.hesitant.stateCount ∧
      ∃ verdict, (Lts.hesitant.check 0 alwaysReady).value = .ok (.ok verdict) ∧
        (verdict = true ↔ alwaysReady.Holds Lts.hesitant.Move (fun _ _ => False) 0) :=
  ⟨by decide, rfl, by decide, check_decides (by decide) rfl (by decide) _⟩

end ProcessLogic
