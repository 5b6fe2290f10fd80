import Mathlib
import ProcessLogic.Formula.Semantics

/-!
# Monotonicity and unfolding

The meaning of a formula is monotone in the sets of its free names, and depends on nothing else. So
a fixpoint has the meaning of its body with the fixpoint put in for the name it binds.
-/

set_option autoImplicit false

namespace ProcessLogic

namespace Valuation

variable {v : Valuation} {x y : String} {P : StateId → Prop}

@[simp] theorem set_same : v.set x P x = P := if_pos rfl

theorem set_other (h : y ≠ x) : v.set x P y = v y := if_neg h

@[simp] theorem set_self : v.set x (v x) = v := by
  funext y
  by_cases h : y = x
  · rw [h, set_same]
  · exact set_other h

end Valuation

namespace Formula

variable {moves : Strength → Moves} {f : Formula} {fs : List Formula} {v w : Valuation}
  {x : String} {s : StateId}

@[elab_as_elim] theorem induct {motive : Formula → Prop} (const : ∀ value, motive (.const value))
    (var : ∀ x, motive (.var x))
    (modal : ∀ q strength a f, motive f → motive (.modal q strength a f))
    (junction : ∀ q fs, (∀ f ∈ fs, motive f) → motive (.junction q fs))
    (fix : ∀ kind x f, motive f → motive (.fix kind x f)) (f : Formula) : motive f := by
  refine @Formula.rec motive (fun fs => ∀ f ∈ fs, motive f) const var modal junction fix ?_ ?_ f
  · simp
  · intro f fs hf hfs g hg
    rcases List.mem_cons.mp hg with rfl | hg
    · exact hf
    · exact hfs g hg

theorem mentionsAny_iff : mentionsAny x fs = true ↔ ∃ f ∈ fs, f.mentions x = true := by
  induction fs with
  | nil => simp [mentionsAny]
  | cons f fs ih => simp [mentionsAny, ih]

theorem mentions_fix {kind : Extremum} {y : String} :
    (fix kind x f).mentions y = true ↔ y ≠ x ∧ f.mentions y = true := by
  simp [mentions]

/-- No name occurs free. -/
def IsClosed (f : Formula) : Prop := ∀ x, f.mentions x = false

/-- Every set of the first valuation that the formula mentions is contained in that of the second. -/
def Below (f : Formula) (v w : Valuation) : Prop := ∀ x, f.mentions x = true → ∀ s, v x s → w x s

theorem Below.body {kind : Extremum} (h : Below (.fix kind x f) v w) (P : StateId → Prop) :
    f.Below (v.set x P) (w.set x P) := by
  intro y hy t ht
  by_cases hyx : y = x
  · rw [hyx, Valuation.set_same] at ht ⊢
    exact ht
  · rw [Valuation.set_other hyx] at ht ⊢
    exact h y (mentions_fix.mpr ⟨hyx, hy⟩) t ht

theorem Holds.mono (hvw : f.Below v w) (h : f.Holds moves v s) : f.Holds moves w s := by
  induction f using Formula.induct generalizing v w s with
  | const value => exact h
  | var y => exact hvw y (by simp [mentions]) s h
  | modal q strength a f ih =>
    cases q with
    | any =>
      obtain ⟨b, t, step, hab, ht⟩ := h
      exact ⟨b, t, step, hab, ih hvw ht⟩
    | all => exact fun b t step hab => ih hvw (h b t step hab)
  | junction q fs ih =>
    have hpart : ∀ f ∈ fs, f.Below v w := fun f hf y hy =>
      hvw y (mentionsAny_iff.mpr ⟨f, hf, hy⟩)
    cases q with
    | any =>
      obtain ⟨f, hf, hs⟩ := holdsAny_iff.mp h
      exact holdsAny_iff.mpr ⟨f, hf, ih f hf (hpart f hf) hs⟩
    | all => exact holdsAll_iff.mpr fun f hf => ih f hf (hpart f hf) (holdsAll_iff.mp h f hf)
  | fix kind x f ih =>
    -- both sides range over the same candidate sets, so only the body has to be compared
    cases kind with
    | least => exact fun P hP => h P fun t ht => hP t (ih (hvw.body P) ht)
    | greatest =>
      obtain ⟨P, hP, hs⟩ := h
      exact ⟨P, fun t ht => ih (hvw.body P) (hP t ht), hs⟩

theorem holds_congr (hvw : ∀ x, f.mentions x = true → ∀ s, v x s ↔ w x s) :
    f.Holds moves v s ↔ f.Holds moves w s :=
  ⟨Holds.mono fun x hx t => (hvw x hx t).mp, Holds.mono fun x hx t => (hvw x hx t).mpr⟩

theorem IsClosed.holds_iff (h : f.IsClosed) (v w : Valuation) :
    f.Holds moves v s ↔ f.Holds moves w s :=
  holds_congr fun x hx => by simp [h x] at hx

theorem Holds.mono_set {P Q : StateId → Prop} (hPQ : ∀ t, P t → Q t)
    (h : f.Holds moves (v.set x P) s) : f.Holds moves (v.set x Q) s := by
  refine h.mono fun y _ t ht => ?_
  by_cases hyx : y = x
  · rw [hyx, Valuation.set_same] at ht ⊢
    exact hPQ t ht
  · rw [Valuation.set_other hyx] at ht ⊢
    exact ht

/-- A least fixpoint contains what its body makes of it. -/
theorem holds_least_of_body
    (h : f.Holds moves (v.set x ((fix .least x f).Holds moves v)) s) :
    (fix .least x f).Holds moves v s :=
  fun P hP => hP s (h.mono_set fun _ ht => ht P hP)

/-- A greatest fixpoint is contained in what its body makes of it. -/
theorem body_of_holds_greatest (h : (fix .greatest x f).Holds moves v s) :
    f.Holds moves (v.set x ((fix .greatest x f).Holds moves v)) s := by
  obtain ⟨P, hP, hs⟩ := h
  exact (hP s hs).mono_set fun t ht => ⟨P, hP, ht⟩

theorem holds_fix_iff {kind : Extremum} : (fix kind x f).Holds moves v s ↔
    f.Holds moves (v.set x ((fix kind x f).Holds moves v)) s := by
  cases kind with
  | least =>
    refine ⟨fun h => ?_, holds_least_of_body⟩
    exact h _ fun t ht => ht.mono_set fun u hu => holds_least_of_body hu
  | greatest =>
    refine ⟨body_of_holds_greatest, fun h => ?_⟩
    exact ⟨_, fun t ht => ht.mono_set fun u hu => body_of_holds_greatest hu, h⟩

end Formula

end ProcessLogic
