import ProcessLogic.Formula.Definitions
import ProcessLogic.Proofs.Formula.Semantics

/-!
# What gathering guarantees

The definitions gathered from a formula come outermost first, so each depends on those before it
only. In a formula that is accepted every name has a definition, and all free names of a fixpoint
belong to fixpoints of its own kind.
-/

set_option autoImplicit false

namespace ProcessLogic

namespace Definitions

variable {d d' : Definitions} {x y : String} {F G : Formula}

theorem find?_mono (h : d <+: d') (hx : d.find? x = some F) : d'.find? x = some F := by
  obtain ⟨e, rfl⟩ := h
  rw [find?, List.lookup_append, show d.lookup x = some F from hx]
  rfl

theorem find?_snoc_self (hx : d.find? x = none) : find? (d ++ [(x, F)]) x = some F := by
  rw [find?, List.lookup_append, show d.lookup x = none from hx]
  simp

theorem find?_snoc (h : find? (d ++ [(x, F)]) y = some G) :
    d.find? y = some G ∨ (y = x ∧ F = G) := by
  rw [find?, List.lookup_append] at h
  rcases Option.or_eq_some_iff.mp h with h | ⟨-, h⟩
  · exact .inl h
  · rw [List.lookup_cons] at h
    split at h
    · next heq => exact .inr ⟨by simpa using heq, Option.some.inj h⟩
    · simp at h

theorem mem_of_find? (h : d.find? x = some F) : (x, F) ∈ d := by
  obtain ⟨before, after, rfl, -⟩ := List.lookup_eq_some_iff.mp h
  simp

/-- Each definition is a fixpoint under the name it binds, and mentions earlier names only. -/
inductive Ordered : Definitions → Prop where
  | nil : Ordered []
  | snoc {d : Definitions} {kind : Extremum} {x : String} {f : Formula} : Ordered d →
      d.find? x = none →
      (∀ y, (Formula.fix kind x f).mentions y = true → (d.find? y).isSome = true) →
      Ordered (d ++ [(x, .fix kind x f)])

theorem Ordered.find?_isSome (h : d.Ordered) (hx : d.find? x = some F)
    (hy : F.mentions y = true) : (d.find? y).isSome = true := by
  induction h generalizing x F with
  | nil => simp [find?] at hx
  | @snoc d kind z f _ hz hearlier ih =>
    have hdefined : (d.find? y).isSome = true := by
      rcases find?_snoc hx with hx | ⟨-, rfl⟩
      · exact ih hx hy
      · exact hearlier y hy
    obtain ⟨G, hG⟩ := Option.isSome_iff_exists.mp hdefined
    rw [find?_mono (List.prefix_append d _) hG]
    rfl

/-- The sets that the definitions denote, each in the sets of those before it. -/
def valuation (moves : Strength → Moves) (d : Definitions) (v : Valuation) : Valuation :=
  d.foldl (fun v p => v.set p.1 (p.2.Holds moves v)) v

theorem valuation_snoc (moves : Strength → Moves) (v : Valuation) :
    valuation moves (d ++ [(x, F)]) v =
      (d.valuation moves v).set x (F.Holds moves (d.valuation moves v)) := by
  simp [valuation, List.foldl_append]

/-- Later definitions do not change what a name denotes, so all definitions hold at once. -/
theorem Ordered.valuation_iff {moves : Strength → Moves} {v : Valuation} {s : StateId}
    (h : d.Ordered) (hx : d.find? x = some F) :
    d.valuation moves v x s ↔ F.Holds moves (d.valuation moves v) s := by
  induction h generalizing x F s with
  | nil => simp [find?] at hx
  | @snoc d kind z f hd hz hearlier ih =>
    rw [valuation_snoc]
    have hkeep : ∀ y, (d.find? y).isSome = true → ∀ t,
        d.valuation moves v y t ↔
          (d.valuation moves v).set z ((Formula.fix kind z f).Holds moves (d.valuation moves v))
            y t := by
      intro y hy t
      have hyz : y ≠ z := by
        rintro rfl
        simp [hz] at hy
      rw [Valuation.set_other hyz]
    rcases find?_snoc hx with hx | ⟨rfl, rfl⟩
    · rw [← hkeep x (Option.isSome_of_eq_some hx), ih hx]
      exact Formula.holds_congr fun y hy => hkeep y (hd.find?_isSome hx hy)
    · rw [Valuation.set_same]
      exact Formula.holds_congr fun y hy => hkeep y (hearlier y hy)

end Definitions

namespace Formula

/-- Every name has a definition, and the free names of a fixpoint have its kind. -/
inductive Scoped (d : Definitions) : Formula → Prop where
  | const (value : Bool) : Scoped d (.const value)
  | var {kind : Extremum} {x : String} {f : Formula} : d.find? x = some (.fix kind x f) →
      Scoped d (.var x)
  | modal {q : Quantifier} {strength : Strength} {a : Act} {f : Formula} : Scoped d f →
      Scoped d (.modal q strength a f)
  | junction {q : Quantifier} {fs : List Formula} : (∀ f ∈ fs, Scoped d f) →
      Scoped d (.junction q fs)
  | fix {kind : Extremum} {x : String} {f : Formula} : d.find? x = some (.fix kind x f) →
      (∀ y, f.mentions y = true → ∃ g, d.find? y = some (.fix kind y g)) → Scoped d f →
      Scoped d (.fix kind x f)

variable {d d' : Definitions} {scope : Scope} {f : Formula} {fs : List Formula} {x y : String}

theorem Scoped.mono (h : Scoped d f) (hd : d <+: d') : Scoped d' f := by
  induction h with
  | const value => exact .const value
  | var hx => exact .var (Definitions.find?_mono hd hx)
  | modal _ ih => exact .modal ih
  | junction _ ih => exact .junction ih
  | fix hx hfree _ ih =>
    refine .fix (Definitions.find?_mono hd hx) (fun y hy => ?_) ih
    obtain ⟨g, hg⟩ := hfree y hy
    exact ⟨g, Definitions.find?_mono hd hg⟩

theorem gatherAll_cons_eq_ok (h : gatherAll scope (f :: fs) d = .ok d') :
    ∃ d₁, f.gather scope d = .ok d₁ ∧ gatherAll scope fs d₁ = .ok d' := by
  rw [gatherAll] at h
  split at h
  · next d₁ hd₁ => exact ⟨d₁, hd₁, h⟩
  · simp at h

theorem gather_fix_eq_ok {kind : Extremum} (h : (fix kind x f).gather scope d = .ok d') :
    d.find? x = none ∧ scope.conflict? kind f = none ∧
      f.gather (scope ++ [(x, kind)]) (d ++ [(x, .fix kind x f)]) = .ok d' := by
  rw [gather] at h
  split at h
  · simp at h
  · next hx =>
    split at h
    · simp at h
    · next hconflict => exact ⟨by simpa using hx, hconflict, h⟩

/-- The free names of a formula are bound around it. -/
theorem mem_scope_of_mentions (h : f.gather scope d = .ok d') (hy : f.mentions y = true) :
    ∃ kind, (y, kind) ∈ scope := by
  induction f using Formula.induct generalizing scope d d' with
  | const value => simp [mentions] at hy
  | var x =>
    obtain rfl : y = x := by simpa [mentions] using hy
    rw [gather] at h
    split at h
    · next hx =>
      obtain ⟨⟨z, kind⟩, hmem, hz⟩ := List.any_eq_true.mp hx
      obtain rfl : z = y := by simpa using hz
      exact ⟨kind, hmem⟩
    · simp at h
  | modal q strength a f ih =>
    rw [gather] at h
    exact ih h hy
  | junction q fs ih =>
    rw [gather] at h
    obtain ⟨f, hf, hfy⟩ := mentionsAny_iff.mp hy
    clear hy
    induction fs generalizing d with
    | nil => simp at hf
    | cons g fs ihs =>
      obtain ⟨d₁, hg, hfs⟩ := gatherAll_cons_eq_ok h
      rcases List.mem_cons.mp hf with rfl | hf
      · exact ih f List.mem_cons_self hg hfy
      · exact ihs (fun f hf => ih f (List.mem_cons_of_mem g hf)) hfs hf
  | fix kind x f ih =>
    obtain ⟨-, -, hbody⟩ := gather_fix_eq_ok h
    obtain ⟨hyx, hy⟩ := mentions_fix.mp hy
    obtain ⟨k, hk⟩ := ih hbody hy
    rcases List.mem_append.mp hk with hk | hk
    · exact ⟨k, hk⟩
    · exact absurd (Prod.mk.inj (List.mem_singleton.mp hk)).1 hyx

/-- Every binder in scope has its definition. -/
def DefinesScope (d : Definitions) (scope : Scope) : Prop :=
  ∀ y kind, (y, kind) ∈ scope → ∃ g, d.find? y = some (.fix kind y g)

theorem DefinesScope.mono (h : DefinesScope d scope) (hd : d <+: d') : DefinesScope d' scope := by
  intro y kind hy
  obtain ⟨g, hg⟩ := h y kind hy
  exact ⟨g, Definitions.find?_mono hd hg⟩

theorem DefinesScope.snoc {kind : Extremum} (h : DefinesScope d scope)
    (hx : d.find? x = some (.fix kind x f)) : DefinesScope d (scope ++ [(x, kind)]) := by
  intro y k hy
  rcases List.mem_append.mp hy with hy | hy
  · exact h y k hy
  · obtain ⟨rfl, rfl⟩ := Prod.mk.inj (List.mem_singleton.mp hy)
    exact ⟨f, hx⟩

theorem kind_eq_of_conflict?_eq_none {kind k : Extremum} (h : scope.conflict? kind f = none)
    (hy : (y, k) ∈ scope) (hmentions : f.mentions y = true) : k = kind := by
  have hfind := List.find?_eq_none.mp (Option.map_eq_none_iff.mp h) (y, k) hy
  simpa [hmentions] using hfind

theorem DefinesScope.find?_of_mentions (hscope : DefinesScope d scope)
    (h : f.gather scope d = .ok d') (hy : f.mentions y = true) :
    ∃ kind g, (y, kind) ∈ scope ∧ d.find? y = some (.fix kind y g) := by
  obtain ⟨kind, hmem⟩ := mem_scope_of_mentions h hy
  obtain ⟨g, hg⟩ := hscope y kind hmem
  exact ⟨kind, g, hmem, hg⟩

/-- What a fixpoint's body mentions has the fixpoint's own kind once the binder is defined. -/
theorem DefinesScope.find?_of_mentions_body {kind : Extremum} (hscope : DefinesScope d scope)
    (h : (fix kind x f).gather scope d = .ok d') (hy : f.mentions y = true) :
    ∃ g, Definitions.find? (d ++ [(x, .fix kind x f)]) y = some (.fix kind y g) := by
  obtain ⟨hx, hconflict, -⟩ := gather_fix_eq_ok h
  by_cases hyx : y = x
  · subst hyx
    exact ⟨f, Definitions.find?_snoc_self hx⟩
  · obtain ⟨k, g, hmem, hg⟩ := hscope.find?_of_mentions h (mentions_fix.mpr ⟨hyx, hy⟩)
    rw [kind_eq_of_conflict?_eq_none hconflict hmem hy] at hg
    exact ⟨g, Definitions.find?_mono (List.prefix_append d _) hg⟩

/-- Collecting extends the definitions, keeps them in order, and puts the formula in scope. -/
def Gathers (f : Formula) : Prop :=
  ∀ ⦃scope d d'⦄, DefinesScope d scope → d.Ordered → f.gather scope d = .ok d' →
    d'.Ordered ∧ d <+: d' ∧ f.Scoped d'

theorem gathers_all {fs : List Formula} (ih : ∀ f ∈ fs, f.Gathers) (hscope : DefinesScope d scope)
    (hd : d.Ordered) (h : gatherAll scope fs d = .ok d') :
    d'.Ordered ∧ d <+: d' ∧ ∀ f ∈ fs, f.Scoped d' := by
  induction fs generalizing d with
  | nil =>
    obtain rfl := Except.ok.inj h
    exact ⟨hd, List.prefix_rfl, by simp⟩
  | cons g fs ihs =>
    obtain ⟨d₁, hg, hfs⟩ := gatherAll_cons_eq_ok h
    obtain ⟨hd₁, hprefix, hg⟩ := ih g List.mem_cons_self hscope hd hg
    obtain ⟨hd', hprefix', hfs⟩ := ihs (fun f hf => ih f (List.mem_cons_of_mem g hf))
      (hscope.mono hprefix) hd₁ hfs
    exact ⟨hd', hprefix.trans hprefix', List.forall_mem_cons.mpr ⟨hg.mono hprefix', hfs⟩⟩

theorem gathers_fix {kind : Extremum} (ih : f.Gathers) : (fix kind x f).Gathers := by
  intro scope d d' hscope hd h
  obtain ⟨hx, -, hbody⟩ := gather_fix_eq_ok h
  have hnew : Definitions.find? (d ++ [(x, .fix kind x f)]) x = some (.fix kind x f) :=
    Definitions.find?_snoc_self hx
  -- what the fixpoint mentions is bound around it, so it is defined before it
  have hearlier : ∀ y, (fix kind x f).mentions y = true → (d.find? y).isSome = true := by
    intro y hy
    obtain ⟨k, g, -, hg⟩ := hscope.find?_of_mentions h hy
    exact Option.isSome_of_eq_some hg
  obtain ⟨hd', hprefix, hf⟩ := ih ((hscope.mono (List.prefix_append d _)).snoc hnew)
    (hd.snoc hx hearlier) hbody
  refine ⟨hd', (List.prefix_append d _).trans hprefix,
    .fix (Definitions.find?_mono hprefix hnew) (fun y hy => ?_) hf⟩
  obtain ⟨g, hg⟩ := hscope.find?_of_mentions_body h hy
  exact ⟨g, Definitions.find?_mono hprefix hg⟩

theorem gathers (f : Formula) : f.Gathers := by
  induction f using Formula.induct with
  | const value =>
    intro scope d d' _ hd h
    obtain rfl := Except.ok.inj h
    exact ⟨hd, List.prefix_rfl, .const value⟩
  | var x =>
    intro scope d d' hscope hd h
    obtain ⟨kind, g, -, hg⟩ := hscope.find?_of_mentions h (y := x) (by simp [mentions])
    rw [gather] at h
    split at h
    · obtain rfl := Except.ok.inj h
      exact ⟨hd, List.prefix_rfl, .var hg⟩
    · simp at h
  | modal q strength a f ih =>
    intro scope d d' hscope hd h
    rw [gather] at h
    obtain ⟨hd', hprefix, hf⟩ := ih hscope hd h
    exact ⟨hd', hprefix, .modal hf⟩
  | junction q fs ih =>
    intro scope d d' hscope hd h
    rw [gather] at h
    obtain ⟨hd', hprefix, hfs⟩ := gathers_all ih hscope hd h
    exact ⟨hd', hprefix, .junction hfs⟩
  | fix kind x f ih => exact gathers_fix ih

/-- A formula that is accepted is closed and in scope of its own definitions. -/
theorem definitions_spec (h : f.definitions = .ok d) : d.Ordered ∧ f.Scoped d ∧ f.IsClosed := by
  have hscope : DefinesScope [] [] := by simp [DefinesScope]
  obtain ⟨hd, -, hf⟩ := f.gathers hscope .nil h
  refine ⟨hd, hf, fun x => ?_⟩
  by_contra hx
  obtain ⟨kind, hmem⟩ := mem_scope_of_mentions h (by simpa using hx)
  simp at hmem

end Formula

end ProcessLogic
