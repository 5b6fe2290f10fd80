import ProcessLogic.Proofs.Formula.Reading
import ProcessLogic.Proofs.Formula.Semantics

/-!
# The meaning of printed formulas

The text of every formula with proper names can be read. It means what the formula means, unless a
modality stands before several conjuncts without parentheses and so loses all but the first.
-/

set_option autoImplicit false

namespace ProcessLogic

/-- A label, if there is one, is made of ASCII characters. -/
def Act.IsAscii : Act → Prop
  | .every => True
  | .label l | .except l => ∀ c ∈ l.toList, c.toNat < 128

theorem Act.IsAscii.not_garbled {a : Act} (h : a.IsAscii) : ¬ a.Garbled := by
  cases a with
  | label l =>
    rintro ⟨-, c, s, hl, hc⟩
    have := h c (by simp [hl])
    omega
  | every => exact id
  | except l => exact id

namespace Formula

open Grammar

variable {f g : Formula} {fs : List Formula} {moves : Strength → Moves} {v : Valuation}
  {s : StateId}

/-- Behind a modality the formula prints as several conjuncts without parentheses: a conjunction as
the only part of a disjunction, perhaps inside further junctions of one part or behind further
modalities. -/
inductive Bare : Formula → Prop where
  | disjunct (f g : Formula) (fs : List Formula) :
    Bare (.junction .any [.junction .all (f :: g :: fs)])
  | single (q : Quantifier) {f : Formula} (h : Bare f) : Bare (.junction q [f])
  | modal (q : Quantifier) (strength : Strength) (a : Act) {f : Formula} (h : Bare f) :
    Bare (.modal q strength a f)

theorem conjuncts_ne_nil (f : Formula) (context : Binding) : f.conjuncts context ≠ [] := by
  induction f using Formula.induct generalizing context with
  | const value => simp [conjuncts]
  | var x => simp [conjuncts]
  | modal q strength a f ih => simp [conjuncts, ih]
  | junction q fs ih =>
    rcases fs with _ | ⟨f, _ | ⟨g, fs⟩⟩
    · simp [conjuncts]
    · rw [conjuncts]
      exact ih f (by simp) q.binding
    · cases q with
      | any => simp [conjuncts]
      | all =>
        have hf := ih f (by simp) .and
        rw [conjuncts]
        split <;> simp [hf]
  | fix k x f ih => simp [conjuncts]

theorem Bare.exists_cons_cons (h : f.Bare) (context : Binding) :
    ∃ c d cs, f.conjuncts context = c :: d :: cs := by
  induction h generalizing context with
  | disjunct f g fs =>
    obtain ⟨c, cs, hc⟩ := List.exists_cons_of_ne_nil (conjuncts_ne_nil f .and)
    obtain ⟨d, ds, hd⟩ := List.exists_cons_of_ne_nil (conjuncts_ne_nil g .and)
    rw [conjuncts, Quantifier.binding, conjuncts_all_of_lt (by decide), List.flatMap_cons,
      List.flatMap_cons, hc, hd]
    cases cs with
    | nil => exact ⟨c, d, _, rfl⟩
    | cons e cs => exact ⟨c, e, _, rfl⟩
  | single q h ih =>
    rw [conjuncts]
    exact ih q.binding
  | modal q strength a h ih =>
    obtain ⟨c, d, cs, hconjuncts⟩ := ih .modal
    exact ⟨_, d, cs, by rw [conjuncts, hconjuncts]; rfl⟩

/-- Only a conjunction is printed differently among disjuncts and among conjuncts. -/
theorem conjuncts_or (hall : ∀ g h fs, f ≠ .junction .all (g :: h :: fs)) :
    f.conjuncts .or = f.conjuncts .modal := by
  cases f with
  | junction q fs =>
    rcases fs with _ | ⟨f, _ | ⟨g, fs⟩⟩
    · simp [conjuncts]
    · simp [conjuncts]
    · cases q with
      | any => simp [conjuncts]
      | all => exact absurd rfl (hall f g fs)
  | _ => simp [conjuncts]

theorem conjuncts_of_not_bare (h : ¬ f.Bare) : ∃ c, f.conjuncts .modal = [c] := by
  induction f using Formula.induct with
  | const value => exact ⟨_, by rw [conjuncts]⟩
  | var x => exact ⟨_, by rw [conjuncts]⟩
  | modal q strength a f ih =>
    obtain ⟨c, hc⟩ := ih fun hf => h (.modal q strength a hf)
    exact ⟨.modal q strength a c, by rw [conjuncts, hc]; rfl⟩
  | junction q fs ih =>
    rcases fs with _ | ⟨f, _ | ⟨g, fs⟩⟩
    · exact ⟨_, by rw [conjuncts]⟩
    · have hbody := ih f (by simp) fun hf => h (.single q hf)
      cases q with
      | all => rwa [conjuncts, Quantifier.binding, conjuncts_and]
      | any =>
        have hall : ∀ g h fs, f ≠ .junction .all (g :: h :: fs) := by
          rintro g g' fs rfl
          exact h (.disjunct g g' fs)
        rwa [conjuncts, Quantifier.binding, conjuncts_or hall]
    · cases q with
      | any => exact ⟨_, conjuncts_any .modal f g fs⟩
      | all => exact ⟨_, conjuncts_all_of_le (by decide) f g fs⟩
  | fix k x f ih => exact ⟨_, by rw [conjuncts]⟩

theorem holds_modal_congr (q : Quantifier) (strength : Strength) (a : Act)
    (h : ∀ s, f.Holds moves v s ↔ g.Holds moves v s) :
    (modal q strength a f).Holds moves v s ↔ (modal q strength a g).Holds moves v s := by
  cases q <;> simp [Holds, h]

theorem holds_fix_congr (k : Extremum) (x : String)
    (h : ∀ v s, f.Holds moves v s ↔ g.Holds moves v s) :
    (fix k x f).Holds moves v s ↔ (fix k x g).Holds moves v s := by
  cases k <;> simp [Holds, h]

theorem holdsAny_map {k : Formula → Formula}
    (h : ∀ f ∈ fs, (k f).Holds moves v s ↔ f.Holds moves v s) :
    HoldsAny moves (fs.map k) v s ↔ HoldsAny moves fs v s := by
  simp only [holdsAny_iff, List.mem_map, exists_exists_and_eq_and]
  exact exists_congr fun f => and_congr_right fun hf => h f hf

theorem holdsAll_flatMap {k : Formula → List Formula}
    (h : ∀ f ∈ fs, HoldsAll moves (k f) v s ↔ f.Holds moves v s) :
    HoldsAll moves (fs.flatMap k) v s ↔ HoldsAll moves fs v s := by
  simp only [holdsAll_iff, List.mem_flatMap] at h ⊢
  constructor
  · intro hall f hf
    exact (h f hf).mp fun c hc => hall c ⟨f, hf, hc⟩
  · rintro hall c ⟨f, hf, hc⟩
    exact (h f hf).mpr (hall f hf) c hc

theorem holdsAll_conjuncts
    (h : ∀ q strength a b, .modal q strength a b ∈ f.subformulas → ¬ b.Bare)
    (context : Binding) (v : Valuation) (s : StateId) :
    HoldsAll moves (f.conjuncts context) v s ↔ f.Holds moves v s := by
  induction f using Formula.induct generalizing context v s with
  | const value => simp [conjuncts, HoldsAll]
  | var x => simp [conjuncts, HoldsAll]
  | modal q strength a f ih =>
    obtain ⟨c, hc⟩ := conjuncts_of_not_bare (h q strength a f (by simp [subformulas]))
    have hbody := ih (fun q strength a b hb => h q strength a b (by simp [subformulas, hb])) .modal
    simp only [hc, HoldsAll, and_true] at hbody
    simp only [conjuncts, hc, List.modifyHead_cons, HoldsAll, and_true]
    exact holds_modal_congr q strength a (hbody v)
  | junction q fs ih =>
    have hpart : ∀ f ∈ fs, ∀ context v s,
        HoldsAll moves (f.conjuncts context) v s ↔ f.Holds moves v s := by
      intro f hf context v s
      apply ih f hf
      intro q' strength a b hb
      apply h q' strength a b
      rw [subformulas]
      exact List.mem_cons_of_mem _ (mem_subformulasOf.mpr ⟨f, hf, hb⟩)
    rcases fs with _ | ⟨f, _ | ⟨g, fs⟩⟩
    · cases q <;> simp [conjuncts, HoldsAll, Holds, HoldsAny]
    · rw [conjuncts, hpart f (by simp)]
      cases q <;> simp [Holds, HoldsAny, HoldsAll]
    · cases q with
      | any =>
        have hreading : ∀ h ∈ f :: g :: fs, h.reading.Holds moves v s ↔ h.Holds moves v s :=
          fun h hh => (holds_join .all).trans (hpart h hh .or v s)
        rw [conjuncts_any]
        simpa [HoldsAll, Holds] using holdsAny_map hreading
      | all =>
        have hconjuncts := holdsAll_flatMap fun h hh => hpart h hh .and v s
        by_cases hlevel : Binding.and.level ≤ context.level
        · rw [conjuncts_all_of_le hlevel]
          simpa [HoldsAll, Holds] using hconjuncts
        · rw [conjuncts_all_of_lt (Nat.lt_of_not_le hlevel)]
          exact hconjuncts
  | fix k x f ih =>
    have hbody := ih fun q strength a b hb => h q strength a b (by simp [subformulas, hb])
    simp only [conjuncts, HoldsAll, and_true]
    exact holds_fix_congr k x fun v s => (holds_join .all).trans (hbody .or v s)

theorem Spelt.parse_text_eq {least : Nat} (h : f.Spelt Act.IsAscii least) :
    parse f.text = some f.reading :=
  (h.imp (fun _ => Act.IsAscii.not_garbled) (Nat.le_refl _)).readsAs.parse_eq

/-- A modality is read as one unless its body is bare. -/
theorem reading_modal_iff {q : Quantifier} {strength : Strength} {a : Act} :
    (∃ c, (modal q strength a f).reading = .modal q strength a c) ↔ ¬ f.Bare := by
  rw [reading, conjuncts]
  constructor
  · rintro ⟨c, hc⟩ hbare
    obtain ⟨d, e, cs, hconjuncts⟩ := hbare.exists_cons_cons .modal
    simp [hconjuncts, join] at hc
  · intro hbare
    obtain ⟨c, hc⟩ := conjuncts_of_not_bare hbare
    exact ⟨c, by rw [hc]; rfl⟩

/-- The text of every formula can be read. It keeps the meaning if no modality has a bare body, and
that is the case just when each modality, printed on its own, is read as one. -/
theorem parse_text_meaning (h : f.Spelt Act.IsAscii 0) :
    ∃ g, parse f.text = some g ∧
      ((∀ q strength a b, .modal q strength a b ∈ f.subformulas → ¬ b.Bare) →
        ∀ moves v s, g.Holds moves v s ↔ f.Holds moves v s) ∧
      ∀ q strength a b, .modal q strength a b ∈ f.subformulas →
        ((∃ c, parse (modal q strength a b).text = some (.modal q strength a c)) ↔ ¬ b.Bare) := by
  refine ⟨f.reading, h.parse_text_eq, ?_, ?_⟩
  · intro hbare moves v s
    exact (holds_join .all).trans (holdsAll_conjuncts hbare .or v s)
  · intro q strength a b hb
    rw [(h.of_mem_subformulas hb).parse_text_eq]
    simpa using reading_modal_iff

/-- Junctions of no part and of one, among conjuncts and behind a modality. -/
def lopsided : Formula :=
  .fix .greatest "X" (.junction .all [
    .junction .any [.junction .all [.var "X", .junction .all []]],
    .modal .any .weak (.except "true") (.junction .all [.junction .any [.const false, .var "Y"]])])

theorem parse_text_meaning_lopsided :
    lopsided.Spelt Act.IsAscii 0 ∧
      (∀ q strength a b, .modal q strength a b ∈ lopsided.subformulas → ¬ b.Bare) ∧
      ∃ g, parse lopsided.text = some g ∧
        ∀ moves v s, g.Holds moves v s ↔ lopsided.Holds moves v s := by
  have hspelt : lopsided.Spelt Act.IsAscii 0 := by
    have hX : (var "X").Spelt Act.IsAscii 0 := .var (by decide) (by decide)
    have hY : (var "Y").Spelt Act.IsAscii 0 := .var (by decide) (by decide)
    have hact : (Act.except "true").IsAscii := by simp [Act.IsAscii]
    have hjunction : ∀ q fs, (∀ f ∈ fs, f.Spelt Act.IsAscii 0) →
        (junction q fs).Spelt Act.IsAscii 0 := fun q fs => .junction q (Nat.zero_le _)
    apply Spelt.fix _ (by decide)
    apply hjunction
    intro f hf
    simp only [List.mem_cons, List.not_mem_nil, or_false] at hf
    rcases hf with rfl | rfl
    · apply hjunction
      simpa using hjunction .all _ (by simpa using ⟨hX, hjunction .all [] (by simp)⟩)
    · apply Spelt.modal _ _ hact
      apply hjunction
      simpa using hjunction .any _ (by simpa using ⟨.const false, hY⟩)
  have hbare : ∀ q strength a b, .modal q strength a b ∈ lopsided.subformulas → ¬ b.Bare := by
    intro q strength a b hb hbare
    simp only [lopsided, subformulas, subformulasOf, List.append_nil, List.cons_append,
      List.nil_append, List.mem_cons, reduceCtorEq, modal.injEq, List.not_mem_nil, or_self,
      or_false, false_or] at hb
    obtain ⟨-, -, -, rfl⟩ := hb
    obtain ⟨c, d, cs, h⟩ := hbare.exists_cons_cons .modal
    simp [conjuncts] at h
  obtain ⟨g, hparse, hmeaning, -⟩ := parse_text_meaning hspelt
  exact ⟨hspelt, hbare, g, hparse, hmeaning hbare⟩

/-- A box before a disjunction whose only part is a conjunction. -/
def leaky : Formula :=
  .modal .all .strong (.label "a") (.junction .any [.junction .all [.const true, .const false]])

/-- The box is read as the first of two conjuncts. Where there is no move the formula holds, and
what is read does not. -/
theorem leaky_misread :
    leaky.Spelt Act.IsAscii 0 ∧ ¬ ∃ g, parse leaky.text = some g ∧
      ∀ (l : Lts) v s, g.Holds l.Move v s ↔ leaky.Holds l.Move v s := by
  have hspelt : leaky.Spelt Act.IsAscii 0 := by
    have hact : (Act.label "a").IsAscii := by simp [Act.IsAscii]
    have hconst : ∀ f ∈ [const true, const false], f.Spelt Act.IsAscii 0 := by
      simpa using ⟨.const true, .const false⟩
    apply Spelt.modal _ _ hact
    apply Spelt.junction _ (Nat.zero_le _)
    simpa using Spelt.junction .all (Nat.zero_le _) hconst
  refine ⟨hspelt, ?_⟩
  rintro ⟨g, hparse, hmeaning⟩
  have hread : parse leaky.text =
      some (.junction .all [.modal .all .strong (.label "a") (.const true), .const false]) := by
    decide +kernel
  obtain rfl := Option.some.inj (hread.symm.trans hparse)
  have hholds : leaky.Holds (Lts.mk 0 #[[]]).Move (fun _ _ => False) 0 := by
    rintro b t ⟨row, hrow, ht⟩ hmatches
    obtain rfl : [] = row := Option.some.inj hrow
    exact absurd ht List.not_mem_nil
  have hlost := (hmeaning (Lts.mk 0 #[[]]) (fun _ _ => False) 0).mpr hholds
  simp [Holds, HoldsAll] at hlost

end Formula

end ProcessLogic
