import ProcessLogic.Formula.Definitions
import ProcessLogic.Proofs.Formula.Semantics

/-!
# Weak formulas

A formula is weak if no strong modality occurs in it. Every formula has a weak form, in which all
modalities are weak. It is accepted whenever the formula is, and it says of the weak moves what the
formula says when each of its modalities reads them.
-/

set_option autoImplicit false

namespace ProcessLogic

namespace Formula

mutual

/-- Whether a modality of the given strength occurs. -/
def uses (strength : Strength) : Formula → Bool
  | .const _ | .var _ => false
  | .modal _ used _ f => used = strength || f.uses strength
  | .junction _ fs => usesAny strength fs
  | .fix _ _ f => f.uses strength

def usesAny (strength : Strength) : List Formula → Bool
  | [] => false
  | f :: fs => f.uses strength || usesAny strength fs

end

mutual

def weaken : Formula → Formula
  | .const value => .const value
  | .var x => .var x
  | .modal q _ a f => .modal q .weak a f.weaken
  | .junction q fs => .junction q (weakenAll fs)
  | .fix kind x f => .fix kind x f.weaken

def weakenAll : List Formula → List Formula
  | [] => []
  | f :: fs => f.weaken :: weakenAll fs

end

variable {moves : Strength → Moves} {f : Formula} {fs : List Formula} {v : Valuation} {s : StateId}
  {strength : Strength}

theorem usesAny_iff : usesAny strength fs = true ↔ ∃ f ∈ fs, f.uses strength = true := by
  induction fs with
  | nil => simp [usesAny]
  | cons f fs ih => simp [usesAny, ih]

theorem weakenAll_eq_map (fs : List Formula) : weakenAll fs = fs.map weaken := by
  induction fs with
  | nil => rfl
  | cons f fs ih => rw [weakenAll, ih, List.map_cons]

theorem uses_weaken (f : Formula) : f.weaken.uses .strong = false := by
  induction f using Formula.induct with
  | const value => rfl
  | var x => rfl
  | modal q strength a f ih => simpa [weaken, uses] using ih
  | junction q fs ih =>
    rw [weaken, uses, weakenAll_eq_map, ← Bool.not_eq_true, usesAny_iff]
    intro h
    obtain ⟨g, hg, huses⟩ := h
    obtain ⟨f, hf, rfl⟩ := List.mem_map.mp hg
    rw [ih f hf] at huses
    cases huses
  | fix kind x f ih => exact ih

theorem mentions_weaken (x : String) (f : Formula) : f.weaken.mentions x = f.mentions x := by
  induction f using Formula.induct with
  | const value => rfl
  | var y => rfl
  | modal q strength a f ih => exact ih
  | junction q fs ih =>
    rw [weaken, mentions, mentions, weakenAll_eq_map, Bool.eq_iff_iff, mentionsAny_iff,
      mentionsAny_iff]
    simp only [List.mem_map, exists_exists_and_eq_and]
    exact exists_congr fun f => and_congr_right fun hf => by rw [ih f hf]
  | fix kind y f ih => rw [weaken, mentions, mentions, ih]

/-- The weak form reads the weak moves wherever the formula reads any. -/
theorem holds_weaken : f.weaken.Holds moves v s ↔ f.Holds (fun _ => moves .weak) v s := by
  induction f using Formula.induct generalizing v s with
  | const value => exact Iff.rfl
  | var x => exact Iff.rfl
  | modal q strength a f ih => cases q <;> simp only [weaken, Holds, ih]
  | junction q fs ih =>
    cases q with
    | any =>
      simp only [weaken, Holds, holdsAny_iff, weakenAll_eq_map, List.mem_map,
        exists_exists_and_eq_and]
      exact exists_congr fun f => and_congr_right fun hf => ih f hf
    | all =>
      simp only [weaken, Holds, holdsAll_iff, weakenAll_eq_map, List.forall_mem_map]
      exact forall₂_congr fun f hf => ih f hf
  | fix kind x f ih => cases kind <;> simp only [weaken, Holds, ih]

end Formula

def Definitions.weaken (d : Definitions) : Definitions := d.map fun p => (p.1, p.2.weaken)

theorem Definitions.find?_weaken (d : Definitions) (x : String) :
    d.weaken.find? x = (d.find? x).map Formula.weaken := by
  unfold find? weaken
  induction d with
  | nil => rfl
  | cons p d ih =>
    rw [List.map_cons, List.lookup_cons, List.lookup_cons, ih]
    split <;> rfl

theorem Scope.conflict?_weaken (scope : Scope) (kind : Extremum) (f : Formula) :
    scope.conflict? kind f.weaken = scope.conflict? kind f := by
  simp only [conflict?, Formula.mentions_weaken]

namespace Formula

theorem gatherAll_weaken {fs : List Formula} {scope : Scope}
    (h : ∀ f ∈ fs, ∀ d : Definitions,
      f.weaken.gather scope d.weaken = (f.gather scope d).map Definitions.weaken)
    (d : Definitions) :
    gatherAll scope (weakenAll fs) d.weaken = (gatherAll scope fs d).map Definitions.weaken := by
  induction fs generalizing d with
  | nil => rfl
  | cons f fs ih =>
    rw [weakenAll, gatherAll, gatherAll, h f List.mem_cons_self]
    cases f.gather scope d with
    | error e => rfl
    | ok d' => exact ih (fun g hg => h g (List.mem_cons_of_mem f hg)) d'

theorem gather_weaken (f : Formula) (scope : Scope) (d : Definitions) :
    f.weaken.gather scope d.weaken = (f.gather scope d).map Definitions.weaken := by
  induction f using Formula.induct generalizing scope d with
  | const value => rfl
  | var x =>
    rw [weaken, gather, gather]
    split <;> rfl
  | modal q strength a f ih => exact ih scope d
  | junction q fs ih => exact gatherAll_weaken (fun f hf => ih f hf scope) d
  | fix kind x f ih =>
    rw [weaken, gather, gather, Definitions.find?_weaken, Option.isSome_map,
      Scope.conflict?_weaken]
    split
    · rfl
    · cases scope.conflict? kind f with
      | some y => rfl
      | none =>
        -- the definition that is added is the weak form of the one added for the formula
        have hsnoc : d.weaken ++ [(x, .fix kind x f.weaken)] =
            Definitions.weaken (d ++ [(x, .fix kind x f)]) := by
          simp [Definitions.weaken, weaken]
        simp only [hsnoc]
        exact ih _ _

/-- A weak form is accepted with the weak forms of the definitions. -/
theorem definitions_weaken (f : Formula) :
    f.weaken.definitions = f.definitions.map Definitions.weaken := f.gather_weaken [] []

end Formula

end ProcessLogic
