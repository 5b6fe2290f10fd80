import ProcessLogic.Proofs.Formula.Satisfaction
import ProcessLogic.Proofs.Marking.Exhaustive

/-!
# What every node of a search finds out

A search may be unfolded in full and solved at every node. Each node that asks a question has then
found out its answer, also below fixpoints, where names stand for what their definitions denote. A
search for greatest fixpoints finds out the opposite of one for least fixpoints.
-/

set_option autoImplicit false

namespace ProcessLogic

theorem Status.Reports.opposite {a b : Status} {P : Prop} (ha : a.Reports P)
    (hb : b.Reports (¬ P)) :
    a = .proved ∧ b = .unproved ∨ a = .unproved ∧ b = .proved := by
  by_cases hP : P
  · exact .inl ⟨ha.eq (b := .proved) hP, hb.eq (b := .unproved) (not_not.mpr hP)⟩
  · exact .inr ⟨ha.eq (b := .unproved) hP, hb.eq (b := .proved) hP⟩

/-- The status of a node that asks a question is the answer, as far as it is sought. -/
def AnswersQuestions (moves : Strength → Moves) (v : Valuation) (kind : Extremum)
    (u : Unfolding Query) (m : Marking) : Prop :=
  ∀ node t g, (u.record? node).bind Query.question? = some (t, g) →
    (m.status node).Reports (kind.Sought (g.Holds moves v t))

section

variable {l : Lts} {reading : Strength → Strength} {d : Definitions} {kind : Extremum}
  {verdict : StateId → Formula → Bool} {top f : Formula} {s : StateId} {v : Valuation} {r : Query}

/-- A query that asks a question finds out its answer. -/
theorem Query.satisfied_iff_of_question? (hl : l.InRange) (hd : d.Ordered) (htop : top.Scoped d)
    (hclosed : top.IsClosed) (hjudges : Judges l reading kind top v verdict)
    (hr : r.Occurs l d kind top) (hquestion : r.question? = some (s, f)) :
    Satisfied ((l.modelBy reading d).queryEquations kind verdict) r ↔
      kind.Sought (f.Holds (l.movesBy reading) (d.valuation (l.movesBy reading) v) s) := by
  cases r with
  | verdict value => cases hquestion
  | check t g =>
    cases hquestion
    exact satisfied_iff_sought hl hd htop hclosed hjudges hr.1 hr.2
  | definition t x g =>
    cases hquestion
    rw [satisfied_definition_iff]
    exact satisfied_iff_sought hl hd htop hclosed hjudges hr.1 hr.2.1

/-- Solving every node of a search for an accepted formula answers all its questions. -/
theorem solveAll_unfold_value (hl : l.InRange) (hf : f.definitions = .ok d)
    (hs : s < l.stateCount) (reading : Strength → Strength) (v : Valuation) (kind : Extremum) :
    ∃ u m, (solveAll ((l.modelBy reading d).unfold kind s f)).value = .ok (u, m) ∧
      u.record? root = some (.check s f) ∧
      AnswersQuestions (l.movesBy reading) (d.valuation (l.movesBy reading) v) kind u m := by
  obtain ⟨hd, hscoped, hclosed⟩ := Formula.definitions_spec hf
  have hsettle := settles_depth hl hf reading kind v
  have hjudges : Judges l reading kind f v (meaning l reading kind v) :=
    fun _ _ _ _ _ _ _ => meaning_iff
  obtain ⟨t, m, hvalue, hfaithful, hgrown, hstatus⟩ := Unfolding.solveAll_value
    (T := queryTheory reading (meaning l reading kind v) hl hscoped hclosed hsettle s)
    (faithful_firstNodes hl hscoped hclosed hsettle hs)
  refine ⟨_, m, hvalue, hgrown root (.check s f) rfl, ?_⟩
  intro node state g hnode
  obtain ⟨r, hname, hquestion⟩ := Option.bind_eq_some_iff.mp hnode
  obtain ⟨row, hrow, rfl⟩ := NodeTable.name_eq_some_iff.mp hname
  have hiff := Query.satisfied_iff_of_question? hl hd hscoped hclosed hjudges
    (hfaithful.occurs node row hrow) hquestion
  rw [← propext hiff]
  exact hstatus node row.record hname

/-- Solving every node of a search answers all its questions: a node is proved if its formula holds
and least fixpoints are sought, or if it fails and greatest ones are sought. Names stand for what their
definitions denote. The roots of the two searches have opposite statuses. -/
theorem solveAll_unfold_dual (hl : l.InRange) (hf : f.definitions = .ok d) (hs : s < l.stateCount)
    (reading : Strength → Strength) (v : Valuation) :
    (∀ x F t, d.find? x = some F → (d.valuation (l.movesBy reading) v x t ↔
      F.Holds (l.movesBy reading) (d.valuation (l.movesBy reading) v) t)) ∧
    ∃ (u : Extremum → Unfolding Query) (m : Extremum → Marking),
      (∀ kind, (solveAll ((l.modelBy reading d).unfold kind s f)).value = .ok (u kind, m kind) ∧
        AnswersQuestions (l.movesBy reading) (d.valuation (l.movesBy reading) v) kind (u kind)
          (m kind)) ∧
      ((m .least).status root = .proved ∧ (m .greatest).status root = .unproved ∨
        (m .least).status root = .unproved ∧ (m .greatest).status root = .proved) := by
  obtain ⟨hd, -, -⟩ := Formula.definitions_spec hf
  refine ⟨fun x F t hx => hd.valuation_iff hx, ?_⟩
  choose u m hvalue hroot hanswers using solveAll_unfold_value hl hf hs reading v
  have hquestion : ∀ kind, ((u kind).record? root).bind Query.question? = some (s, f) := by
    intro kind
    rw [hroot kind]
    rfl
  refine ⟨u, m, fun kind => ⟨hvalue kind, hanswers kind⟩, ?_⟩
  exact (hanswers .least root s f (hquestion .least)).opposite
    (hanswers .greatest root s f (hquestion .greatest))

end

theorem solveAll_unfold_dual_alwaysReady :
    Lts.hesitant.InRange ∧ alwaysReady.definitions = .ok [("X", alwaysReady), ("Y", ready)] ∧
      0 < Lts.hesitant.stateCount ∧
      (∀ x F t, Definitions.find? [("X", alwaysReady), ("Y", ready)] x = some F →
        (Definitions.valuation (Lts.hesitant.movesBy id) [("X", alwaysReady), ("Y", ready)]
            (fun _ _ => False) x t ↔
          F.Holds (Lts.hesitant.movesBy id)
            (Definitions.valuation (Lts.hesitant.movesBy id) [("X", alwaysReady), ("Y", ready)]
              fun _ _ => False) t)) ∧
      ∃ (u : Extremum → Unfolding Query) (m : Extremum → Marking),
        (∀ kind, (solveAll ((Lts.hesitant.modelBy id [("X", alwaysReady), ("Y", ready)]).unfold kind
            0 alwaysReady)).value = .ok (u kind, m kind) ∧
          AnswersQuestions (Lts.hesitant.movesBy id)
            (Definitions.valuation (Lts.hesitant.movesBy id) [("X", alwaysReady), ("Y", ready)]
              fun _ _ => False) kind (u kind) (m kind)) ∧
        ((m .least).status root = .proved ∧ (m .greatest).status root = .unproved ∨
          (m .least).status root = .unproved ∧ (m .greatest).status root = .proved) :=
  ⟨by decide, rfl, by decide, solveAll_unfold_dual (by decide) rfl (by decide) id _⟩

end ProcessLogic
