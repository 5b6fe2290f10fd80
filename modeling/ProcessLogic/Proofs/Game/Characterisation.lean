import ProcessLogic.Proofs.Formula.Transfer
import ProcessLogic.Proofs.Game.Bisimilarity
import ProcessLogic.Proofs.Game.Distinction

/-!
# Bisimilarity and formulas

Two states are bisimilar if and only if checking finds the same formulas to hold at both: strongly
bisimilar if all accepted formulas are meant, weakly bisimilar if only weak ones are. In one
direction a bisimulation carries the meaning of formulas from one state to the other, in the other
direction the formula of a lost game tells the states apart.
-/

set_option autoImplicit false

namespace ProcessLogic

/-- Checking the formula ends at both states, with the same verdict. -/
def Lts.Agrees (l : Lts) (f : Formula) (p q : StateId) : Prop :=
  ∃ verdict, (l.check p f).value = .ok (.ok verdict) ∧ (l.check q f).value = .ok (.ok verdict)

section

variable {l : Lts} {f : Formula} {d : Definitions} {p q : StateId} {R : StateId → StateId → Prop}

theorem agrees_iff (hl : l.InRange) (hf : f.definitions = .ok d) (hp : p < l.stateCount)
    (hq : q < l.stateCount) (v : Valuation) :
    l.Agrees f p q ↔ (f.Holds l.Move v p ↔ f.Holds l.Move v q) := by
  classical
  rw [Lts.Agrees, check_value hl hf hp v, check_value hl hf hq v]
  simp only [Except.ok.injEq, exists_eq_left', decide_eq_decide]
  exact iff_comm

theorem agrees_of_isBisimulation (hl : l.InRange) (hf : f.definitions = .ok d)
    (hp : p < l.stateCount) (hq : q < l.stateCount)
    (hR : ∀ strength, f.uses strength = true → IsBisimulation (l.Move strength) (l.Move strength) R)
    (hpq : R p q) : l.Agrees f p q := by
  -- an accepted formula is closed, so any valuation will do
  rw [agrees_iff hl hf hp hq fun _ _ => False]
  exact Formula.holds_iff_of_couples (fun strength huses => (hR strength huses).couples)
    (fun _ _ _ _ => Iff.rfl) hpq

theorem exists_tells {attack defend : Strength} (hl : l.InRange) (hp : p < l.stateCount)
    (hq : q < l.stateCount) (hweaker : attack = .strong ∨ defend = .weak)
    (h : ¬ Bisimilar (l.Move attack) (l.Move defend) p q) :
    ∃ f, Tells l attack f (.pair p q) := by
  rw [← satisfied_pair_iff hl hp hq] at h
  rcases distinguish_value hl hp hq fun s a t => move_weaker hweaker with
    ⟨hunsatisfied, -⟩ | ⟨-, f, -, hf⟩
  · exact absurd h hunsatisfied
  · exact ⟨f, hf⟩

/-- Two states are strongly bisimilar if and only if they satisfy the same formulas. -/
theorem bisimilar_value_iff_agrees (hl : l.InRange) (hp : p < l.stateCount)
    (hq : q < l.stateCount) :
    ∃ verdict, (bisimilar (l.generator .strong) (l.generator .strong) p q).value = .ok verdict ∧
      (verdict = true ↔ ∀ f d, f.definitions = .ok d → l.Agrees f p q) := by
  classical
  refine ⟨_, bisimilar_value hl hp hq .strong .strong, ?_⟩
  rw [decide_eq_true_iff]
  constructor
  · intro h f d hf
    obtain ⟨R, hR, hpq⟩ := h
    exact agrees_of_isBisimulation hl hf hp hq (fun strength _ => hR.move strength) hpq
  · intro h
    by_contra hpq
    obtain ⟨f, hplain, htold⟩ := exists_tells hl hp hq (.inl rfl) hpq
    obtain ⟨hleft, hright⟩ := htold l.Move (fun _ _ => False) rfl
    have hf : f.definitions = .ok [] := hplain [] []
    exact hright (((agrees_iff hl hf hp hq _).mp (h f [] hf)).mp hleft)

/-- Two states are weakly bisimilar if and only if they satisfy the same weak formulas. -/
theorem bisimilar_value_iff_agrees_weak (hl : l.InRange) (hp : p < l.stateCount)
    (hq : q < l.stateCount) :
    ∃ verdict, (bisimilar (l.generator .strong) (l.generator .weak) p q).value = .ok verdict ∧
      (verdict = true ↔
        ∀ f d, f.definitions = .ok d → f.uses .strong = false → l.Agrees f p q) := by
  classical
  refine ⟨_, bisimilar_value hl hp hq .strong .weak, ?_⟩
  have hweak : Bisimilar (l.Move .strong) (l.Move .weak) p q ↔
      Bisimilar (l.Move .weak) (l.Move .weak) p q := bisimilar_weak_iff
  rw [decide_eq_true_iff, hweak]
  constructor
  · intro h f d hf hstrong
    obtain ⟨R, hR, hpq⟩ := h
    refine agrees_of_isBisimulation hl hf hp hq (fun strength huses => ?_) hpq
    cases strength with
    | strong =>
      rw [hstrong] at huses
      cases huses
    | weak => exact hR
  · intro h
    by_contra hpq
    -- the game with weak attacks gives a formula about weak moves, and its weak form says the same
    obtain ⟨f, hplain, htold⟩ := exists_tells hl hp hq (.inr rfl) hpq
    obtain ⟨hleft, hright⟩ := htold (fun _ => l.Move .weak) (fun _ _ => False) rfl
    have hf : f.weaken.definitions = .ok [] := by
      have hdefinitions : f.definitions = .ok [] := hplain [] []
      rw [f.definitions_weaken, hdefinitions]
      rfl
    have hagrees := (agrees_iff hl hf hp hq fun _ _ => False).mp (h _ [] hf f.uses_weaken)
    rw [Formula.holds_weaken, Formula.holds_weaken] at hagrees
    exact hright (hagrees.mp hleft)

end

theorem bisimilar_value_iff_agrees_hesitant :
    Lts.hesitant.InRange ∧ 1 < Lts.hesitant.stateCount ∧ 2 < Lts.hesitant.stateCount ∧
      ∃ verdict, (bisimilar (Lts.hesitant.generator .strong) (Lts.hesitant.generator .strong)
          1 2).value = .ok verdict ∧
        (verdict = true ↔ ∀ f d, f.definitions = .ok d → Lts.hesitant.Agrees f 1 2) :=
  ⟨by decide, by decide, by decide,
    bisimilar_value_iff_agrees (by decide) (by decide) (by decide)⟩

theorem bisimilar_value_iff_agrees_weak_hesitant :
    Lts.hesitant.InRange ∧ 0 < Lts.hesitant.stateCount ∧ 2 < Lts.hesitant.stateCount ∧
      ∃ verdict, (bisimilar (Lts.hesitant.generator .strong) (Lts.hesitant.generator .weak)
          0 2).value = .ok verdict ∧
        (verdict = true ↔ ∀ f d, f.definitions = .ok d → f.uses .strong = false →
          Lts.hesitant.Agrees f 0 2) :=
  ⟨by decide, by decide, by decide,
    bisimilar_value_iff_agrees_weak (by decide) (by decide) (by decide)⟩

end ProcessLogic
