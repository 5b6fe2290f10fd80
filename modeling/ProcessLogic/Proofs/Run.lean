import Mathlib.Data.List.Forall2
import ProcessLogic.Run

/-!
# Computations and their values

A computation has a value if all its parts have one, and the value is made from theirs. Two
computations may differ only in how far they get: where the first one has a value, the second one
has a value that is related to it, and where the first one breaks off, the second one may go on.
-/

set_option autoImplicit false

namespace ProcessLogic

section

variable {α β ε : Type} {x : Except ε α}

theorem bind_of_ok {a : α} (h : x = .ok a) (f : α → Except ε β) :
    x >>= f = f a := by
  rw [h]
  rfl

theorem bind_eq_ok {f : α → Except ε β} {b : β} :
    x >>= f = .ok b ↔ ∃ a, x = .ok a ∧ f a = .ok b := by
  cases x <;> simp [bind, Except.bind]

theorem throw_ne_ok {e : ε} {a : α} : (throw e : Except ε α) ≠ .ok a := by
  simp [throw, throwThe, MonadExceptOf.throw]

/-- Where an error is thrown first, nothing that follows is of any matter. -/
theorem guarded_eq_ok {p : Prop} [Decidable p] {e : ε} {f : PUnit → Except ε α} {x : Except ε α}
    {a : α} : (if p then throw e >>= f else x) = .ok a ↔ ¬ p ∧ x = .ok a := by
  by_cases hp : p <;> simp [hp, throw, throwThe, MonadExceptOf.throw, bind, Except.bind]

theorem mapM_eq_ok_iff {f : α → Except ε β} {as : List α} {bs : List β} :
    as.mapM f = .ok bs ↔ List.Forall₂ (fun b a => f a = .ok b) bs as := by
  induction as generalizing bs with
  | nil =>
    rw [List.forall₂_nil_right_iff, List.mapM_nil]
    exact ⟨fun h => (Except.ok.inj h).symm, fun h => h ▸ rfl⟩
  | cons a as ih =>
    rw [List.forall₂_cons_right_iff, List.mapM_cons, bind_eq_ok]
    apply exists_congr
    intro b
    rw [bind_eq_ok]
    constructor
    · rintro ⟨hb, bs', hbs, h⟩
      exact ⟨bs', hb, ih.mp hbs, (Except.ok.inj h).symm⟩
    · rintro ⟨bs', hb, hbs, rfl⟩
      exact ⟨hb, bs', ih.mpr hbs, rfl⟩

theorem mapM_eq_ok {f : α → Except ε β} {g : α → β} {as : List α}
    (h : ∀ a ∈ as, f a = .ok (g a)) : as.mapM f = .ok (as.map g) :=
  mapM_eq_ok_iff.mpr (List.forall₂_map_left_iff.mpr (List.forall₂_same.mpr h))

theorem mapM_map_eq_ok {f : α → β} {g : β → Except ε α} {as : List α}
    (h : ∀ a ∈ as, g (f a) = .ok a) : (as.map f).mapM g = .ok as :=
  mapM_eq_ok_iff.mpr (List.forall₂_map_right_iff.mpr (List.forall₂_same.mpr h))

/-- Where only one error can occur, it is the error of the whole list. -/
theorem mapM_eq_error {f : α → Except ε β} {as : List α} {e : ε}
    (h : ∀ a ∈ as, (∃ b, f a = .ok b) ∨ f a = .error e) (he : ∃ a ∈ as, f a = .error e) :
    as.mapM f = .error e := by
  induction as with
  | nil =>
    obtain ⟨a, ha, -⟩ := he
    simp at ha
  | cons a as ih =>
    rw [List.mapM_cons]
    rcases h a List.mem_cons_self with ⟨b, hb⟩ | ha
    · obtain ⟨a', ha', he⟩ := he
      have hmem : a' ∈ as := by
        rcases List.mem_cons.mp ha' with rfl | hmem
        · simp [hb] at he
        · exact hmem
      rw [hb, ih (fun a ha => h a (List.mem_cons_of_mem _ ha)) ⟨a', hmem, he⟩]
      rfl
    · rw [ha]
      rfl

namespace Run

theorem value_bind_of_ok {x : Run α} {a : α} (h : x.value = .ok a) (f : α → Run β) :
    (x >>= f).value = (f a).value := by
  rw [value_bind, h]
  rfl

theorem lift_bind_of_ok {x : Except Fault α} {a : α} (h : x = .ok a) (f : α → Run β) :
    liftM x >>= f = f a := by
  rw [h]
  rfl

theorem value_lift_bind_of_ok {x : Except Fault α} {a : α} (h : x = .ok a) (f : α → Run β) :
    (liftM x >>= f).value = (f a).value := by
  rw [lift_bind_of_ok h]

theorem value_bind_eq_ok {y : Run α} {f : α → Run β} {b : β} :
    (y >>= f).value = .ok b ↔ ∃ a, y.value = .ok a ∧ (f a).value = .ok b := by
  rw [value_bind, bind_eq_ok]

theorem value_mapM (f : α → Run β) (as : List α) :
    (as.mapM f).value = as.mapM fun a => (f a).value := by
  induction as with
  | nil => rfl
  | cons a as ih =>
    simp only [List.mapM_cons, value_bind, ih, value_pure]
    rfl

/-- A list of computations that all succeed does so, and reports what they report, in order. -/
theorem mapM_eq {f : α → Run β} {event : α → Event} {g : α → β} {as : List α}
    (h : ∀ a ∈ as, f a = ⟨[event a], .ok (g a)⟩) :
    as.mapM f = ⟨as.map event, .ok (as.map g)⟩ := by
  induction as with
  | nil => rfl
  | cons a as ih =>
    have hrest := ih fun b hb => h b (List.mem_cons_of_mem a hb)
    rw [List.mapM_cons, h a List.mem_cons_self, hrest]
    simp [bind, pure]

end Run

end

/-- Where `x` has a value, `y` has one that is related to it. -/
def Below {α β ε : Type} (R : α → β → Prop) (x : Except ε α) (y : Except ε β) : Prop :=
  ∀ a, x = .ok a → ∃ b, y = .ok b ∧ R a b

namespace Below

variable {α β α' β' ε : Type} {R : α → β → Prop} {Q : α' → β' → Prop}

theorem ok {a : α} {b : β} (h : R a b) : Below R (.ok a : Except ε α) (.ok b) := by
  intro a' ha'
  obtain rfl := Except.ok.inj ha'
  exact ⟨b, rfl, h⟩

theorem error (e : ε) (y : Except ε β) : Below R (.error e) y := by
  intro a ha
  simp at ha

theorem refl (x : Except ε α) : Below Eq x x := fun a ha => ⟨a, ha, rfl⟩

theorem eq_ok {x y : Except ε α} {a : α} (h : Below Eq x y) (hx : x = .ok a) : y = .ok a := by
  obtain ⟨b, hy, rfl⟩ := h a hx
  exact hy

theorem bind {x : Except ε α} {y : Except ε β} {f : α → Except ε α'} {g : β → Except ε β'}
    (h : Below R x y) (hf : ∀ a b, R a b → Below Q (f a) (g b)) : Below Q (x >>= f) (y >>= g) := by
  cases x with
  | error e => exact error e _
  | ok a =>
    obtain ⟨b, rfl, hab⟩ := h a rfl
    exact hf a b hab

/-- Both go on from the same value. -/
theorem bind_eq {x y : Except ε α} {f : α → Except ε α'} {g : α → Except ε β'}
    (h : Below Eq x y) (hf : ∀ a, Below Q (f a) (g a)) : Below Q (x >>= f) (y >>= g) := by
  apply h.bind
  rintro a _ rfl
  exact hf a

theorem map {x y : Except ε α} (h : Below Eq x y) (f : α → α') :
    Below Eq (x.map f) (y.map f) := by
  cases x with
  | error e => exact error e _
  | ok a =>
    rw [h.eq_ok rfl]
    exact refl _

theorem mapM {f g : α → Except ε α'} (h : ∀ a, Below Eq (f a) (g a)) (as : List α) :
    Below Eq (as.mapM f) (as.mapM g) := by
  induction as with
  | nil => exact refl _
  | cons a as ih =>
    rw [List.mapM_cons, List.mapM_cons]
    exact (h a).bind_eq fun _ => ih.bind_eq fun _ => refl _

theorem bind_run {x : Run α} {y : Run β} {f : α → Run α'} {g : β → Run β'}
    (h : Below R x.value y.value) (hf : ∀ a b, R a b → Below Q (f a).value (g b).value) :
    Below Q (x >>= f).value (y >>= g).value := by
  rw [Run.value_bind, Run.value_bind]
  exact h.bind hf

theorem bind_run_eq {x y : Run α} {f : α → Run α'} {g : α → Run β'} (h : Below Eq x.value y.value)
    (hf : ∀ a, Below Q (f a).value (g a).value) : Below Q (x >>= f).value (y >>= g).value := by
  apply h.bind_run
  rintro a _ rfl
  exact hf a

end Below

end ProcessLogic
