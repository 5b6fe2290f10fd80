import ProcessLogic.Event

/-!
# Runs

The outcome of a computation that reports events and may break off with a fault. Reports made
before a fault are kept. The value of a run does not depend on its reports.
-/

set_option autoImplicit false

namespace ProcessLogic

structure Run (α : Type) where
  events : List Event
  value : Except Fault α

namespace Run

variable {α β σ : Type}

instance : Monad Run where
  pure a := ⟨[], .ok a⟩
  bind x f :=
    match x with
    | ⟨events, .error e⟩ => ⟨events, .error e⟩
    | ⟨events, .ok a⟩ =>
      let y := f a
      ⟨events ++ y.events, y.value⟩

instance : MonadLift (Except Fault) Run where
  monadLift x := ⟨[], x⟩

instance : LawfulMonad Run := LawfulMonad.mk' Run
  (by
    rintro α ⟨events, value⟩
    cases value <;> simp [Functor.map])
  (by
    intro α β a f
    simp [bind, pure])
  (by
    rintro α β γ ⟨events, value⟩ f g
    cases value with
    | error e => rfl
    | ok a =>
      rcases h : f a with ⟨events', value⟩
      cases value <;> simp [bind, h])

def report (e : Event) : Run Unit := ⟨[e], .ok ()⟩

def fail (f : Fault) : Run α := ⟨[], .error f⟩

/-- Goes on from the events of `before`, the latest first. -/
@[specialize] def iterateFrom (done : σ → Bool) (step : σ → Run σ) : Nat → List Event → σ → Run σ
  | 0, before, s => ⟨before.reverse, .ok s⟩
  | n + 1, before, s =>
    if done s then ⟨before.reverse, .ok s⟩
    else
      match step s with
      | ⟨events, .ok s⟩ => iterateFrom done step n (events.reverseAux before) s
      | ⟨events, .error e⟩ => ⟨(events.reverseAux before).reverse, .error e⟩

/-- Takes steps until it is done, at most the given number of them. -/
@[inline] def iterate (done : σ → Bool) (step : σ → Run σ) (limit : Nat) (s : σ) : Run σ :=
  iterateFrom done step limit [] s

/-- The same run, in which each state's saturation is reported once. -/
def withFirstSaturations (x : Run α) : Run α :=
  { x with events := Event.firstSaturations x.events }

@[simp] theorem value_pure (a : α) : (pure a : Run α).value = .ok a := rfl

@[simp] theorem value_report (e : Event) : (report e).value = .ok () := rfl

@[simp] theorem value_lift (x : Except Fault α) : (liftM x : Run α).value = x := rfl

@[simp] theorem value_withFirstSaturations (x : Run α) :
    x.withFirstSaturations.value = x.value := rfl

@[simp] theorem value_bind (x : Run α) (f : α → Run β) :
    (x >>= f).value = x.value >>= fun a => (f a).value := by
  rcases x with ⟨events, value⟩
  cases value <;> simp [bind, Except.bind]

theorem iterateFrom_eq (done : σ → Bool) (step : σ → Run σ) (n : Nat) (before : List Event)
    (s : σ) : iterateFrom done step n before s =
      ⟨before.reverse ++ (iterate done step n s).events, (iterate done step n s).value⟩ := by
  induction n generalizing before s with
  | zero => simp [iterate, iterateFrom]
  | succ n ih =>
    simp only [iterate, iterateFrom]
    split
    · simp
    · split
      · next events t _ =>
        rw [ih, ih (events.reverseAux [])]
        simp [List.reverseAux_eq]
      · simp [List.reverseAux_eq]

@[simp] theorem iterate_zero (done : σ → Bool) (step : σ → Run σ) (s : σ) :
    iterate done step 0 s = pure s := rfl

theorem iterate_succ (done : σ → Bool) (step : σ → Run σ) (n : Nat) (s : σ) :
    iterate done step (n + 1) s =
      if done s then pure s else step s >>= iterate done step n := by
  simp only [iterate, iterateFrom]
  split
  · rfl
  · split
    · next h =>
      rw [iterateFrom_eq]
      simp [h, bind, iterate, List.reverseAux_eq]
    · next h => simp [h, bind, List.reverseAux_eq]

end Run

end ProcessLogic
