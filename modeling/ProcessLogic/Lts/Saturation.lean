import ProcessLogic.Formula.Basic
import ProcessLogic.Lts.Basic
import ProcessLogic.Numbering
import ProcessLogic.Run

/-!
# Saturation

The weak transitions of a system: `tau` leads to every state that internal moves reach, the state
itself included, and any other label may be preceded and followed by internal moves. A generator
gives either kind of transition row by row.
-/

set_option autoImplicit false

namespace ProcessLogic

namespace Lts

/-- Numbers the states that are new, and puts them on the stack. -/
def discover : List StateId → List StateId → Numbering StateId → List StateId × Numbering StateId
  | [], stack, seen => (stack, seen)
  | s :: ss, stack, seen =>
    if seen.contains s then discover ss stack seen
    else discover ss (s :: stack) (seen.insert s)

/-- Follows internal moves from the states on the stack. A state is put there once, when it is
numbered, and those that have a row are as many as the rows. -/
def closeStack (l : Lts) : Nat → List StateId → Numbering StateId →
    Except Fault (Numbering StateId)
  | _, [], seen => .ok seen
  | 0, _ :: _, _ => .error .exhausted
  | fuel + 1, s :: stack, seen => do
    let row ← l.row s
    let (stack, seen) := discover ((row.filter (·.isTau)).map (·.target)) stack seen
    closeStack l fuel stack seen

/-- States reached by internal moves, in the order of their discovery. -/
def tauClosure (l : Lts) (s : StateId) : Except Fault (List StateId) :=
  (l.closeStack (l.stateCount + 1) [s] (Numbering.ofList [s])).map Numbering.toList

def visibleMoves (l : Lts) (s : StateId) : Except Fault (List Transition) := do
  let row ← l.row s
  let moves ← (row.filter (!·.isTau)).mapM fun t => do
    pure ((← l.tauClosure t.target).map fun s => ⟨t.label, s⟩)
  pure moves.flatten

def weakRow (l : Lts) (s : StateId) : Except Fault (List Transition) := do
  let before ← l.tauClosure s
  let visible ← before.mapM l.visibleMoves
  pure (Numbering.ofList (before.map (⟨tau, ·⟩) ++ visible.flatten)).toList

end Lts

/-- The transitions of a system, or its weak transitions, each row computed at most once. -/
structure Generator where
  lts : Lts
  strength : Strength
  rows : Table (Thunk (Except Fault (List Transition)))

namespace Lts

def strong (l : Lts) : Generator :=
  ⟨l, .strong, l.rows.map fun row => Thunk.pure (.ok row)⟩

def weak (l : Lts) : Generator :=
  ⟨l, .weak, (Array.range l.stateCount).map fun s => Thunk.mk fun _ => l.weakRow s⟩

def generator (l : Lts) : Strength → Generator
  | .strong => l.strong
  | .weak => l.weak

end Lts

namespace Generator

def row (g : Generator) (s : StateId) : Except Fault (List Transition) := do
  (← g.rows.fetch s).get

/-- The row of a state; a weak row is reported. -/
def successors (g : Generator) (s : StateId) : Run (List Transition) := do
  let row ← g.row s
  if g.strength = .weak then Run.report (.saturated s row.length)
  pure row

/-- Bounds the length of a row. -/
def degree (g : Generator) : Nat :=
  match g.strength with
  | .strong => g.lts.transitionCount
  | .weak => (g.lts.transitionCount + 1) * (g.lts.transitionCount + 1)

/-- Bounds the number of states that occur as targets. -/
def reach (g : Generator) : Nat := g.lts.stateCount + g.lts.transitionCount

end Generator

/-- The weak rows of a system that are known so far. -/
structure Saturation where
  lts : Lts
  rows : Table (Option (List Transition))

namespace Saturation

def ofLts (l : Lts) : Saturation := ⟨l, Array.replicate l.stateCount none⟩

/-- The weak row of a state, and what is known after that. A row is computed and reported at the
first query about its state. -/
def ask : Saturation → StateId → Run (Saturation × List Transition)
  | ⟨l, rows⟩, s => do
    match ← rows.fetch s with
    | some row => pure (⟨l, rows⟩, row)
    | none =>
      let row ← l.weakRow s
      Run.report (.saturated s row.length)
      pure (⟨l, ← rows.assign s (some row)⟩, row)

/-- The answers to several queries, each knowing what the ones before it have found out. -/
def askAll : Saturation → List StateId → Run (Saturation × List (List Transition))
  | m, [] => pure (m, [])
  | m, s :: states => do
    let (m, row) ← m.ask s
    let (m, rows) ← m.askAll states
    pure (m, row :: rows)

end Saturation

end ProcessLogic
