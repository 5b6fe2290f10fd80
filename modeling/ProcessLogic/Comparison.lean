import ProcessLogic.Game.Distinction
import ProcessLogic.Game.Inclusion
import ProcessLogic.Game.Partition
import ProcessLogic.Marking.Exhaustive
import ProcessLogic.Marking.OnDemand

/-!
# Comparing processes

Bisimilarity, trace inclusion, bisimilarity classes and distinguishing formulas, for given
generators of attacks and answers. Strong attacks with weak answers make the comparison weak.
-/

set_option autoImplicit false

namespace ProcessLogic

def bisimilar (attack defend : Generator) (p q : StateId) : Run Bool := do
  let (_, marking) ← solve (Game.ofPair attack defend p q) root
  pure (!marking.holds root)

def traceIncluded (attack defend : Generator) (p q : StateId) : Run Bool := do
  let (_, marking) ← solve (Chase.ofPair attack defend p q) root
  pure (!marking.holds root)

def Game.collapse (g : Game) : Run Partition := do
  let (g, marking) ← solveAll g
  g.partition marking.status

/-- Classes of the states met in the game between two states. -/
def collapse (attack defend : Generator) (p q : StateId) : Run Partition :=
  (Game.ofPair attack defend p q).collapse

def Game.addPairs (g : Game) (states : List StateId) : Game :=
  states.foldl (fun g l => states.foldl (fun g r => (g.addPair l r).1) g) g

/-- Classes of the given states; every pair of them takes part in the game. -/
def collapseOf (attack defend : Generator) (states : List StateId) : Run (Option Partition) :=
  match states with
  | [] => pure none
  | s :: _ => do pure (some (← ((Game.ofPair attack defend s s).addPairs states).collapse))

def distinguish (attack defend : Generator) (p q : StateId) : Run (Except Refusal Formula) := do
  let (g, levels) ← solveLevels (Game.ofPair attack defend p q)
  let (_, f) ← g.distinguish levels
  pure f

end ProcessLogic
