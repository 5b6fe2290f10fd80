import ProcessLogic.Command.Transcript
import ProcessLogic.Comparison
import ProcessLogic.Lts.Aldebaran

/-!
# The command `compare`

Compares two systems for bisimilarity and, if asked, for trace inclusion, and prints the classes of
all their states.
-/

set_option autoImplicit false

namespace ProcessLogic.Compare

structure Arguments where
  left : Document
  right : Document
  leftState : Option Nat := none
  rightState : Option Nat := none
  weak : Bool := false
  traces : Bool := false
  collapse : Bool := false

/-- Both processes in one system, with the generators of attacks and answers. -/
structure Prepared where
  attack : Generator
  defend : Generator
  left : StateId
  right : StateId

def readLts (d : Document) : Except Failure Lts := do
  let l ← orFault (Lts.load (← d.read)).value
  l.mapError fun e => .error (s!"Failed to parse {d.name}" :: e.messages)

def prepare (args : Arguments) : Except Failure Prepared := do
  let l ← readLts args.left
  let r ← readLts args.right
  let left ← pickState l.stateCount l.first args.leftState
  let right ← pickState r.stateCount r.first args.rightState
  let (union, _) ← orFault (l.union r)
  let right ← orFault (checkedId (right + l.stateCount))
  let defend := union.generator (if args.weak then .weak else .strong)
  pure ⟨union.strong, defend, left, right⟩

def verdict (p : Prepared) : Except Failure (List Line) := do
  let (g, levels) ← orFault (solveLevels (Game.ofPair p.attack p.defend p.left p.right)).value
  if (levels.level root).isFinite then
    let (_, f) ← orFault (g.distinguish levels).value
    let f ← f.mapError fun e => .error [e.message]
    pure [.text "The processes are not bisimilar", .text s!"Distinguishing formula: {f.text}"]
  else pure [.text "The processes are bisimilar"]

def inclusions (p : Prepared) : Except Failure (List Line) := do
  let included ← orFault (traceIncluded p.attack p.defend p.left p.right).value
  let including ← orFault (traceIncluded p.attack p.defend p.right p.left).value
  pure [.text s!"Traces of the first included in the second: {included}",
    .text s!"Traces of the second included in the first: {including}"]

def classLine (c : StateId × List StateId) : Line :=
  .text (toString c.1 ++ ": " ++ Text.braced (c.2.map toString))

def classes (p : Prepared) : Except Failure (List Line) := do
  let states := List.range p.attack.lts.stateCount
  match ← orFault (collapseOf p.attack p.defend states).value with
  | none => pure []
  | some partition => pure (partition.classes.map classLine)

def results (args : Arguments) (p : Prepared) : Except Failure (List Line) := do
  let lines ← verdict p
  let traces ← if args.traces then inclusions p else pure []
  let groups ← if args.collapse then classes p else pure []
  pure (lines ++ traces ++ groups)

def run (args : Arguments) : Transcript := Transcript.ofPhases (prepare args) (results args)

end ProcessLogic.Compare
