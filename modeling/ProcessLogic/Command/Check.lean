import ProcessLogic.Command.Transcript
import ProcessLogic.Formula.Parser
import ProcessLogic.Lts.Aldebaran
import ProcessLogic.Satisfaction

/-!
# The command `check`

Checks a formula against a state of a system.
-/

set_option autoImplicit false

namespace ProcessLogic.Check

structure Arguments where
  model : Document
  formula : Document
  state : Option Nat := none
  maxSteps : Option Nat := none

def prepare (args : Arguments) : Except Failure (Unfolding Query) := do
  let model ← args.model.read
  let formula ← args.formula.read
  let l ← orFault (Lts.load model).value
  let l ← l.mapError fun e => .error ("Failed to parse aut file" :: e.messages)
  let f ← (Formula.parse formula).elim (.error .formula) .ok
  let d ← f.definitions.mapError fun e => .error [e.message]
  let s ← pickState l.stateCount l.first args.state
  pure ((l.model d).unfold .least s f)

def marking (args : Arguments) (u : Unfolding Query) : Except Failure Marking :=
  match args.maxSteps with
  | none => do pure (← orFault (solve u root).value).2
  | some limit => do
    match ← orFault (solveWithin limit u root).value with
    | (_, .ok marking) => pure marking
    | (_, .error e) => throw (.error [e.message])

def results (args : Arguments) (u : Unfolding Query) : Except Failure (List Line) := do
  let verdict := if (← marking args u).holds root then "is" else "is not"
  pure [.text s!"The formula {verdict} satisfied"]

def run (args : Arguments) : Transcript := Transcript.ofPhases (prepare args) (results args)

end ProcessLogic.Check
