import ProcessLogic.Command.Transcript
import ProcessLogic.Lts.Random

/-!
# The command `random`

Draws a random system, to be written to a file.
-/

set_option autoImplicit false

namespace ProcessLogic.Random

structure Arguments where
  states : Nat
  transitions : Nat
  labels : Nat

/-- A product that does not fit into a word leaves room for any count. -/
def checkArguments (args : Arguments) : Except Failure Unit := do
  if args.states = 0 then throw (.error ["States count must be positive"])
  let room := args.states * args.labels
  if room < Text.wordBound ∧ room < args.transitions then
    throw (.error [s!"Cannot have {args.transitions} distinct transitions per state with " ++
      s!"{args.states} states and {args.labels} labels"])

def generate (args : Arguments) (source : Source) : Except Failure Lts := do
  checkArguments args
  let (l, _) ← orFault (Lts.random args.states args.transitions args.labels source)
  pure l

/-- The failure when the output cannot be opened. -/
def outputFailure (cause : String) : Failure := .error ["Cannot create output file", cause]

/-- The system to be written; the output is opened when the system is complete. -/
def run (args : Arguments) (source : Source) (output : Except String Unit) :
    Except Failure Lts := do
  let l ← generate args source
  output.mapError outputFailure
  pure l

end ProcessLogic.Random
