import ProcessLogic.Command.Check
import ProcessLogic.Command.Compare
import ProcessLogic.Command.Random

/-!
# The command line

`check AUT MCF [--state N] [--max-steps N]`,
`compare AUT AUT [--left-state N] [--right-state N] [--weak] [--traces] [--collapse]` and
`random AUT STATES TRANSITIONS LABELS [--seed N]`.
-/

set_option autoImplicit false

namespace ProcessLogic.CommandLine

/-- Words of a command line: values in order, options with a number, and flags. -/
structure Words where
  values : List String := []
  numbers : List (String × Nat) := []
  flags : List String := []

def readWord (s : String) : Option Nat := (Text.readNumeral s.toList).toOption

def Words.ofList (valued : List String) : List String → Option Words
  | [] => some {}
  | [w] =>
    if valued.contains w then none
    else if w.startsWith "--" then some { flags := [w] }
    else some { values := [w] }
  | w :: v :: ws =>
    if valued.contains w then do
      let n ← readWord v
      let rest ← Words.ofList valued ws
      pure { rest with numbers := (w, n) :: rest.numbers }
    else do
      let rest ← Words.ofList valued (v :: ws)
      if w.startsWith "--" then pure { rest with flags := w :: rest.flags }
      else pure { rest with values := w :: rest.values }

def causeOf : IO.Error → String
  | .noFileOrDirectory .. => "No such file or directory (os error 2)"
  | e => toString e

def readDocument (path : String) : IO Document := do
  match ← (IO.FS.readFile path).toBaseIO with
  | .ok content => pure ⟨path, .ok content⟩
  | .error e => pure ⟨path, .error (causeOf e)⟩

def fail (f : Failure) : IO UInt32 := do
  (← IO.getStderr).putStrLn f.text.trimAsciiEnd.toString
  pure f.exitCode.toUInt32

def elapsed (phase : String) (start : Nat) : IO Unit := do
  let now ← IO.monoMsNow
  IO.println s!"{phase} took {now - start}ms"

/-- Runs the two phases of a command, and prints how long each took. -/
def runPhases {α : Type} (prepare : Unit → Except Failure α)
    (results : α → Except Failure (List Line)) : IO UInt32 := do
  let start ← IO.monoMsNow
  match prepare () with
  | .error e => fail e
  | .ok prepared =>
    elapsed "Preprocessing" start
    let start ← IO.monoMsNow
    match results prepared with
    | .error e => fail e
    | .ok lines =>
      elapsed "Solve" start
      for line in lines do
        if let .text s := line then IO.println s
      pure 0

def usage : IO UInt32 := do
  (← IO.getStderr).putStrLn
    ("usage: check AUT MCF [--state INT] [--max-steps INT]\n" ++
    "       compare AUT AUT [--left-state INT] [--right-state INT] [--weak] [--traces] " ++
    "[--collapse]\n" ++
    "       random AUT STATES TRANSITIONS LABELS [--seed INT]")
  pure 2

def runCheck (w : Words) : IO UInt32 := do
  match w.values with
  | [model, formula] =>
    let args : Check.Arguments := {
      model := ← readDocument model
      formula := ← readDocument formula
      state := w.numbers.lookup "--state"
      maxSteps := w.numbers.lookup "--max-steps" }
    runPhases (fun _ => Check.prepare args) (Check.results args)
  | _ => usage

def runCompare (w : Words) : IO UInt32 := do
  match w.values with
  | [left, right] =>
    let args : Compare.Arguments := {
      left := ← readDocument left
      right := ← readDocument right
      leftState := w.numbers.lookup "--left-state"
      rightState := w.numbers.lookup "--right-state"
      weak := w.flags.contains "--weak"
      traces := w.flags.contains "--traces"
      collapse := w.flags.contains "--collapse" }
    runPhases (fun _ => Compare.prepare args) (Compare.results args)
  | _ => usage

def write (path : String) (l : Lts) : IO UInt32 := do
  match ← (IO.FS.writeFile path l.text).toBaseIO with
  | .ok () => pure 0
  | .error e => fail (Random.outputFailure (causeOf e))

def runRandom (w : Words) : IO UInt32 := do
  match w.values with
  | [path, states, transitions, labels] =>
    match readWord states, readWord transitions, readWord labels with
    | some states, some transitions, some labels =>
      let seed := (w.numbers.lookup "--seed").getD (← IO.monoNanosNow)
      let source : Source := { script := [], seed := some seed.toUInt64 }
      match Random.generate ⟨states, transitions, labels⟩ source with
      | .error e => fail e
      | .ok l => write path l
    | _, _, _ => usage
  | _ => usage

def valuedOptions : List String :=
  ["--state", "--max-steps", "--left-state", "--right-state", "--seed"]

def run (command : String) (w : Words) : IO UInt32 :=
  match command with
  | "check" => runCheck w
  | "compare" => runCompare w
  | "random" => runRandom w
  | _ => usage

end ProcessLogic.CommandLine

open ProcessLogic.CommandLine in
def main (args : List String) : IO UInt32 :=
  match args with
  | [] => usage
  | command :: rest =>
    match Words.ofList valuedOptions rest with
    | none => usage
    | some w => run command w
