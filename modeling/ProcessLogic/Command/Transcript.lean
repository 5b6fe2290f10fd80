import ProcessLogic.Fault

/-!
# Transcripts

What a command prints, line by line, and how it ends.
-/

set_option autoImplicit false

namespace ProcessLogic

inductive Failure where
  /-- An error and, behind it, its causes. -/
  | error (messages : List String)
  /-- A formula that cannot be read. -/
  | formula
  | fault (cause : Fault)
deriving DecidableEq, Repr

namespace Failure

def causeText : List String → String
  | [] => ""
  | [cause] => s!"\n\nCaused by:\n    {cause}"
  | causes =>
    let numbered := (List.range causes.length).zip causes
    "\n\nCaused by:" ++ String.join (numbered.map fun (i, cause) => s!"\n    {i}: {cause}")

/-- The text for standard error. -/
def text : Failure → String
  | .error [] => "Error: \n"
  | .error (message :: causes) => "Error: " ++ message ++ causeText causes ++ "\n"
  | .formula => "Error: Failed to parse formula"
  | .fault cause => cause.message

def exitCode : Failure → Nat
  | .error _ | .formula => 1
  | .fault _ => 101

end Failure

inductive Line where
  /-- The time that reading and checking the input took. -/
  | preprocessing
  /-- The time that the search took. -/
  | solving
  | text (s : String)
deriving DecidableEq, Repr

structure Transcript where
  lines : List Line
  failure : Option Failure
deriving DecidableEq, Repr

namespace Transcript

def exitCode (t : Transcript) : Nat :=
  match t.failure with
  | none => 0
  | some f => f.exitCode

/-- A command in two phases: the first prepares, the second prints its results. -/
def ofPhases {α : Type} (prepared : Except Failure α) (solve : α → Except Failure (List Line)) :
    Transcript :=
  match prepared with
  | .error e => ⟨[], some e⟩
  | .ok a =>
    match solve a with
    | .error e => ⟨[.preprocessing], some e⟩
    | .ok lines => ⟨.preprocessing :: .solving :: lines, none⟩

end Transcript

/-- A named text, or the reason why it cannot be read. -/
structure Document where
  name : String
  content : Except String String

def Document.read (d : Document) : Except Failure String :=
  d.content.mapError fun cause => .error [s!"Failed to read {d.name}", cause]

def orFault {α : Type} (x : Except Fault α) : Except Failure α := x.mapError .fault

/-- The state asked for, which has to be one of `count`. -/
def pickState (count first : Nat) (state : Option Nat) : Except Failure StateId := do
  let s ← orFault (checkedId (state.getD first))
  if s < count then pure s else throw (.error [s!"State {s} doesn't exist"])

end ProcessLogic
