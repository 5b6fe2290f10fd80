import ProcessLogic.Lts.Basic
import ProcessLogic.Run
import ProcessLogic.Text.Blank
import ProcessLogic.Text.Numeral

/-!
# The Aldebaran format

A header `des (first,transitions,states)` and one line `(source,"label",target)` per transition.
Blank lines are skipped, and blanks may surround every item. The quotes of a label may be left out.
-/

set_option autoImplicit false

namespace ProcessLogic

open Text

/-- Why a text is refused. -/
inductive FormatError where
  | emptyFile
  | noHeader
  | noOpening
  | noFirstState
  | noTransitionCount
  | noStateCount
  | firstState (cause : NumeralError)
  | transitionCount (cause : NumeralError)
  | stateCount (cause : NumeralError)
  | firstStateMissing (state : Nat)
  | noStart
  | unclosedLabel
  | noLabelEnd
  | noLabel
  | noEnd
  | start (cause : NumeralError)
  | finish (cause : NumeralError)
  | startMissing (state : Nat)
  | finishMissing (state : Nat)
  | wrongCount (got expected : Nat)
deriving DecidableEq, Repr

namespace FormatError

/-- The message and, behind it, its cause. -/
def messages : FormatError → List String
  | .emptyFile => ["File is empty"]
  | .noHeader => ["Expected 'des'"]
  | .noOpening => ["Expected '('"]
  | .noFirstState => ["Expected first state"]
  | .noTransitionCount => ["Expected trans count"]
  | .noStateCount => ["Expected state count"]
  | .firstState e => ["Expected first state to be a number", e.message]
  | .transitionCount e => ["Expected trans count to be a number", e.message]
  | .stateCount e => ["Expected state count to be a number", e.message]
  | .firstStateMissing s => [s!"First state {s} doesn't exist"]
  | .noStart => ["Expected start state"]
  | .unclosedLabel => ["Expected label '\"'"]
  | .noLabelEnd => ["Expected label ','"]
  | .noLabel => ["Expected label"]
  | .noEnd => ["Expected end state"]
  | .start e => ["Start state is not a number", e.message]
  | .finish e => ["End state is not a number", e.message]
  | .startMissing s => [s!"Start state {s} doesn't exist"]
  | .finishMissing s => [s!"End state {s} doesn't exist"]
  | .wrongCount got expected =>
    [s!"Wrong number of transitions: got {got}, expected {expected}"]

def message (e : FormatError) : String := ": ".intercalate e.messages

end FormatError

namespace Aldebaran

structure Header where
  first : Nat
  transitions : Nat
  states : Nat
deriving DecidableEq, Repr

def expect {α : Type} (e : FormatError) : Option α → Except FormatError α
  | some a => .ok a
  | none => .error e

def readNumber (wrap : NumeralError → FormatError) (s : List Char) : Except FormatError Nat :=
  (readNumeral (trim s)).mapError wrap

/-- Layout comes before the numbers, and both before the first state's existence. -/
def readHeader (line : List Char) : Except FormatError Header := do
  let s ← expect .noHeader (after? "des".toList (trim line))
  let s ← expect .noOpening (after? ['('] (trim s))
  let (first, s) ← expect .noFirstState (cut? ',' s)
  let (transitions, s) ← expect .noTransitionCount (cut? ',' s)
  let states ← expect .noStateCount (before? ')' (trimRight s))
  let first ← readNumber .firstState first
  let transitions ← readNumber .transitionCount transitions
  let states ← readNumber .stateCount states
  if first < states then pure ⟨first, transitions, states⟩ else throw (.firstStateMissing first)

/-- The label and what follows its comma. -/
def readLabel (s : List Char) : Except FormatError (List Char × List Char) :=
  match after? ['"'] (trimLeft s) with
  | some s => do
    let (label, s) ← expect .unclosedLabel (cut? '"' s)
    let s ← expect .noLabelEnd (after? [','] (trimLeft s))
    pure (label, s)
  | none => expect .noLabel (cut? ',' s)

def readEdge (states : Nat) (line : List Char) : Except FormatError Edge := do
  let s ← expect .noOpening (after? ['('] (trim line))
  let (source, s) ← expect .noStart (cut? ',' s)
  let (label, s) ← readLabel s
  let target ← expect .noEnd (before? ')' (trimRight s))
  let source ← readNumber .start source
  let target ← readNumber .finish target
  if states ≤ source then throw (.startMissing source)
  if states ≤ target then throw (.finishMissing target)
  pure ⟨source, String.ofList (trim label), target⟩

/-- The lines that are not blank. -/
def content (text : List Char) : List (List Char) := (lines text).filter fun line => trim line ≠ []

/-- The number of states that the header asks for. -/
def announced? (content : List (List Char)) : Option Nat :=
  match content with
  | [] => none
  | header :: _ => (readHeader header).toOption.map (·.states)

def readLines : List (List Char) → Except FormatError Lts
  | [] => .error .emptyFile
  | header :: body => do
    let h ← readHeader header
    let edges ← body.mapM (readEdge h.states)
    if edges.length = h.transitions then pure (Lts.collect h.first h.states edges)
    else throw (.wrongCount edges.length h.transitions)

def read (text : List Char) : Except FormatError Lts := readLines (content text)

def renderHeader (l : Lts) : List Char :=
  "des (".toList ++ numeral l.first ++ ',' :: numeral l.transitionCount ++
    ',' :: numeral l.stateCount ++ ")\n".toList

def renderEdge (e : Edge) : List Char :=
  '(' :: numeral e.source ++ ",\"".toList ++ e.label.toList ++ "\",".toList ++
    numeral e.target ++ ")\n".toList

def render (l : Lts) : List Char := renderHeader l ++ l.edges.flatMap renderEdge

end Aldebaran

def Lts.parse (text : String) : Except FormatError Lts := Aldebaran.read text.toList

def Lts.text (l : Lts) : String := String.ofList (Aldebaran.render l)

/-- Reads a system and reports its size. Room for its states is made before the transitions are
read. -/
def Lts.load (text : String) : Run (Except FormatError Lts) := do
  let content := Aldebaran.content text.toList
  (Aldebaran.announced? content).forM fun states => (Table.checkedRows states : Run Unit)
  match Aldebaran.readLines content with
  | .error e => pure (.error e)
  | .ok l =>
    Run.report (.read l.stateCount l.transitionCount)
    pure (.ok l)

end ProcessLogic
