import ProcessLogic.Text.Blank

/-!
# Readers

A reader takes a value from the front of a text, or refuses. A choice keeps its first alternative
that succeeds.
-/

set_option autoImplicit false

namespace ProcessLogic.Text

abbrev Reader (α : Type) := List Char → Option (α × List Char)

namespace Reader

variable {α β : Type}

def map (f : α → β) (r : Reader α) : Reader β := fun s => (r s).map fun (a, s) => (f a, s)

/-- Reads on with a reader that depends on what has been read. -/
def andThen (r : Reader α) (f : α → Reader β) : Reader β := fun s =>
  match r s with
  | some (a, s) => f a s
  | none => none

def orElse (r r' : Reader α) : Reader α := fun s =>
  match r s with
  | some x => some x
  | none => r' s

def firstOf : List (Reader α) → Reader α
  | [] => fun _ => none
  | r :: rs => r.orElse (firstOf rs)

/-- Skips blanks on both sides. -/
def padded (r : Reader α) : Reader α := fun s =>
  match r (trimLeft s) with
  | some (a, s) => some (a, trimLeft s)
  | none => none

def word (w : List Char) : Reader Unit := fun s => (after? w s).map fun s => ((), s)

def between (opening closing : List Char) (r : Reader α) : Reader α :=
  (word opening).andThen fun _ => r.andThen fun a => (word closing).map fun _ => a

/-- Reads as often as possible, up to the given number of times. -/
def many (r : Reader α) : Nat → List Char → List α × List Char
  | 0, s => ([], s)
  | n + 1, s =>
    match r s with
    | none => ([], s)
    | some (a, s) =>
      let (as, s) := many r n s
      (a :: as, s)

/-- One item, and up to `n` more, each behind a separator. A separator without an item is left
alone. -/
def separated (separator : List Char) (n : Nat) (r : Reader α) : Reader (List α) :=
  r.andThen fun a s =>
    let (as, s) := many ((padded (word separator)).andThen fun _ => r) n s
    some (a :: as, s)

def isLetter (c : Char) : Bool := c.isAlpha || c == '_'

/-- A letter or underscore, then letters, underscores and digits, all of them ASCII. -/
def identifier : Reader (List Char)
  | [] => none
  | c :: s =>
    let more := fun d : Char => isLetter d || d.isDigit
    if isLetter c then some (c :: s.takeWhile more, s.dropWhile more) else none

/-- A whole identifier that equals `w`. -/
def keyword (w : List Char) : Reader Unit :=
  identifier.andThen fun x s => if x = w then some ((), s) else none

end Reader

end ProcessLogic.Text
