import ProcessLogic.Formula.Printer
import ProcessLogic.Text.Reader

/-!
# Reading formulas

Fixpoints bind loosest and reach as far as they can, then come `||`, `&&` and the modalities. A
formula in parentheses, a constant or a variable stands at the bottom.
-/

set_option autoImplicit false

namespace ProcessLogic

open Text

namespace Formula

namespace Grammar

def isPlain (c : Char) : Bool := !"<>[]!\"".toList.contains c && !isBlank c

def plain : Reader (List Char) := fun s =>
  match s.takeWhile isPlain with
  | [] => none
  | label => some (label, s.dropWhile isPlain)

/-- Up to the closing quote; quotes and backslashes inside are escaped by a backslash. -/
def quotedRest : Reader (List Char)
  | [] => none
  | '"' :: s => some ([], s)
  | ['\\'] => none
  | '\\' :: c :: s =>
    if c = '"' ∨ c = '\\' then (quotedRest s).map fun (label, s) => (c :: label, s) else none
  | c :: s => (quotedRest s).map fun (label, s) => (c :: label, s)

def quoted : Reader (List Char) := (Reader.word ['"']).andThen fun _ => quotedRest

def label : Reader String := (quoted.orElse plain).map String.ofList

def act : Reader Act :=
  Reader.padded (Reader.firstOf [
    (Reader.keyword "true".toList).map fun _ => .every,
    (Reader.padded (Reader.word ['!'])).andThen fun _ => label.map .except,
    label.map .label])

def variableName : Reader String := Reader.padded (Reader.identifier.map String.ofList)

def constant (value : Bool) (words : List (List Char)) : Reader Formula :=
  (Reader.firstOf (words.map Reader.keyword)).map fun _ => .const value

def atom (group : Reader Formula) : Reader Formula :=
  Reader.padded (Reader.firstOf [
    constant true ["tt".toList, "true".toList],
    constant false ["ff".toList, "false".toList],
    Reader.between ['('] [')'] group,
    variableName.map .var])

/-- Doubled brackets come before single ones. -/
def modalities : List (Quantifier × Strength) :=
  [(.any, .weak), (.all, .weak), (.any, .strong), (.all, .strong)]

def modality (q : Quantifier) (strength : Strength) (body : Reader Formula) : Reader Formula :=
  let (opening, closing) := modalBrackets q strength
  (Reader.padded (Reader.between opening closing act)).andThen fun a =>
    body.map (.modal q strength a)

def modalRun (bottom : Reader Formula) : Nat → Reader Formula
  | 0 => fun _ => none
  | n + 1 =>
    Reader.firstOf (modalities.map (fun (q, strength) => modality q strength (modalRun bottom n)) ++
      [bottom])

def connective : Quantifier → List Char
  | .any => "||".toList
  | .all => "&&".toList

def junctionOf (q : Quantifier) (n : Nat) (part : Reader Formula) : Reader Formula :=
  (Reader.separated (connective q) n part).map (join q)

def binder (k : Extremum) (body : Reader Formula) : Reader Formula :=
  (Reader.padded (Reader.keyword k.keyword)).andThen fun _ =>
    variableName.andThen fun x =>
      (Reader.padded (Reader.word ['.'])).andThen fun _ => body.map (.fix k x)

/-- A formula of at most the given depth. The length of the text is depth enough, since every
level takes a character. -/
def formula : Nat → Reader Formula
  | 0 => fun _ => none
  | n + 1 =>
    Reader.padded (Reader.firstOf [
      binder .least (formula n),
      binder .greatest (formula n),
      junctionOf .any n (junctionOf .all n (modalRun (atom (formula n)) (n + 1)))])

/-- The whole text has to be read. -/
def read (text : List Char) : Option Formula :=
  match formula (text.length + 1) text with
  | some (f, []) => some f
  | _ => none

end Grammar

def parse (text : String) : Option Formula := Grammar.read text.toList

end Formula

end ProcessLogic
