import ProcessLogic.Formula.Basic
import ProcessLogic.Text.Alphanumeric

/-!
# Printing formulas

A formula is wrapped in parentheses where its context binds at least as tightly as its own
connective. A label that could be read as something else is quoted.
-/

set_option autoImplicit false

namespace ProcessLogic

def plainLabel (label : List Char) : Bool :=
  label ≠ [] && label ≠ "true".toList && label.all fun c => Text.isAlphanumeric c || c == '_'

def escapeLabel (c : Char) : List Char :=
  if c = '"' ∨ c = '\\' then ['\\', c] else [c]

def renderLabel (label : String) : List Char :=
  if plainLabel label.toList then label.toList
  else '"' :: label.toList.flatMap escapeLabel ++ ['"']

def Act.render : Act → List Char
  | .every => "true".toList
  | .label l => renderLabel l
  | .except l => '!' :: renderLabel l

def Act.text (a : Act) : String := String.ofList a.render

def Extremum.keyword : Extremum → List Char
  | .least => "mu".toList
  | .greatest => "nu".toList

/-- Brackets of a modality. -/
def modalBrackets : Quantifier → Strength → List Char × List Char
  | .any, .strong => ("<".toList, ">".toList)
  | .all, .strong => ("[".toList, "]".toList)
  | .any, .weak => ("<<".toList, ">>".toList)
  | .all, .weak => ("[[".toList, "]]".toList)

def Quantifier.separator : Quantifier → List Char
  | .any => " || ".toList
  | .all => " && ".toList

/-- How tightly a context binds, loosest first. -/
inductive Binding where
  | outer
  | fix
  | or
  | and
  | modal
deriving DecidableEq, Repr

def Binding.level : Binding → Nat
  | .outer => 0
  | .fix => 1
  | .or => 2
  | .and => 3
  | .modal => 4

def Quantifier.binding : Quantifier → Binding
  | .any => .or
  | .all => .and

def constText (value : Bool) : List Char :=
  if value then "tt".toList else "ff".toList

def parenthesized (needed : Bool) (s : List Char) : List Char :=
  if needed then '(' :: s ++ [')'] else s

namespace Formula

mutual

def render (context : Binding) : Formula → List Char
  | .const value => constText value
  | .var x => x.toList
  | .modal q strength a f =>
    (modalBrackets q strength).1 ++ a.render ++ (modalBrackets q strength).2 ++ f.render .modal
  | .junction q fs =>
    match fs with
    | [] => constText (q = .all)
    | [f] => f.render q.binding
    | f :: g :: fs =>
      parenthesized (q.binding.level ≤ context.level)
        (f.render q.binding ++ renderRest q (g :: fs))
  | .fix k x f =>
    parenthesized (Binding.fix.level ≤ context.level)
      (k.keyword ++ ' ' :: x.toList ++ ". ".toList ++ f.render .outer)

/-- Further parts of a junction, each behind the connective. -/
def renderRest (q : Quantifier) : List Formula → List Char
  | [] => []
  | f :: fs => q.separator ++ f.render q.binding ++ renderRest q fs

end

def text (f : Formula) : String := String.ofList (f.render .outer)

end Formula

end ProcessLogic
