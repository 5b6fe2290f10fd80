/-!
# Numerals

Decimal numbers of one machine word.
-/

set_option autoImplicit false

namespace ProcessLogic.Text

inductive NumeralError where
  | empty
  | digit
  | tooLarge
deriving DecidableEq, Repr

def NumeralError.message : NumeralError → String
  | .empty => "cannot parse integer from empty string"
  | .digit => "invalid digit found in string"
  | .tooLarge => "number too large to fit in target type"

/-- Machine words are below this bound. -/
def wordBound : Nat := 0x10000000000000000

def digit? (c : Char) : Option Nat :=
  if '0' ≤ c ∧ c ≤ '9' then some (c.toNat - '0'.toNat) else none

/-- Reads on from the value `n`. The first digit that is none, or that takes the value out of a
word, decides the error. -/
def readDigits (n : Nat) : List Char → Except NumeralError Nat
  | [] => .ok n
  | c :: s =>
    match digit? c with
    | none => .error .digit
    | some d => if 10 * n + d < wordBound then readDigits (10 * n + d) s else .error .tooLarge

/-- One plus sign may stand in front of the digits. -/
def readNumeral : List Char → Except NumeralError Nat
  | [] => .error .empty
  | ['+'] => .error .digit
  | '+' :: s => readDigits 0 s
  | s => readDigits 0 s

def numeral (n : Nat) : List Char := Nat.toDigits 10 n

end ProcessLogic.Text
