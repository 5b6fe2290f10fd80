import ProcessLogic.Text.Coded

/-!
# Listings

Texts of lists and sets: items between brackets or braces, strings in quotes.
-/

set_option autoImplicit false

namespace ProcessLogic.Text

def escaped (c : Char) : List Char :=
  if c = '"' then ['\\', '"']
  else if c = '\\' then ['\\', '\\']
  else if c = '\n' then ['\\', 'n']
  else if c = '\t' then ['\\', 't']
  else if c = '\r' then ['\\', 'r']
  else if c.toNat = 0 then ['\\', '0']
  else if isCoded c then "\\u\x7b".toList ++ Nat.toDigits 16 c.toNat ++ "\x7d".toList
  else [c]

def quoted (s : String) : String :=
  "\"" ++ String.ofList (s.toList.flatMap escaped) ++ "\""

def commas (items : List String) : String := ", ".intercalate items

def bracketed (items : List String) : String := "[" ++ commas items ++ "]"

def braced (items : List String) : String := "\x7b" ++ commas items ++ "\x7d"

end ProcessLogic.Text
