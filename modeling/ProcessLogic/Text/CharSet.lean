/-!
# Sets of characters

A set is the list of its runs, each by its first and last code point, in increasing order.
-/

set_option autoImplicit false

namespace ProcessLogic.Text

abbrev CharSet := List (Nat × Nat)

def CharSet.contains (set : CharSet) (c : Char) : Bool :=
  set.any fun run => run.1 ≤ c.toNat && c.toNat ≤ run.2

end ProcessLogic.Text
