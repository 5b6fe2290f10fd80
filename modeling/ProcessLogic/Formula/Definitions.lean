import ProcessLogic.Formula.Basic

/-!
# Definitions

The fixpoints of a formula, under the names they bind. A formula is refused if it binds a name
twice, uses one outside its fixpoint, or lets a fixpoint depend on an enclosing one of the other
kind.
-/

set_option autoImplicit false

namespace ProcessLogic

inductive ScopeError where
  | unbound (name : String)
  | boundTwice (name : String)
  | alternating (name outer : String)
deriving DecidableEq, Repr

def ScopeError.message : ScopeError → String
  | .unbound x => s!"Variable {x} not in scope"
  | .boundTwice x => s!"Variable {x} declared twice"
  | .alternating x y => s!"Formula is not alternation-free: {x} depends on {y}"

/-- Names with the fixpoints that bind them, in the order of the text. -/
abbrev Definitions := List (String × Formula)

namespace Definitions

def find? (d : Definitions) (x : String) : Option Formula := d.lookup x

def size (d : Definitions) : Nat := Formula.sizes (d.map (·.2))

end Definitions

/-- Enclosing binders, the outermost first. -/
abbrev Scope := List (String × Extremum)

/-- The outermost binder of the other kind that the body depends on. -/
def Scope.conflict? (scope : Scope) (kind : Extremum) (body : Formula) : Option String :=
  (scope.find? fun (y, outer) => outer ≠ kind && body.mentions y).map (·.1)

namespace Formula

mutual

/-- Adds the definitions of a formula to those already gathered. -/
def gather (scope : Scope) : Formula → Definitions → Except ScopeError Definitions
  | .const _, d => .ok d
  | .var x, d => if scope.any fun (y, _) => y = x then .ok d else .error (.unbound x)
  | .modal _ _ _ f, d => f.gather scope d
  | .junction _ fs, d => gatherAll scope fs d
  | .fix k x f, d =>
    if (d.find? x).isSome then .error (.boundTwice x)
    else
      match scope.conflict? k f with
      | some y => .error (.alternating x y)
      | none => f.gather (scope ++ [(x, k)]) (d ++ [(x, .fix k x f)])

def gatherAll (scope : Scope) : List Formula → Definitions → Except ScopeError Definitions
  | [], d => .ok d
  | f :: fs, d =>
    match f.gather scope d with
    | .ok d => gatherAll scope fs d
    | .error e => .error e

end

def definitions (f : Formula) : Except ScopeError Definitions := f.gather [] []

end Formula

end ProcessLogic
