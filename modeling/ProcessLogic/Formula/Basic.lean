/-!
# Formulas

The modal mu-calculus over labelled transitions. Truth, falsity and the two sides of every other
connective are told apart by a parameter: diamonds and disjunctions ask for `any`, boxes and
conjunctions for `all`.
-/

set_option autoImplicit false

namespace ProcessLogic

/-- Selects the transitions a modality looks at. -/
inductive Act where
  | every
  | label (name : String)
  | except (name : String)
deriving DecidableEq, Repr

def Act.matches : Act → String → Bool
  | .every, _ => true
  | .label name, l => name == l
  | .except name, l => name != l

inductive Quantifier where
  | any
  | all
deriving DecidableEq, Repr

def Quantifier.dual : Quantifier → Quantifier
  | .any => .all
  | .all => .any

/-- Plain transitions, or transitions up to internal steps. -/
inductive Strength where
  | strong
  | weak
deriving DecidableEq, Repr

inductive Extremum where
  | least
  | greatest
deriving DecidableEq, Repr

def Extremum.dual : Extremum → Extremum
  | .least => .greatest
  | .greatest => .least

inductive Formula where
  | const (value : Bool)
  | var (name : String)
  | modal (q : Quantifier) (strength : Strength) (act : Act) (body : Formula)
  | junction (q : Quantifier) (parts : List Formula)
  | fix (kind : Extremum) (name : String) (body : Formula)
deriving Repr

namespace Formula

mutual

def decEq : (f g : Formula) → Decidable (f = g)
  | .const a, .const b =>
    if h : a = b then .isTrue (by rw [h]) else .isFalse (by simp [h])
  | .var x, .var y =>
    if h : x = y then .isTrue (by rw [h]) else .isFalse (by simp [h])
  | .modal q s a f, .modal r t b g =>
    if h : q = r ∧ s = t ∧ a = b then
      match decEq f g with
      | .isTrue e => .isTrue (by rw [h.1, h.2.1, h.2.2, e])
      | .isFalse e => .isFalse (by simp [e])
    else .isFalse (by simp only [modal.injEq]; exact fun e => h ⟨e.1, e.2.1, e.2.2.1⟩)
  | .junction q fs, .junction r gs =>
    if h : q = r then
      match decEqList fs gs with
      | .isTrue e => .isTrue (by rw [h, e])
      | .isFalse e => .isFalse (by simp [e])
    else .isFalse (by simp [h])
  | .fix k x f, .fix l y g =>
    if h : k = l ∧ x = y then
      match decEq f g with
      | .isTrue e => .isTrue (by rw [h.1, h.2, e])
      | .isFalse e => .isFalse (by simp [e])
    else .isFalse (by simp only [fix.injEq]; exact fun e => h ⟨e.1, e.2.1⟩)
  | .const _, .var _ | .const _, .modal .. | .const _, .junction .. | .const _, .fix ..
  | .var _, .const _ | .var _, .modal .. | .var _, .junction .. | .var _, .fix ..
  | .modal .., .const _ | .modal .., .var _ | .modal .., .junction .. | .modal .., .fix ..
  | .junction .., .const _ | .junction .., .var _ | .junction .., .modal ..
  | .junction .., .fix .. | .fix .., .const _ | .fix .., .var _ | .fix .., .modal ..
  | .fix .., .junction .. => .isFalse (by simp)

def decEqList : (fs gs : List Formula) → Decidable (fs = gs)
  | [], [] => .isTrue rfl
  | [], _ :: _ => .isFalse (by simp)
  | _ :: _, [] => .isFalse (by simp)
  | f :: fs, g :: gs =>
    match decEq f g, decEqList fs gs with
    | .isTrue h, .isTrue e => .isTrue (by rw [h, e])
    | .isFalse h, _ => .isFalse (by simp [h])
    | _, .isFalse e => .isFalse (by simp [e])

end

instance : DecidableEq Formula := decEq

/-- A junction without its trivial cases: of nothing it is a constant, of one part that part. -/
def join (q : Quantifier) : List Formula → Formula
  | [] => .const (q = .all)
  | [f] => f
  | fs => .junction q fs

mutual

/-- Whether `x` occurs free. -/
def mentions (x : String) : Formula → Bool
  | .const _ => false
  | .var y => x == y
  | .modal _ _ _ f => f.mentions x
  | .junction _ fs => mentionsAny x fs
  | .fix _ y f => x != y && f.mentions x

def mentionsAny (x : String) : List Formula → Bool
  | [] => false
  | f :: fs => f.mentions x || mentionsAny x fs

end

mutual

def size : Formula → Nat
  | .const _ | .var _ => 1
  | .modal _ _ _ f | .fix _ _ f => f.size + 1
  | .junction _ fs => sizes fs + 1

def sizes : List Formula → Nat
  | [] => 0
  | f :: fs => f.size + sizes fs

end

end Formula

end ProcessLogic
