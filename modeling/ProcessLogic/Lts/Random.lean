import ProcessLogic.Lts.Basic
import ProcessLogic.Numbering
import ProcessLogic.Text.Numeral

/-!
# Random systems

Every state gets the same number of distinct transitions, drawn from a source of random numbers. The
source in use has random words: a script followed, if there is a seed, by the splitmix64 sequence.
-/

set_option autoImplicit false

namespace ProcessLogic

structure Source where
  script : List UInt64
  seed : Option UInt64
  used : Nat := 0
deriving DecidableEq, Repr

namespace Source

/-- The state after a splitmix64 step. -/
def nextSeed (s : UInt64) : UInt64 := s + 0x9e3779b97f4a7c15

/-- The word drawn in a splitmix64 state. -/
def mix (s : UInt64) : UInt64 :=
  let z := (s ^^^ (s >>> 30)) * 0xbf58476d1ce4e5b9
  let z := (z ^^^ (z >>> 27)) * 0x94d049bb133111eb
  z ^^^ (z >>> 31)

def draw (s : Source) : Except Fault (UInt64 × Source) :=
  match s.script, s.seed with
  | w :: script, _ => .ok (w, { s with script, used := s.used + 1 })
  | [], some seed =>
    let seed := nextSeed seed
    .ok (mix seed, { s with seed := some seed, used := s.used + 1 })
  | [], none => .error .drawsExhausted

/-- Words are drawn again while the low half of their product with `n` is above this. -/
def zone (n : Nat) : Nat := n <<< (63 - n.log2) - 1

/-- Draws a number below `n`. -/
def below (n : Nat) : Nat → Source → Except Fault (Nat × Source)
  | 0, _ => .error .exhausted
  | fuel + 1, s => do
    let (w, s) ← s.draw
    let product := w.toNat * n
    if product % Text.wordBound ≤ zone n then pure (product / Text.wordBound, s)
    else below n fuel s

/-- No run makes more draws than half the words there are. -/
def drawBound : Nat := 0x7FFFFFFFFFFFFFFF

end Source

namespace Lts

/-- What is asked of the counts before anything is drawn. The number of distinct transitions that a
state can have has to fit into a word. -/
def checkCounts (states count labels : Nat) : Except Fault Unit :=
  if states = 0 then .error .noStates
  else if Text.wordBound ≤ states * labels then .error .overflow
  else if states * labels < count then .error .tooFewTransitions
  else .ok ()

/-- The transitions for pairs of label and target. -/
def rowOf (pairs : Numbering (Nat × Nat)) : List Transition :=
  pairs.toList.map fun p => ⟨toString p.1, p.2⟩

section

-- `draw n` takes a number below `n` from a source
variable {σ : Type} (draw : Nat → σ → Except Fault (Nat × σ))

/-- Draws distinct pairs of label and target until there are `count`. The rounds that are left are
given back. -/
@[specialize] def randomRow (states labels count : Nat) :
    Nat → Numbering (Nat × Nat) → σ → Except Fault (Numbering (Nat × Nat) × Nat × σ)
  | 0, _, _ => .error .exhausted
  | fuel + 1, seen, source =>
    if seen.size < count then do
      let (target, source) ← draw states source
      let (label, source) ← draw labels source
      randomRow states labels count fuel (seen.insert (label, target)) source
    else pure (seen, fuel, source)

/-- Draws the given number of rows, behind those drawn before. All of them share the rounds. -/
@[specialize] def randomRows (states labels count : Nat) :
    Nat → Nat → Table (List Transition) → σ → Except Fault (Table (List Transition) × σ)
  | 0, _, rows, source => pure (rows, source)
  | n + 1, rounds, rows, source => do
    let (pairs, rounds, source) ← randomRow draw states labels count rounds {} source
    randomRows states labels count n rounds (rows.push (rowOf pairs)) source

/-- A system of `states` states with `count` distinct transitions each, labelled by numbers below
`labels`, in at most the given number of rounds. -/
@[specialize] def randomFrom (rounds states count labels : Nat) (source : σ) :
    Except Fault (Lts × σ) := do
  checkCounts states count labels
  Table.checkedRows states
  let (rows, source) ← randomRows draw states labels count states rounds #[] source
  pure (⟨0, rows⟩, source)

end

def random (states count labels : Nat) (source : Source) : Except Fault (Lts × Source) :=
  randomFrom (fun n => Source.below n Source.drawBound) Source.drawBound states count labels source

end Lts

end ProcessLogic
