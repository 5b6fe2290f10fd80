import ProcessLogic.Game.Bisimulation
import ProcessLogic.Marking.Level

/-!
# Distinguishing formulas

A formula that the left state of a game satisfies and the right one does not, read off the levels of
the game: at a pair the attacker follows a move of least level, and the formula of a move collects
those of all answers.
-/

set_option autoImplicit false

namespace ProcessLogic

structure Extraction where
  game : Game
  memo : List (NodeId × Formula) := []

/-- After a move of the left side no answer satisfies all the formulas; after a move of the right
side every answer satisfies one of them. -/
def Side.formula (side : Side) (label : String) (answers : List Formula) : Formula :=
  match side with
  | .left => .modal .any .strong (.label label) (.join .all answers)
  | .right => .modal .all .strong (.label label) (.join .any answers)

namespace Extraction

abbrev Step (α : Type) := Extraction → Run (Extraction × Except Refusal α)

/-- The formulas of several nodes, up to the first refusal. -/
def each (formula : NodeId → Step Formula) : List NodeId → Step (List Formula)
  | [], x => pure (x, .ok [])
  | node :: nodes, x => do
    match ← formula node x with
    | (x, .error e) => pure (x, .error e)
    | (x, .ok f) =>
      let (x, fs) ← each formula nodes x
      pure (x, fs.map (f :: ·))

/-- The target of least level in the hyperedge of least level. -/
def attack (levels : LevelMarking) (node : NodeId) (edges : List Hyperedge) :
    Except Refusal NodeId :=
  match levels.minimaxEdge edges with
  | none => .error (.noAttack node)
  | some i =>
    match firstBest Level.lt levels.level (edges[i]?.getD []) with
    | none => .error .noTarget
    | some target => .ok target

def remember (node : NodeId) (r : Extraction × Except Refusal Formula) :
    Extraction × Except Refusal Formula :=
  match r with
  | (x, .ok f) => ({ x with memo := (node, f) :: x.memo }, .ok f)
  | (x, .error e) => (x, .error e)

/-- The formula of a node. Levels fall along the way, so the number of nodes bounds the depth. -/
def formula (levels : LevelMarking) : Nat → NodeId → Step Formula
  | 0, _, _ => Run.fail .exhausted
  | fuel + 1, node, x =>
    match x.memo.lookup node, x.game.record? node with
    | some f, _ => pure (x, .ok f)
    | none, none => pure (x, .error .unknownNode)
    | none, some (.pair ..) => do
      let (game, edges) ← x.game.hyperedges node
      let x := { x with game }
      match attack levels node edges with
      | .error e => pure (x, .error e)
      | .ok target => do pure (remember node (← formula levels fuel target x))
    | none, some (.move side label ..) => do
      let (game, edges) ← x.game.hyperedges node
      let (x, fs) ← each (formula levels fuel) (edges.headD []) { x with game }
      pure (remember node (x, fs.map (side.formula label)))

end Extraction

/-- A formula that tells the states of the root apart, given the levels of the game. -/
def Game.distinguish (g : Game) (levels : LevelMarking) :
    Run (Game × Except Refusal Formula) :=
  if (levels.level root).isFinite then do
    let (x, f) ← Extraction.formula levels (g.system.capacity + 1) root { game := g }
    if let .ok f := f then Run.report (.distinguished f)
    pure (x.game, f)
  else pure (g, .error .bisimilar)

end ProcessLogic
