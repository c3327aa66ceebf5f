import BoardGame.Game.Moves
import BoardGame.Json

/-! # Views of a game -/

namespace BoardGame

/-- A board as planes, one for each kind of piece, with 1 where it stands. -/
structure Planes where
  pieces : Nat
  width : Nat
  height : Nat
  /-- Plane by plane, column by column. -/
  data : Array Nat
deriving DecidableEq, Inhabited

namespace Planes

/-- The place of a tile in the plane of a piece. -/
def index (p : Planes) (piece x y : Nat) : Nat := (piece * p.width + x) * p.height + y

def get (p : Planes) (piece x y : Nat) : Nat := p.data.getD (p.index piece x y) 0

end Planes

namespace Game

def planes (g : Game) : Planes :=
  let blank : Planes :=
    { pieces := g.rules.pieces.length, width := g.board.width, height := g.board.height
      data := Array.replicate (g.rules.pieces.length * g.board.width * g.board.height) 0 }
  g.board.pieces.foldl (fun p (t, piece) =>
    { p with data := p.data.setIfInBounds (p.index piece t.1.toNat t.2.toNat) 1 }) blank

/-- The names of the pieces on the board, column by column, `None` for an empty tile. -/
def boardView (g : Game) : JsonValue :=
  .list <| (List.range g.board.width).map fun (x : Nat) =>
    .list <| (List.range g.board.height).map fun (y : Nat) =>
      match g.board.get (x, y) with
      | .ok (some piece) => .text (((g.rules.pieces[piece]?).map (·.name)).getD "")
      | _ => .text "None"

end Game

def Step.view (s : Step) : JsonValue :=
  .object [
    ("dx", .int s.dx), ("dy", .int s.dy),
    ("effect", (s.effect.map fun c => .text c.render).getD .null)]

def Move.view (m : Move) : JsonValue :=
  .object [
    ("letters", .list (m.steps.map Step.view)),
    ("start", .list [.int m.start.1, .int m.start.2])]

/-- The position with all moves of the player whose turn it is. -/
def Play.view : Play JsonValue := do
  let moves ← generateMoves
  let g ← game
  return .object [
    ("board", g.boardView), ("moves", .list (moves.map Move.view)),
    ("player", .text (g.playerName g.turn))]

end BoardGame
