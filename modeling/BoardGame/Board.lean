import BoardGame.EvalError

/-! # Boards

A board of tiles `(x, y)` with `x` from 0 to `width` and `y` from 0 to `height`, exclusive. Tiles are
listed column by column. -/

namespace BoardGame

/-- A kind of piece, by its number in the order of declaration. -/
abbrev PieceId := Nat

/-- A player, by its number in the order of turns. -/
abbrev PlayerId := Nat

abbrev Tile := Int × Int

/-- The integer that stands for what is on a tile: 0 for nothing. -/
def pieceCode : Option PieceId → Int
  | none => 0
  | some p => p + 1

structure Board where
  width : Nat
  height : Nat
  cells : Array (Option PieceId)
deriving DecidableEq, Inhabited

namespace Board

def empty (width height : Nat) : Board := ⟨width, height, Array.replicate (width * height) none⟩

/-- The place of a tile in the list of cells. -/
def index? (b : Board) (t : Tile) : Option Nat :=
  if 0 ≤ t.1 ∧ t.1 < b.width ∧ 0 ≤ t.2 ∧ t.2 < b.height then
    some (t.1.toNat * b.height + t.2.toNat)
  else none

def contains (b : Board) (t : Tile) : Bool := (b.index? t).isSome

def get (b : Board) (t : Tile) : Except EvalError (Option PieceId) :=
  match b.index? t with
  | some i => .ok (b.cells.getD i none)
  | none => .error (.outOfBoard t.1 t.2)

def set (b : Board) (t : Tile) (p : Option PieceId) : Except EvalError Board :=
  match b.index? t with
  | some i => .ok { b with cells := b.cells.setIfInBounds i p }
  | none => .error (.outOfBoard t.1 t.2)

/-- The pieces with their tiles, by `x` and then by `y`. -/
def pieces (b : Board) : List (Tile × PieceId) :=
  b.cells.toList.zipIdx.filterMap fun (cell, i) =>
    cell.map fun p => (((i / b.height : Nat), (i % b.height : Nat)), p)

end Board
end BoardGame
