import BoardGame.Board
import BoardGame.Program

/-! # Definitions of a program -/

namespace BoardGame

structure PieceType where
  name : String
  owner : PlayerId
deriving DecidableEq, Inhabited

/-- What the names of a program stand for. Of two definitions of one name the earlier in the list
counts. -/
structure Definitions where
  players : List String := []
  pieces : List PieceType := []
  macros : List MoveMacro := []
  predicates : List Predicate := []
  effects : List Effect := []
  /-- The condition under which each player has won. -/
  victories : List (Option Expr) := []
deriving Inhabited

namespace Definitions

def pieceId? (d : Definitions) (name : String) : Option PieceId :=
  d.pieces.findIdx? (·.name = name)

def playerId? (d : Definitions) (name : String) : Option PlayerId :=
  d.players.findIdx? (· = name)

/-- The owner of a declared piece. -/
def owner (d : Definitions) (p : PieceId) : PlayerId := ((d.pieces[p]?).map (·.owner)).getD 0

def playerName (d : Definitions) (p : PlayerId) : String := d.players[p]?.getD ""

def pieceName (d : Definitions) (p : PieceId) : String := ((d.pieces[p]?).map (·.name)).getD ""

def moveMacro? (d : Definitions) (name : String) : Option MoveMacro :=
  d.macros.find? (·.name = name)

def predicate? (d : Definitions) (name : String) : Option Predicate :=
  d.predicates.find? (·.name = name)

def effect? (d : Definitions) (name : String) : Option Effect :=
  d.effects.find? (·.name = name)

/-- What the integer `code` says to be on a tile. -/
def pieceOfCode (d : Definitions) (code : Int) : Except EvalError (Option PieceId) :=
  if code = 0 then .ok none
  else if 0 < code ∧ code ≤ d.pieces.length then .ok (some (code - 1).toNat)
  else .error (.notAPiece code)

end Definitions
end BoardGame
