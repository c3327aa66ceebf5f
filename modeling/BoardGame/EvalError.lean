import BoardGame.Name

/-! # Why an expression has no value -/

namespace BoardGame

inductive EvalError where
  | unknownVariable (name : String)
  | noField (name field : String)
  | notIndexable (name : String)
  | missingKey (name : String) (index : Int)
  | notAnInteger (name : String)
  /-- The board was indexed with this number of indices. -/
  | boardIndex (given : Nat)
  | divisionByZero
  | overflow
  | undefined (kind : NameKind) (name : String)
  | arity (name : String) (expected found : Nat)
  | notAnExpression (kind : NameKind) (name : String)
  /-- The name means something only on a tile. -/
  | noTile (name : String)
  /-- The name means something only while a player acts. -/
  | noPlayer (name : String)
  | noBoard
  | outOfBoard (x y : Int)
  | notAPiece (code : Int)
  /-- Definitions that call themselves nested too deep. -/
  | recursionLimit (name : String)
deriving DecidableEq

namespace EvalError

private def quoted (s : String) : String := "`" ++ s ++ "`"

def message : EvalError → String
  | unknownVariable name => "unknown variable " ++ quoted name
  | noField name field => quoted name ++ " has no field " ++ quoted field
  | notIndexable name => quoted name ++ " cannot be indexed"
  | missingKey name index => quoted name ++ " has no entry " ++ toString index
  | notAnInteger name => quoted name ++ " is a map, not an integer"
  | boardIndex given => "`Board` takes exactly 2 indices, but " ++ toString given ++ " given"
  | divisionByZero => "division by zero"
  | overflow => "integer overflow"
  | undefined kind name => "undefined " ++ kind.label ++ " " ++ quoted name
  | arity name expected found =>
    quoted name ++ " expects " ++ toString expected ++ " argument(s), but " ++ toString found ++
      " given"
  | notAnExpression kind name =>
    kind.label ++ " " ++ quoted name ++ " cannot be used in an integer expression"
  | noTile name => quoted name ++ " needs a board tile to be evaluated"
  | noPlayer name => quoted name ++ " needs an acting player to be evaluated"
  | noBoard => "the board is not available here"
  | outOfBoard x y => "tile (" ++ toString x ++ ", " ++ toString y ++ ") is outside the board"
  | notAPiece code => toString code ++ " is not a piece"
  | recursionLimit name => quoted name ++ " is nested too deep"

end EvalError
end BoardGame
