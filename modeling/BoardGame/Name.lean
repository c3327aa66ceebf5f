/-! # Names

The kinds of names that a program declares, and the names that it cannot declare. -/

namespace BoardGame

inductive NameKind where
  | player
  | piece
  | rule
  | victory
  | moveMacro
  | predicate
  | effect
  | var
  | param
deriving DecidableEq

def NameKind.label : NameKind → String
  | player => "player"
  | piece => "piece"
  | rule => "rule for piece"
  | victory => "victory for player"
  | moveMacro => "macro"
  | predicate => "predicate"
  | effect => "effect"
  | var => "variable"
  | param => "parameter"

/-- The predicates without parameters that every program has. -/
def builtinNames : List String := ["empty", "enemy", "true"]

/-- The names that cannot be declared or assigned to. -/
def reservedNames : List String := ["Board", "this", "None", "empty", "enemy", "true"]

end BoardGame
