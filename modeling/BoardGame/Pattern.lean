import BoardGame.Movement

/-! # Patterns

A pattern is a movement with its macros expanded. Its letters are steps: the offset is a number, and
the condition and the arguments of the effect are folded, so equal steps have equal text. -/

namespace BoardGame

structure Step where
  dx : Int
  dy : Int
  /-- Evaluated on the tile stepped to. -/
  condition : Expr
  effect : Option Call
deriving DecidableEq, Inhabited

inductive Pattern where
  | step (step : Step)
  | concat (left right : Pattern)
  | union (left right : Pattern)
  | star (inner : Pattern)
  | plus (inner : Pattern)
  | optional (inner : Pattern)
deriving DecidableEq, Inhabited

def Step.render (s : Step) : String :=
  renderStep (toString s.dx) (toString s.dy) s.condition.render s.effect

def Pattern.render : Pattern → String
  | step s => s.render
  | concat left right => left.render ++ right.render
  | union left right => "(" ++ left.render ++ " | " ++ right.render ++ ")"
  | star inner => "(" ++ inner.render ++ ")*"
  | plus inner => "(" ++ inner.render ++ ")+"
  | optional inner => "(" ++ inner.render ++ ")?"

end BoardGame
