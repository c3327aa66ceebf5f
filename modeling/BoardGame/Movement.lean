import BoardGame.Expr

/-! # Movement expressions

A movement is a regular expression over letters. A letter is one step of a piece: an offset, a
condition on the tile stepped to, and what the step does to the game. -/

namespace BoardGame

/-- A condition on a tile: a bare name or a call of a predicate. -/
inductive Condition where
  | named (name : String)
  | call (call : Call)
deriving DecidableEq, Inhabited

structure Letter where
  dx : Expr
  dy : Expr
  condition : Condition
  effect : Option Call
deriving DecidableEq, Inhabited

inductive Movement where
  | letter (letter : Letter)
  | concat (left right : Movement)
  | union (left right : Movement)
  | star (inner : Movement)
  | plus (inner : Movement)
  | optional (inner : Movement)
  /-- The movement that a macro stands for. -/
  | expand (call : Call)
deriving DecidableEq, Inhabited

/-- The condition as an expression, nonzero where it holds. -/
def Condition.toExpr : Condition → Expr
  | named name => .var name
  | call c => c.toExpr

def Condition.render (c : Condition) : String := c.toExpr.render

/-- Writes a step with the given offset. -/
def renderStep (dx dy condition : String) (effect : Option Call) : String :=
  "(" ++ dx ++ ", " ++ dy ++ ", " ++ condition ++ ")" ++
    match effect with
    | none => ""
    | some e => "\x7b" ++ e.render ++ "\x7d"

def Letter.render (l : Letter) : String :=
  renderStep l.dx.render l.dy.render l.condition.render l.effect

/-- Writes a movement with brackets around unions and around what is repeated. -/
def Movement.render : Movement → String
  | letter l => l.render
  | concat left right => left.render ++ right.render
  | union left right => "(" ++ left.render ++ " | " ++ right.render ++ ")"
  | star inner => "(" ++ inner.render ++ ")*"
  | plus inner => "(" ++ inner.render ++ ")+"
  | optional inner => "(" ++ inner.render ++ ")?"
  | expand c => c.render

end BoardGame
