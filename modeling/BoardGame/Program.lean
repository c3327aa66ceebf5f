import BoardGame.Movement
import BoardGame.Text.Span

/-! # Programs

A program declares players, pieces and their movements, named definitions and the first board. -/

namespace BoardGame

structure PieceDecl where
  name : String
  owner : String
deriving DecidableEq, Inhabited

structure PieceRule where
  piece : String
  movement : Movement
deriving DecidableEq, Inhabited

structure MoveMacro where
  name : String
  params : List String
  body : Movement
deriving DecidableEq, Inhabited

structure Predicate where
  name : String
  params : List String
  body : Expr
deriving DecidableEq, Inhabited

/-- `target[i]…[j] = value` -/
structure Assignment where
  target : String
  indices : List Expr
  value : Expr
deriving DecidableEq, Inhabited

structure Effect where
  name : String
  params : List String
  assignments : List Assignment
deriving DecidableEq, Inhabited

structure VariableDecl where
  name : String
  value : Expr
deriving DecidableEq, Inhabited

structure Victory where
  player : String
  condition : Expr
deriving DecidableEq, Inhabited

inductive Declaration where
  | rule (rule : PieceRule)
  | moveMacro (definition : MoveMacro)
  | predicate (definition : Predicate)
  | effect (definition : Effect)
  | var (decl : VariableDecl)
  | victory (victory : Victory)
deriving DecidableEq, Inhabited

/-- What a tile of the first board holds. A piece may repeat the name of its owner. -/
inductive Cell where
  | empty
  | piece (name : String) (owner : Option String)
deriving DecidableEq, Inhabited

/-- The first board. Cells are listed row by row from the top. -/
structure BoardDecl where
  width : Int
  height : Int
  cells : List (Spanned Cell)
deriving DecidableEq, Inhabited

/-- The sides of the board, if they are positive and its cells can be counted in a machine word. -/
def BoardDecl.sides? (b : BoardDecl) : Option (Nat × Nat) :=
  if 0 < b.width ∧ 0 < b.height ∧ b.width * b.height < 0x10000000000000000 then
    some (b.width.toNat, b.height.toNat)
  else none

structure Program where
  players : List (Spanned String)
  pieces : List (Spanned PieceDecl)
  declarations : List (Spanned Declaration)
  board : Spanned BoardDecl
deriving DecidableEq, Inhabited

namespace Program

def rules (p : Program) : List PieceRule :=
  p.declarations.filterMap fun d => match d.value with
    | .rule r => some r
    | _ => none

def macros (p : Program) : List MoveMacro :=
  p.declarations.filterMap fun d => match d.value with
    | .moveMacro m => some m
    | _ => none

def predicates (p : Program) : List Predicate :=
  p.declarations.filterMap fun d => match d.value with
    | .predicate q => some q
    | _ => none

def effects (p : Program) : List Effect :=
  p.declarations.filterMap fun d => match d.value with
    | .effect e => some e
    | _ => none

def variableDecls (p : Program) : List VariableDecl :=
  p.declarations.filterMap fun d => match d.value with
    | .var v => some v
    | _ => none

def victories (p : Program) : List Victory :=
  p.declarations.filterMap fun d => match d.value with
    | .victory v => some v
    | _ => none

end Program

/-! ## Printing -/

def PieceDecl.render (p : PieceDecl) : String := p.name ++ "(" ++ p.owner ++ ")"

def Assignment.render (a : Assignment) : String :=
  a.target ++ Expr.renderIndices a.indices ++ " = " ++ a.value.render ++ ";"

def renderHead (name : String) (params : List String) : String :=
  name ++ "(" ++ commaSeparated params ++ ")"

def renderReturn (value : Expr) : String :=
  "\x7b return " ++ value.render ++ "; \x7d;"

def Declaration.render : Declaration → String
  | rule r => "rule " ++ r.piece ++ " = " ++ r.movement.render ++ ";"
  | moveMacro m => "macro " ++ renderHead m.name m.params ++ " = " ++ m.body.render ++ ";"
  | predicate p => "predicate " ++ renderHead p.name p.params ++ " " ++ renderReturn p.body
  | effect e =>
    "effect " ++ renderHead e.name e.params ++ " \x7b" ++
      String.join (e.assignments.map fun a => " " ++ a.render) ++ " \x7d;"
  | var v => "variable " ++ v.name ++ " = " ++ v.value.render ++ ";"
  | victory v => "victory " ++ v.player ++ " " ++ renderReturn v.condition

def Cell.render : Cell → String
  | empty => "None"
  | piece name none => name
  | piece name (some owner) => name ++ "(" ++ owner ++ ")"

/-- The lines of a program, each ended by a line feed. -/
def Program.render (p : Program) : String :=
  let lines :=
    ["players = " ++ commaSeparated (p.players.map (·.value)) ++ ";",
      "pieces = " ++ commaSeparated (p.pieces.map (·.value.render)) ++ ";"] ++
    p.declarations.map (·.value.render) ++
    ["board_size = " ++ toString p.board.value.width ++ ", " ++ toString p.board.value.height ++ ";",
      "board = " ++ commaSeparated (p.board.value.cells.map (·.value.render)) ++ ";"]
  String.join (lines.map (· ++ "\n"))

end BoardGame
