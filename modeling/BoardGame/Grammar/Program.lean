import BoardGame.Grammar.Movement
import BoardGame.Program

/-! # The grammar of programs -/

namespace BoardGame.Parser

/-- `(names)` -/
def params : Parser (List String) := between "(" ")" (separatedOrNone word)

def players : Parser (List (Spanned String)) := attempt do
  keyword "players"
  operator "="
  let players ← separated (spanned word)
  semicolon
  return players

/-- `name(owner)` -/
def piece : Parser PieceDecl := attempt do
  let name ← word
  let owner ← between "(" ")" word
  return ⟨name, owner⟩

def pieces : Parser (List (Spanned PieceDecl)) := attempt do
  keyword "pieces"
  operator "="
  let pieces ← separated (spanned piece)
  semicolon
  return pieces

def rule : Parser Declaration := attempt do
  keyword "rule"
  let piece ← word
  operator "="
  let movement ← movement
  semicolon
  return .rule ⟨piece, movement⟩

def moveMacro : Parser Declaration := attempt do
  keyword "macro"
  let name ← word
  let params ← params
  operator "="
  let body ← movement
  semicolon
  return .moveMacro ⟨name, params, body⟩

/-- `{ return expr; };` -/
def returnBlock : Parser Expr := attempt do
  symbol "\x7b"
  keyword "return"
  let value ← expr
  semicolon
  symbol "\x7d"
  semicolon
  return value

def predicate : Parser Declaration := attempt do
  keyword "predicate"
  let name ← word
  let params ← params
  let body ← returnBlock
  return .predicate ⟨name, params, body⟩

/-- `target[i]…[j] = value;` -/
def assignment : Parser Assignment := attempt do
  let target ← word
  let indices ← indices expr
  operator "="
  let value ← expr
  semicolon
  return ⟨target, indices, value⟩

def effect : Parser Declaration := attempt do
  keyword "effect"
  let name ← word
  let params ← params
  let assignments ← between "\x7b" "\x7d" (many assignment)
  semicolon
  return .effect ⟨name, params, assignments⟩

def variableDecl : Parser Declaration := attempt do
  keyword "variable"
  let name ← word
  operator "="
  let value ← expr
  semicolon
  return .var ⟨name, value⟩

def victory : Parser Declaration := attempt do
  keyword "victory"
  let player ← word
  let condition ← returnBlock
  return .victory ⟨player, condition⟩

/-- A declaration, told by its first word. -/
def declaration : Parser Declaration := do
  let t ← peek
  if t.is .word "rule" then rule
  else if t.is .word "macro" then moveMacro
  else if t.is .word "predicate" then predicate
  else if t.is .word "effect" then effect
  else if t.is .word "variable" then variableDecl
  else if t.is .word "victory" then victory
  else fail "declaration"

/-- `None`, or a piece, perhaps with its owner in brackets. -/
def cell : Parser Cell := attempt do
  let name ← word
  if name = "None" then return .empty
  else return .piece name (← optional (between "(" ")" word))

def board : Parser BoardDecl := attempt do
  keyword "board_size"
  operator "="
  let width ← integer
  comma
  let height ← integer
  semicolon
  keyword "board"
  operator "="
  let cells ← separated (spanned cell)
  semicolon
  return ⟨width, height, cells⟩

def program : Parser Program := attempt do
  let players ← players
  let pieces ← pieces
  let declarations ← many (spanned declaration)
  let board ← spanned board
  endOfInput
  return ⟨players, pieces, declarations, board⟩

end BoardGame.Parser
