import BoardGame.Expr
import BoardGame.Grammar.Parser

/-! # The grammar of expressions

Four levels of binary operators, each grouped to the left, over operands with prefixed operators.
Brackets, indices and arguments nest; a nested expression comes after at least one more token, so
nesting is limited by the number of tokens. -/

namespace BoardGame.Parser

/-- The spellings of the operators of each level, the loosest level first. -/
def logicOperators : List (String × BinaryOp) :=
  [("and", .and), ("or", .or), ("&&", .and), ("||", .or)]

def comparisonOperators : List (String × BinaryOp) :=
  [("==", .eq), ("!=", .ne), ("<", .lt), ("<=", .le), (">", .gt), (">=", .ge)]

def sumOperators : List (String × BinaryOp) := [("+", .add), ("-", .sub)]

def productOperators : List (String × BinaryOp) :=
  [("*", .mul), ("/", .div), ("//", .floorDiv), ("%", .mod)]

def operatorWords : List String := ["and", "or", "not"]

def binaryOp (level : List (String × BinaryOp)) : Parser BinaryOp := do
  let t ← peek
  if t.kind = .operator ∨ t.kind = .word then
    match level.lookup t.literal with
    | some op =>
      advance
      return op
    | none => fail "operator"
  else fail "operator"

/-- `operand (op operand)*`, grouped to the left. -/
def leftAssoc (level : List (String × BinaryOp)) (operand : Parser Expr) : Parser Expr := do
  let first ← operand
  let rest ← many do
    let op ← binaryOp level
    let e ← operand
    return (op, e)
  return rest.foldl (fun left (op, right) => .binary op left right) first

def exprOver (operand : Parser Expr) : Parser Expr :=
  attempt <| leftAssoc logicOperators <| leftAssoc comparisonOperators <|
    leftAssoc sumOperators <| leftAssoc productOperators operand

def integer : Parser Int := do
  let t ← peek
  if t.kind = .integer then
    match readInt64? t.literal with
    | some n =>
      advance
      return n
    | none => fail TokenKind.integer.label
  else fail TokenKind.integer.label

/-- `name(args)` -/
def callOver (expr : Parser Expr) : Parser Call := attempt do
  let name ← word
  let args ← between "(" ")" (separatedOrNone expr)
  return ⟨name, args⟩

def indices (expr : Parser Expr) : Parser (List Expr) := many (between "[" "]" expr)

/-- `name`, `name.key` or `name[i]…[j]` -/
def variableOver (expr : Parser Expr) : Parser Expr := attempt do
  let name ← word
  if name ∈ operatorWords then fail "variable"
  else
    let key ← optional do
      operator "."
      word
    match key with
    | some key => return .field name key
    | none =>
      match ← indices expr with
      | [] => return .var name
      | is => return .index name is

/-- A call, an integer, a variable or an expression in brackets. -/
def core (expr : Parser Expr) : Parser Expr :=
  orElse (return (← callOver expr).toExpr) <|
  orElse (return .literal (← integer)) <|
  orElse (variableOver expr) <|
  orElse (between "(" ")" expr) (fail "expression")

def unaryOp : Parser UnaryOp := do
  let t ← peek
  if t.is .operator "!" ∨ t.is .word "not" then
    advance
    return .not
  else if t.is .operator "-" then
    advance
    return .neg
  else fail "expression"

/-- An operand nested at most this deep. -/
def operand : Nat → Parser Expr
  | 0 => stop
  | n + 1 =>
    orElse (do
      let op ← unaryOp
      let e ← operand n
      return .unary op e)
    (core (exprOver (operand n)))

def expr : Parser Expr := fun ts r => exprOver (operand (ts.size + 1)) ts r

def call : Parser Call := callOver expr

end BoardGame.Parser
