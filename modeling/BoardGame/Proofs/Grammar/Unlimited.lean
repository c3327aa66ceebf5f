import BoardGame.Grammar.Program

/-!
# The grammar without limits

Loops go on until their body fails, and expressions and movements nest. The parsers stop a loop at a round
that reads nothing, and the nesting at the number of tokens. These are the same productions without the two
limits. A run is given fuel instead, which bounds the rounds of each loop and the depth, and does not end
(`none`) where the fuel is not enough; of one that ends the rounds of all loops are known.
-/

namespace BoardGame

/-- What comes of a run that ends. -/
structure Process.Outcome (α : Type) where
  result : Option α
  reader : Reader
  /-- The cursors before and after each round that a loop has made, also in attempts that failed. -/
  rounds : List (Nat × Nat)

/-- The outcome behind rounds that were made before. -/
def Process.Outcome.behind {α : Type} (rounds : List (Nat × Nat)) (o : Process.Outcome α) : Process.Outcome α :=
  { o with rounds := rounds ++ o.rounds }

/-- A parser that is stopped by nothing but the end of its fuel. -/
def Process (α : Type) := Nat → Array Token → Reader → Option (Process.Outcome α)

namespace Process
open BoardGame.Parser
variable {α β : Type}

instance : Monad Process where
  pure a := fun _ _ r => some ⟨some a, r, []⟩
  bind x k := fun n ts r => do
    let o ← x n ts r
    match o.result with
    | some a => (k a n ts o.reader).map (.behind o.rounds)
    | none => some ⟨none, o.reader, o.rounds⟩

/-- A parser with no loops that does not nest. -/
instance : MonadLift Parser Process where
  monadLift p := fun _ ts r => some ⟨(p ts r).1, (p ts r).2, []⟩

def attempt (x : Process α) : Process α := fun n ts r => do
  let o ← x n ts r
  match o.result with
  | some _ => some o
  | none => some { o with reader := { o.reader with cursor := r.cursor } }

def orElse (x y : Process α) : Process α := fun n ts r => do
  let o ← attempt x n ts r
  match o.result with
  | some _ => some o
  | none => (y n ts o.reader).map (.behind o.rounds)

def optional (x : Process α) : Process (Option α) := fun n ts r =>
  (attempt x n ts r).map fun o => ⟨some o.result, o.reader, o.rounds⟩

/-- Everything that `x` reads until it fails, if that takes fewer than this many rounds. -/
def manyWithin (x : Process α) (n : Nat) : Nat → Array Token → Reader → Option (Outcome (List α))
  | 0, _, _ => none
  | k + 1, ts, r => do
    let o ← attempt x n ts r
    match o.result with
    | some a =>
      (manyWithin x n k ts o.reader).map fun rest =>
        ⟨rest.result.map (a :: ·), rest.reader, o.rounds ++ (r.cursor, o.reader.cursor) :: rest.rounds⟩
    | none => some ⟨some [], o.reader, o.rounds⟩

def many (x : Process α) : Process (List α) := fun n => manyWithin x n n

def spanned (x : Process α) : Process (Spanned α) := do
  let first ← peek
  let a ← attempt x
  let stop ← lastStop
  return ⟨a, first.position.offset, max stop first.position.offset⟩

def separated (x : Process α) : Process (List α) := attempt do
  let first ← x
  let rest ← many do
    comma
    x
  return first :: rest

def separatedOrNone (x : Process α) : Process (List α) := do
  return (← optional (separated x)).getD []

def between (left right : String) (x : Process α) : Process α := attempt do
  symbol left
  let a ← x
  symbol right
  return a

section
variable {x y : Process α} {k : α → Process β} {n m : Nat} {ts : Array Token} {r s : Reader} {a : α}
  {rounds : List (Nat × Nat)}

theorem bind_of_some (h : x n ts r = some ⟨some a, s, rounds⟩) :
    (x >>= k) n ts r = (k a n ts s).map (.behind rounds) := by
  simp only [Bind.bind, h, Option.bind_some]

theorem bind_of_none (h : x n ts r = some ⟨none, s, rounds⟩) : (x >>= k) n ts r = some ⟨none, s, rounds⟩ := by
  simp only [Bind.bind, h, Option.bind_some]

theorem attempt_of_some (h : x n ts r = some ⟨some a, s, rounds⟩) :
    attempt x n ts r = some ⟨some a, s, rounds⟩ := by
  simp only [attempt, Bind.bind, h, Option.bind_some]

theorem attempt_of_none (h : x n ts r = some ⟨none, s, rounds⟩) :
    attempt x n ts r = some ⟨none, { s with cursor := r.cursor }, rounds⟩ := by
  simp only [attempt, Bind.bind, h, Option.bind_some]

theorem orElse_of_some (h : x n ts r = some ⟨some a, s, rounds⟩) :
    orElse x y n ts r = some ⟨some a, s, rounds⟩ := by
  simp only [orElse, attempt_of_some h, Bind.bind, Option.bind_some]

theorem orElse_of_none (h : x n ts r = some ⟨none, s, rounds⟩) :
    orElse x y n ts r = (y n ts { s with cursor := r.cursor }).map (.behind rounds) := by
  simp only [orElse, attempt_of_none h, Bind.bind, Option.bind_some]

theorem manyWithin_of_some (h : x n ts r = some ⟨some a, s, rounds⟩) :
    manyWithin x n (m + 1) ts r = (manyWithin x n m ts s).map fun rest =>
      ⟨rest.result.map (a :: ·), rest.reader, rounds ++ (r.cursor, s.cursor) :: rest.rounds⟩ := by
  simp only [manyWithin, attempt_of_some h, Bind.bind, Option.bind_some]

theorem manyWithin_of_none (h : x n ts r = some ⟨none, s, rounds⟩) :
    manyWithin x n (m + 1) ts r = some ⟨some [], { s with cursor := r.cursor }, rounds⟩ := by
  simp only [manyWithin, attempt_of_none h, Bind.bind, Option.bind_some]

end

/-! ### Expressions -/

def leftAssoc (level : List (String × BinaryOp)) (operand : Process Expr) : Process Expr := do
  let first ← operand
  let rest ← many do
    let op ← binaryOp level
    let e ← operand
    return (op, e)
  return rest.foldl (fun left (op, right) => .binary op left right) first

def exprOver (operand : Process Expr) : Process Expr :=
  attempt <| leftAssoc logicOperators <| leftAssoc comparisonOperators <|
    leftAssoc sumOperators <| leftAssoc productOperators operand

def callOver (expr : Process Expr) : Process Call := attempt do
  let name ← word
  let args ← between "(" ")" (separatedOrNone expr)
  return ⟨name, args⟩

def indices (expr : Process Expr) : Process (List Expr) := many (between "[" "]" expr)

def variableOver (expr : Process Expr) : Process Expr := attempt do
  let name ← word
  if name ∈ operatorWords then fail "variable"
  else
    let key ← optional do
      operator "."
      word
    match key with
    | some key => return .field name key
    | none =>
      match ← indices expr with
      | [] => return .var name
      | is => return .index name is

def core (expr : Process Expr) : Process Expr :=
  orElse (return (← callOver expr).toExpr) <|
  orElse (return .literal (← integer)) <|
  orElse (variableOver expr) <|
  orElse (between "(" ")" expr) (do fail "expression")

/-- An operand, if it nests less deep than this. -/
def operand : Nat → Process Expr
  | 0 => fun _ _ _ => none
  | n + 1 =>
    orElse (do
      let op ← unaryOp
      let e ← operand n
      return .unary op e)
    (core (exprOver (operand n)))

def expr : Process Expr := fun n => exprOver (operand n) n

def call : Process Call := callOver expr

/-! ### Movements -/

def condition : Process Condition :=
  orElse (return .call (← call)) (return .named (← word))

def letter : Process Letter := attempt do
  symbol "("
  let dx ← expr
  comma
  let dy ← expr
  comma
  let condition ← condition
  symbol ")"
  let effect ← optional (between "\x7b" "\x7d" call)
  return ⟨dx, dy, condition, effect⟩

def term (movement : Process Movement) : Process Movement :=
  orElse (return .expand (← call)) <|
  orElse (between "(" ")" movement) (return .letter (← letter))

def repeated (movement : Process Movement) : Process Movement := attempt do
  let inner ← term movement
  match repetition? (← peek) with
  | some wrap =>
    advance
    return wrap inner
  | none => return inner

def concatenation (movement : Process Movement) : Process Movement := attempt do
  let first ← repeated movement
  let rest ← many (repeated movement)
  return concatAll first rest

/-- A movement, if it nests less deep than this. -/
def movementWithin : Nat → Process Movement
  | 0 => fun _ _ _ => none
  | n + 1 => attempt do
    let left ← concatenation (movementWithin n)
    let right ← optional do
      operator "|"
      movementWithin n
    match right with
    | some right => return .union left right
    | none => return left

def movement : Process Movement := fun n => movementWithin n n

/-! ### Programs -/

def params : Process (List String) := between "(" ")" (separatedOrNone (do word))

def players : Process (List (Spanned String)) := attempt do
  keyword "players"
  operator "="
  let players ← separated (spanned (do word))
  semicolon
  return players

def pieces : Process (List (Spanned PieceDecl)) := attempt do
  keyword "pieces"
  operator "="
  let pieces ← separated (spanned (do piece))
  semicolon
  return pieces

def rule : Process Declaration := attempt do
  keyword "rule"
  let piece ← word
  operator "="
  let movement ← movement
  semicolon
  return .rule ⟨piece, movement⟩

def moveMacro : Process Declaration := attempt do
  keyword "macro"
  let name ← word
  let params ← params
  operator "="
  let body ← movement
  semicolon
  return .moveMacro ⟨name, params, body⟩

def returnBlock : Process Expr := attempt do
  symbol "\x7b"
  keyword "return"
  let value ← expr
  semicolon
  symbol "\x7d"
  semicolon
  return value

def predicate : Process Declaration := attempt do
  keyword "predicate"
  let name ← word
  let params ← params
  let body ← returnBlock
  return .predicate ⟨name, params, body⟩

def assignment : Process Assignment := attempt do
  let target ← word
  let indices ← indices expr
  operator "="
  let value ← expr
  semicolon
  return ⟨target, indices, value⟩

def effect : Process Declaration := attempt do
  keyword "effect"
  let name ← word
  let params ← params
  let assignments ← between "\x7b" "\x7d" (many assignment)
  semicolon
  return .effect ⟨name, params, assignments⟩

def variableDecl : Process Declaration := attempt do
  keyword "variable"
  let name ← word
  operator "="
  let value ← expr
  semicolon
  return .var ⟨name, value⟩

def victory : Process Declaration := attempt do
  keyword "victory"
  let player ← word
  let condition ← returnBlock
  return .victory ⟨player, condition⟩

def declaration : Process Declaration := do
  let t ← peek
  if t.is .word "rule" then rule
  else if t.is .word "macro" then moveMacro
  else if t.is .word "predicate" then predicate
  else if t.is .word "effect" then effect
  else if t.is .word "variable" then variableDecl
  else if t.is .word "victory" then victory
  else fail "declaration"

def board : Process BoardDecl := attempt do
  keyword "board_size"
  operator "="
  let width ← integer
  comma
  let height ← integer
  semicolon
  keyword "board"
  operator "="
  let cells ← separated (spanned (do cell))
  semicolon
  return ⟨width, height, cells⟩

def program : Process Program := attempt do
  let players ← players
  let pieces ← pieces
  let declarations ← many (spanned declaration)
  let board ← spanned board
  endOfInput
  return ⟨players, pieces, declarations, board⟩

end Process
end BoardGame
