import BoardGame.Grammar.Expr
import BoardGame.Movement

/-! # The grammar of movements

Unions bind loosest and group to the right, as concatenations do; `*`, `+` and `?` bind tightest.
A bracket opens a group if a movement stands in it, and a letter otherwise. -/

namespace BoardGame.Parser

/-- A call, or else a bare name. -/
def condition : Parser Condition :=
  orElse (return .call (← call)) (return .named (← word))

/-- `(dx, dy, condition)`, perhaps with `{effect}`. -/
def letter : Parser Letter := attempt do
  symbol "("
  let dx ← expr
  comma
  let dy ← expr
  comma
  let condition ← condition
  symbol ")"
  let effect ← optional (between "\x7b" "\x7d" call)
  return ⟨dx, dy, condition, effect⟩

/-- A macro call, a movement in brackets or a letter. -/
def term (movement : Parser Movement) : Parser Movement :=
  orElse (return .expand (← call)) <|
  orElse (between "(" ")" movement) (return .letter (← letter))

/-- What the operator after a term makes of it. -/
def repetition? (t : Token) : Option (Movement → Movement) :=
  if t.is .operator "*" then some .star
  else if t.is .operator "+" then some .plus
  else if t.is .operator "?" then some .optional
  else none

/-- A term, perhaps with one of `*`, `+` and `?`. -/
def repeated (movement : Parser Movement) : Parser Movement := attempt do
  let inner ← term movement
  match repetition? (← peek) with
  | some wrap =>
    advance
    return wrap inner
  | none => return inner

/-- The concatenation of one or more movements, grouped to the right. -/
def concatAll : Movement → List Movement → Movement
  | m, [] => m
  | m, n :: ns => .concat m (concatAll n ns)

def concatenation (movement : Parser Movement) : Parser Movement := attempt do
  let first ← repeated movement
  let rest ← many (repeated movement)
  return concatAll first rest

/-- A movement nested at most this deep. -/
def movementWithin : Nat → Parser Movement
  | 0 => stop
  | n + 1 => attempt do
    let left ← concatenation (movementWithin n)
    let right ← optional do
      operator "|"
      movementWithin n
    match right with
    | some right => return .union left right
    | none => return left

def movement : Parser Movement := fun ts r => movementWithin (ts.size + 1) ts r

end BoardGame.Parser
