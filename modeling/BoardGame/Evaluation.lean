import BoardGame.Definitions
import BoardGame.Value

/-! # Evaluating expressions

An expression is evaluated on a tile, for an acting player, with the variables and the board of the
moment; any of these but the variables may be missing. A predicate that calls another one passes
its own arguments on: they are visible in the body of the other, behind that one's own. -/

namespace BoardGame

/-- The arguments in sight, the innermost first. -/
abbrev Scope := List (String × Int)

/-- `scope` seen from a definition with these parameters and arguments. -/
def Scope.bind (params : List String) (args : List Int) (scope : Scope) : Scope :=
  (params.zip args).reverse ++ scope

/-- The tile an expression is evaluated on and the player that acts. -/
structure Focus where
  tile : Option Tile := none
  player : Option PlayerId := none
deriving DecidableEq, Inhabited

/-- Everything that an expression can refer to, its scope apart. -/
structure Env where
  definitions : Definitions
  vars : Variables
  board : Option Board := none
  focus : Focus := {}

namespace Env

/-- What is on the tile in focus, and who acts there, for the sake of `name`. -/
def here (env : Env) (name : String) : Except EvalError (Option PieceId × PlayerId) :=
  match env.focus.tile, env.board, env.focus.player with
  | none, _, _ => .error (.noTile name)
  | some _, none, _ => .error .noBoard
  | some _, some _, none => .error (.noPlayer name)
  | some tile, some board, some player => return (← board.get tile, player)

def builtin (env : Env) (name : String) : Except EvalError Int :=
  match name with
  | "empty" => do
    let (occupant, _) ← env.here name
    return truth occupant.isNone
  | "enemy" => do
    let (occupant, player) ← env.here name
    return truth (occupant.any fun p => env.definitions.owner p ≠ player)
  | _ => .ok 1

/-- The value of `name.key`. Only `this` has keys. -/
def field (env : Env) (name key : String) : Except EvalError Int :=
  let full := name ++ "." ++ key
  match name, key with
  | "this", "x" => (env.focus.tile.map fun t => t.1).elim (.error (.noTile full)) .ok
  | "this", "y" => (env.focus.tile.map fun t => t.2).elim (.error (.noTile full)) .ok
  | "this", "player" => (env.focus.player.map Int.ofNat).elim (.error (.noPlayer full)) .ok
  | _, _ => .error (.noField name key)

/-- The value of `name[i]…[j]`. -/
def indexed (env : Env) (name : String) (indices : List Int) : Except EvalError Int :=
  if name = "Board" then
    match indices, env.board with
    | [x, y], some board => return pieceCode (← board.get (x, y))
    | [_, _], none => .error .noBoard
    | _, _ => .error (.boardIndex indices.length)
  else
    match SortedMap.find? name env.vars with
    | none => .error (.unknownVariable name)
    | some v => do (← v.read name indices).asInt name

/-- How a predicate is run on arguments in a scope. -/
abbrev Invoke := Predicate → List Int → Scope → Except EvalError Int

/-- The value of a bare name: an argument, `None`, a builtin, a piece on the tile in focus, a
variable, or a predicate without parameters. -/
def bareName (env : Env) (invoke : Invoke) (scope : Scope) (name : String) :
    Except EvalError Int :=
  match scope.lookup name with
  | some n => .ok n
  | none =>
    if name = "None" then .ok 0
    else if name ∈ builtinNames then env.builtin name
    else
      match env.definitions.pieceId? name with
      | some p => do
        let (occupant, _) ← env.here name
        return truth (occupant = some p)
      | none =>
        match SortedMap.find? name env.vars with
        | some v => v.asInt name
        | none =>
          match env.definitions.predicate? name with
          | some p => invoke p [] scope
          | none => .error (.unknownVariable name)

/-- Why the name of a call is no predicate. -/
def notCallable (env : Env) (name : String) : EvalError :=
  if (env.definitions.moveMacro? name).isSome then .notAnExpression .moveMacro name
  else if (env.definitions.effect? name).isSome then .notAnExpression .effect name
  else .undefined .predicate name

mutual

/-- The value of an expression, when predicates are run by `invoke`. -/
def evalWith (env : Env) (invoke : Invoke) (scope : Scope) : Expr → Except EvalError Int
  | .literal n => .ok n
  | .var name => env.bareName invoke scope name
  | .field name key => env.field name key
  | .index name indices => do env.indexed name (← evalAllWith env invoke scope indices)
  | .binary .and left right => do
    if (← evalWith env invoke scope left) = 0 then return 0
    else return truth ((← evalWith env invoke scope right) ≠ 0)
  | .binary .or left right => do
    if (← evalWith env invoke scope left) ≠ 0 then return 1
    else return truth ((← evalWith env invoke scope right) ≠ 0)
  | .binary op left right => do
    let l ← evalWith env invoke scope left
    let r ← evalWith env invoke scope right
    op.apply l r
  | .unary op operand => do op.apply (← evalWith env invoke scope operand)
  | .call name args =>
    if name ∈ builtinNames then
      if args.isEmpty then env.builtin name else .error (.arity name 0 args.length)
    else
      match env.definitions.predicate? name with
      | some p => do invoke p (← evalAllWith env invoke scope args) scope
      | none => .error (env.notCallable name)

/-- The values of expressions from left to right, or the first failure. -/
def evalAllWith (env : Env) (invoke : Invoke) (scope : Scope) :
    List Expr → Except EvalError (List Int)
  | [] => .ok []
  | e :: es => do
    let n ← evalWith env invoke scope e
    let ns ← evalAllWith env invoke scope es
    return n :: ns

end

/-- Runs a predicate whose calls nest at most this deep. -/
def invokeWithin (env : Env) : Nat → Invoke
  | 0, p, _, _ => .error (.recursionLimit p.name)
  | n + 1, p, args, scope =>
    if p.params.length = args.length then
      evalWith env (invokeWithin env n) (scope.bind p.params args) p.body
    else .error (.arity p.name p.params.length args.length)

/-- How deep the calls of definitions that call themselves may nest at least. Every call in progress
takes memory, and no machine has enough for so many. -/
def nestingLimit : Nat := 0x100000000

/-- How deep calls may nest. Definitions that do not call themselves nest no deeper than there are
definitions. -/
def callDepth (env : Env) : Nat := nestingLimit + env.definitions.predicates.length

def invoke (env : Env) : Invoke := env.invokeWithin env.callDepth

def eval (env : Env) (scope : Scope) (e : Expr) : Except EvalError Int :=
  env.evalWith env.invoke scope e

def evalAll (env : Env) (scope : Scope) (es : List Expr) : Except EvalError (List Int) :=
  env.evalAllWith env.invoke scope es

def holds (env : Env) (scope : Scope) (e : Expr) : Except EvalError Bool :=
  return (← env.eval scope e) ≠ 0

end Env
end BoardGame
