import BoardGame.Evaluation

/-! # Effects

An effect assigns to variables and to tiles of the board, one assignment after the other. Its
arguments are evaluated before the first one. When an assignment fails, those before it stay. -/

namespace BoardGame

/-- What effects change. -/
structure World where
  vars : Variables
  board : Board
deriving DecidableEq, Inhabited

/-- What an assignment writes, everything evaluated. -/
inductive Write where
  | tile (tile : Tile) (piece : Option PieceId)
  | var (name : String) (path : List Int) (value : Int)
deriving DecidableEq

/-- Does the write. A variable not bound before starts as a fresh one. -/
def Write.apply (w : World) : Write → Except EvalError World
  | tile t p => return { w with board := ← w.board.set t p }
  | var name path n => do
    let v ← ((SortedMap.find? name w.vars).getD (Value.fresh path)).store name path n
    return { w with vars := SortedMap.insert name v w.vars }

namespace Env

/-- What the value of an assignment to a tile puts there: a bare `None` or name of a piece stands
for itself, any other expression for its code. -/
def pieceValue (env : Env) (scope : Scope) (e : Expr) : Except EvalError (Option PieceId) :=
  let byCode : Except EvalError (Option PieceId) := do
    env.definitions.pieceOfCode (← env.eval scope e)
  match e with
  | .var name =>
    if (scope.lookup name).isSome then byCode
    else if name = "None" then .ok none
    else
      match env.definitions.pieceId? name with
      | some p => .ok (some p)
      | none => byCode
  | _ => byCode

def write (env : Env) (scope : Scope) (a : Assignment) : Except EvalError Write := do
  let indices ← env.evalAll scope a.indices
  if a.target = "Board" then
    match indices with
    | [x, y] => return .tile (x, y) (← env.pieceValue scope a.value)
    | _ => .error (.boardIndex indices.length)
  else return .var a.target indices (← env.eval scope a.value)

end Env

namespace World

def env (w : World) (d : Definitions) (focus : Focus) : Env :=
  { definitions := d, vars := w.vars, board := some w.board, focus := focus }

def assign (d : Definitions) (focus : Focus) (scope : Scope) (w : World) :
    List Assignment → Except EvalError Unit × World
  | [] => (.ok (), w)
  | a :: as =>
    match (w.env d focus).write scope a >>= Write.apply w with
    | .error e => (.error e, w)
    | .ok w' => assign d focus scope w' as

def perform (d : Definitions) (focus : Focus) (w : World) (c : Call) :
    Except EvalError Unit × World :=
  match d.effect? c.name with
  | none => (.error (.undefined .effect c.name), w)
  | some e =>
    if e.params.length = c.args.length then
      match (w.env d focus).evalAll [] c.args with
      | .error err => (.error err, w)
      | .ok args => w.assign d focus (Scope.bind e.params args []) e.assignments
    else (.error (.arity c.name e.params.length c.args.length), w)

end World
end BoardGame
