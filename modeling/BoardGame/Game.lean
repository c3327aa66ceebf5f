import BoardGame.Effect
import BoardGame.Rules

/-! # Games

A game is a position (variables, board and whose turn it is) with the history that leads to it. The
history is kept as changes: what each step of a move displaced, and the world before its effect if it
had one. Taking back the steps of a move restores the position before it. -/

namespace BoardGame

/-- A move: where it starts, and its steps. -/
structure Move where
  start : Tile
  steps : List Step
deriving DecidableEq, Inhabited

/-- The tile that a step from `t` leads to. -/
def Step.target (s : Step) (t : Tile) : Tile := (t.1 + s.dx, t.2 + s.dy)

namespace Move

def stop (m : Move) : Tile := m.steps.foldl (fun t s => s.target t) m.start

def render (m : Move) : String :=
  "(" ++ toString m.start.1 ++ ", " ++ toString m.start.2 ++ ")" ++
    String.join (m.steps.map fun s => " " ++ s.render)

end Move

structure Options where
  /-- The most steps that a generated move has. -/
  maxMoveLength : Nat := 256
  /-- Whether moves are reported. -/
  trace : Bool := false
deriving DecidableEq, Inhabited

/-- What taking back a step needs. -/
structure Change where
  step : Step
  origin : Tile
  /-- What stood on the tile stepped to. -/
  displaced : Option PieceId
  /-- The world before the effect, if the step had one. -/
  snapshot : Option World
deriving Inhabited

structure Game where
  rules : Rules
  options : Options
  world : World
  turn : PlayerId
  /-- The newest first. -/
  changes : List Change
  /-- The lengths of the moves, the newest first. -/
  moves : List Nat
  /-- The newest first. -/
  log : List Event
deriving Inhabited

inductive GameError where
  | eval (error : EvalError)
  /-- There is nothing to take back. -/
  | noMove
  | emptyTile (tile : Tile)
deriving DecidableEq

def GameError.message : GameError → String
  | eval e => e.message
  | noMove => "no move to undo"
  | emptyTile t => "no piece at (" ++ toString t.1 ++ ", " ++ toString t.2 ++ ")"

/-- An action on a game. A failed action leaves the game as it is at that moment. -/
def Play (α : Type) := Game → Except GameError α × Game

namespace Play
variable {α β : Type}

instance : Monad Play where
  pure a := fun g => (.ok a, g)
  bind p f := fun g =>
    match p g with
    | (.ok a, g') => f a g'
    | (.error e, g') => (.error e, g')

def game : Play Game := fun g => (.ok g, g)

def update (f : Game → Game) : Play Unit := fun g => (.ok (), f g)

def fail (e : GameError) : Play α := fun g => (.error e, g)

/-- The result of an evaluation. -/
def check : Except EvalError α → Play α
  | .ok a => pure a
  | .error e => fail (.eval e)

/-- Runs `p` and gives its failure as a result. -/
def attempt (p : Play α) : Play (Except GameError α) := fun g =>
  let (r, g') := p g
  (.ok r, g')

def report (e : Event) : Play Unit := update fun g => { g with log := e :: g.log }

/-- Runs `f` on each of a list and joins the results. -/
def collect (f : α → Play (List β)) : List α → Play (List β)
  | [] => pure []
  | a :: as => do
    let bs ← f a
    let rest ← collect f as
    return bs ++ rest

end Play

namespace Game

def new (rules : Rules) (options : Options) : Game where
  rules := rules
  options := options
  world := ⟨rules.vars, rules.board⟩
  turn := 0
  changes := []
  moves := []
  log := []

def definitions (g : Game) : Definitions := g.rules.definitions

def board (g : Game) : Board := g.world.board

def vars (g : Game) : Variables := g.world.vars

def variableValue? (g : Game) (name : String) : Option Value := SortedMap.find? name g.vars

def players (g : Game) : List String := g.definitions.players

def playerName (g : Game) (p : PlayerId) : String := g.definitions.playerName p

def currentPlayer (g : Game) : PlayerId := g.turn

def moveCount (g : Game) : Nat := g.moves.length

def env (g : Game) (focus : Focus) : Env := g.world.env g.definitions focus

/-- What tells positions apart: the board, whose turn it is, and the variables. -/
def key (g : Game) : Board × PlayerId × Variables := (g.board, g.turn, g.vars)

/-- The events since the log was last emptied, the oldest first, and the game with an empty log. -/
def takeLog (g : Game) : List Event × Game := (g.log.reverse, { g with log := [] })

end Game
end BoardGame
