import BoardGame.Game.History

/-! # Generating moves

The moves of a piece are the words of its automaton that can be played from its tile. Each step is
made on the board itself, so that what follows sees it, and taken back again. A piece whose walk
fails has no moves. -/

namespace BoardGame.Play

/-- Whether `player` may step to a tile. Nobody steps off the board. -/
def permitted (s : Step) (target : Tile) (player : PlayerId) : Play Bool := do
  let g ← game
  if g.board.contains target then
    check ((g.env { tile := some target, player := some player }).holds [] s.condition)
  else return false

/-- The moves that begin with one transition at `position`; `walk` gives those that go on from where
it leads. -/
def follow (dfa : Dfa) (start : Tile) (walk : StateId → Tile → List Step → Play (List Move))
    (position : Tile) (path : List Step) (owner : PlayerId) (transition : Step × StateId) :
    Play (List Move) := do
  let (s, next) := transition
  let target := s.target position
  if ← permitted s target owner then
    let path := s :: path
    let here : List Move := if dfa.isAccepting next then [⟨start, path.reverse⟩] else []
    let _ ← makeStep position s
    let further ← walk next target path
    undoStep
    return here ++ further
  else return []

/-- The moves that go on from a state of the automaton with at most so many steps, when the steps of
`path`, the newest first, have led from `start` to `position`. -/
def walk (dfa : Dfa) (start : Tile) : Nat → StateId → Tile → List Step → Play (List Move)
  | 0, _, position, _ => do
    let _ ← pieceAt position
    return []
  | budget + 1, state, position, path => do
    match ← pieceAt position with
    | none => return []
    | some piece =>
      let owner := (← game).definitions.owner piece
      collect (follow dfa start (walk dfa start budget) position path owner) (dfa.transitions state)

/-- The moves of the piece on a tile; none, with a warning, if one cannot be worked out. -/
def pieceMoves (start : Tile) (piece : PieceId) : Play (List Move) := do
  let g ← game
  match g.rules.pieces[piece]? with
  | none => return []
  | some p =>
    match ← attempt (walk p.dfa start g.options.maxMoveLength p.dfa.start start []) with
    | .ok moves => return moves
    | .error e =>
      report (.aborted p.name start.1 start.2 e.message)
      rewind g.changes.length
      return []

/-- The moves of the player whose turn it is, by the tiles of the pieces. -/
def generateMoves : Play (List Move) := do
  let g ← game
  collect (fun (t, piece) => pieceMoves t piece)
    (g.board.pieces.filter fun (_, piece) => g.definitions.owner piece = g.turn)

end BoardGame.Play
