import BoardGame.Game

/-! # Making and taking back moves

A step that fails changes nothing. A move that fails takes back the steps it made. -/

namespace BoardGame.Play

def pieceAt (t : Tile) : Play (Option PieceId) := do check ((← game).board.get t)

def setTile (t : Tile) (p : Option PieceId) : Play Unit := do
  let b ← check ((← game).board.set t p)
  update fun g => { g with world := { g.world with board := b } }

def setWorld (w : World) : Play Unit := update fun g => { g with world := w }

/-! ## Steps -/

/-- Makes a step with the piece on `origin` and gives the tile it leads to. -/
def makeStep (origin : Tile) (s : Step) : Play Tile := do
  let target := s.target origin
  match ← pieceAt origin with
  | none => fail (.emptyTile origin)
  | some piece =>
    let displaced ← pieceAt target
    setTile origin none
    setTile target (some piece)
    let g ← game
    match s.effect with
    | none =>
      update fun g => { g with changes := ⟨s, origin, displaced, none⟩ :: g.changes }
      return target
    | some c =>
      let focus : Focus := { tile := some target, player := some (g.definitions.owner piece) }
      let (result, w) := g.world.perform g.definitions focus c
      match result with
      | .ok _ =>
        setWorld w
        update fun g' => { g' with changes := ⟨s, origin, displaced, some g.world⟩ :: g'.changes }
        return target
      | .error e =>
        setTile target displaced
        setTile origin (some piece)
        fail (.eval e)

def undoStep : Play Unit := do
  match (← game).changes with
  | [] => fail .noMove
  | c :: changes =>
    update fun g => { g with changes := changes }
    match c.snapshot with
    | some w => setWorld w
    | none => pure ()
    let target := c.step.target c.origin
    let piece ← pieceAt target
    setTile target c.displaced
    setTile c.origin piece

def undoSteps : Nat → Play Unit
  | 0 => pure ()
  | n + 1 => do
    undoStep
    undoSteps n

/-- Takes back so many steps, and forgets the rest of them if one cannot be taken back. -/
def rewindBy : Nat → Play Unit
  | 0 => pure ()
  | n + 1 => do
    match ← attempt undoStep with
    | .ok _ => rewindBy n
    | .error e =>
      report (.undoFailed e.message)
      update fun g => { g with changes := g.changes.drop n }

/-- Takes back steps until `length` are left. -/
def rewind (length : Nat) : Play Unit := do
  rewindBy ((← game).changes.length - length)

/-! ## Moves -/

def makeSteps : Tile → List Step → Play Unit
  | _, [] => pure ()
  | origin, s :: steps => do makeSteps (← makeStep origin s) steps

def makeMove (m : Move) : Play Unit := do
  let base := (← game).changes.length
  match ← attempt (makeSteps m.start m.steps) with
  | .error e =>
    rewind base
    fail e
  | .ok _ =>
    update fun g => { g with moves := m.steps.length :: g.moves }
    let g ← game
    if g.options.trace then report (.applied (g.playerName g.turn) m.render)
    update fun g => { g with turn := (g.turn + 1) % max 1 g.players.length }

def undoMove : Play Unit := do
  match (← game).moves with
  | [] => fail .noMove
  | length :: moves =>
    update fun g => { g with moves := moves }
    undoSteps length
    update fun g =>
      let players := max 1 g.players.length
      { g with turn := (g.turn + players - 1) % players }
    let g ← game
    if g.options.trace then report (.undone (g.playerName g.turn) length)

def undoMoves : Nat → Play Unit
  | 0 => pure ()
  | n + 1 => do
    undoMove
    undoMoves n

def reset : Play Unit := do undoMoves (← game).moves.length

end BoardGame.Play
