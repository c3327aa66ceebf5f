import BoardGame.Automaton.Dfa
import BoardGame.Event
import BoardGame.Expansion

/-! # Rules

The rules of a program: its definitions, the automaton of each piece, the first values of its
variables and the first board. They are built from any program, also from one that was not checked. -/

namespace BoardGame

structure BoardPiece where
  name : String
  owner : PlayerId
  dfa : Dfa
  /-- The number of states before determinization, if the piece has a rule. -/
  nfaSize : Option Nat
deriving DecidableEq, Inhabited

structure Rules where
  definitions : Definitions
  /-- In the order of declaration. -/
  pieces : List BoardPiece
  vars : Variables
  board : Board
deriving Inhabited

/-- Why a program has no rules. -/
inductive BuildError where
  | alreadyLoaded
  | noProgram
  | undefinedPlayer (name : String)
  | undefinedPiece (name : String)
  | boardSize (width height : Int)
  | cellCount (expected found : Nat)
  | var (name : String) (source : EvalError)
  | rule (piece : String) (source : EvalError)
deriving DecidableEq

namespace BuildError

def message : BuildError → String
  | alreadyLoaded => "a program has already been loaded"
  | noProgram => "no program has been loaded"
  | undefinedPlayer name => "undefined player `" ++ name ++ "`"
  | undefinedPiece name => "undefined piece `" ++ name ++ "`"
  | boardSize width height => "invalid board size " ++ toString width ++ "x" ++ toString height
  | cellCount expected found =>
    "board has " ++ toString found ++ " cells, but " ++ toString expected ++ " are expected"
  | var name source => "failed to evaluate variable `" ++ name ++ "`: " ++ source.message
  | rule piece source =>
    "failed to compile the rule of piece `" ++ piece ++ "`: " ++ source.message

/-- The failure of an expression behind the error. -/
def source? : BuildError → Option EvalError
  | var _ e | rule _ e => some e
  | _ => none

end BuildError

namespace Definitions

def addPiece (d : Definitions) (p : PieceDecl) : Except BuildError Definitions :=
  match d.playerId? p.owner with
  | none => .error (.undefinedPlayer p.owner)
  | some owner => .ok { d with pieces := d.pieces ++ [⟨p.name, owner⟩] }

def addDeclaration (d : Definitions) : Declaration → Except BuildError Definitions
  | .moveMacro m => .ok { d with macros := m :: d.macros }
  | .predicate p => .ok { d with predicates := p :: d.predicates }
  | .effect e => .ok { d with effects := e :: d.effects }
  | .victory v =>
    match d.playerId? v.player with
    | none => .error (.undefinedPlayer v.player)
    | some player => .ok { d with victories := d.victories.set player (some v.condition) }
  | .rule _ | .var _ => .ok d

end Definitions

namespace Program

def definitions (p : Program) : Except BuildError Definitions := do
  let d : Definitions := { players := p.players.map (·.value) }
  let d ← (p.pieces.map (·.value)).foldlM Definitions.addPiece d
  let d := { d with victories := d.players.map fun _ => none }
  (p.declarations.map (·.value)).foldlM Definitions.addDeclaration d

/-- Binds a variable; its first value may use those bound before. -/
def bindVariable (d : Definitions) (vars : Variables) (v : VariableDecl) :
    Except BuildError Variables :=
  match ({ definitions := d, vars := vars } : Env).eval [] v.value with
  | .error e => .error (.var v.name e)
  | .ok n => .ok (SortedMap.insert v.name (.int n) vars)

/-- The first values of the variables. -/
def initialVariables (p : Program) (d : Definitions) : Except BuildError Variables :=
  p.variableDecls.foldlM (bindVariable d) []

/-- Compiles the first rule of a piece. -/
def compilePiece (p : Program) (env : Env) (piece : PieceType) : Except BuildError BoardPiece :=
  match p.rules.find? (·.piece = piece.name) with
  | none => .ok ⟨piece.name, piece.owner, .empty, none⟩
  | some rule =>
    match env.resolve [] rule.movement with
    | .error e => .error (.rule piece.name e)
    | .ok pattern =>
      let nfa := Nfa.ofPattern pattern
      .ok ⟨piece.name, piece.owner, .ofNfa nfa, some nfa.size⟩

/-- What a cell of the first board holds. -/
def cellPiece (d : Definitions) : Cell → Except BuildError (Option PieceId)
  | .empty => .ok none
  | .piece name _ =>
    match d.pieceId? name with
    | none => .error (.undefinedPiece name)
    | some p => .ok (some p)

/-- The tile of the cell with number `k`, row by row from the top. -/
def cellTile (width height k : Nat) : Tile := ((k % width : Nat), (height - 1 - k / width : Nat))

/-- Puts the cells on the board, the first of which has number `k`. -/
def placeCells (d : Definitions) (decl : BoardDecl) (width height : Nat) :
    Nat → Board → List Cell → Except BuildError Board
  | _, board, [] => .ok board
  | k, board, cell :: cells => do
    let piece ← cellPiece d cell
    match board.set (cellTile width height k) piece with
    | .error _ => .error (.boardSize decl.width decl.height)
    | .ok board => placeCells d decl width height (k + 1) board cells

/-- The first board. -/
def initialBoard (decl : BoardDecl) (d : Definitions) : Except BuildError Board :=
  match decl.sides? with
  | none => .error (.boardSize decl.width decl.height)
  | some (width, height) =>
    if decl.cells.length = width * height then
      placeCells d decl width height 0 (.empty width height) (decl.cells.map (·.value))
    else .error (.cellCount (width * height) decl.cells.length)

/-- Builds the rules of a program. -/
def build (p : Program) : Except BuildError Rules := do
  let d ← p.definitions
  let vars ← p.initialVariables d
  let pieces ← d.pieces.mapM (p.compilePiece { definitions := d, vars := vars })
  let board ← initialBoard p.board.value d
  return ⟨d, pieces, vars, board⟩

end Program

/-- What building the rules reported, piece by piece. -/
def Rules.events (r : Rules) : List Event :=
  r.pieces.map fun p => match p.nfaSize with
    | some n => .compiled p.name n p.dfa.size
    | none => .noRule p.name

end BoardGame
