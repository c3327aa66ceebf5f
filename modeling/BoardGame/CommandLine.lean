import BoardGame.Game.Outcome
import BoardGame.Game.View
import BoardGame.Session

/-! # The command line

`[options] FILE COMMAND`: what the arguments mean, and what a command writes. -/

namespace BoardGame

inductive Command where
  | moves
  | perft (depth : Nat)
  | json
  | automata
deriving DecidableEq, Inhabited

structure Invocation where
  /-- The file with the program, `-` for the standard input. -/
  file : String
  options : Options
  command : Command
deriving DecidableEq, Inhabited

/-- What a run leaves behind. -/
structure Output where
  code : UInt8
  stdout : String
  stderr : String
  log : List Event := []
deriving Inhabited

/-! ## Arguments -/

/-- A count: decimal digits, perhaps after a plus sign, in a machine word. -/
def readCount? (s : String) : Option Nat :=
  let digits := match s.toList with
    | '+' :: ds => ds
    | ds => ds
  if digits ≠ [] ∧ digits.all Char.isDigit ∧ decimalValue digits < 0x10000000000000000 then
    some (decimalValue digits)
  else none

namespace Invocation

def command? : List String → Option Command
  | ["moves"] => some .moves
  | ["perft", depth] => (readCount? depth).map .perft
  | ["json"] => some .json
  | ["automata"] => some .automata
  | _ => none

def lengthOption : String := "--max-move-length="

/-- Reads options, the file (if it is not yet known) and the command. -/
def ofArgsFrom (file : Option String) (options : Options) : List String → Option Invocation
  | [] => none
  | "--trace" :: args => ofArgsFrom file { options with trace := true } args
  | "--timing" :: args => ofArgsFrom file options args
  | "--max-move-length" :: n :: args => do
    ofArgsFrom file { options with maxMoveLength := ← readCount? n } args
  | arg :: args =>
    if lengthOption.toList.isPrefixOf arg.toList then do
      let n ← readCount? (String.ofList (arg.toList.drop lengthOption.length))
      ofArgsFrom file { options with maxMoveLength := n } args
    else
      match file with
      | none => ofArgsFrom (some arg) options args
      | some file => do return ⟨file, options, ← command? (arg :: args)⟩

def ofArgs? (args : List String) : Option Invocation := ofArgsFrom none {} args

end Invocation

/-! ## Commands -/

/-- The codes of the styles of the players, over and over. -/
def playerStyles : List String := ["36", "31", "32", "33", "35", "34"]

def playerStyle (p : PlayerId) : String := (playerStyles[p % 6]?).getD ""

/-- `s` with spaces before it up to the given length. -/
def alignRight (length : Nat) (s : String) : String :=
  String.ofList (List.replicate (length - s.length) ' ') ++ s

namespace Game

/-- The board, the top row first, under the name of the player whose turn it is. -/
def renderBoard (g : Game) : String :=
  let width := if g.rules.pieces.isEmpty then 1
    else (g.rules.pieces.map fun p => p.name.length).foldl max 0
  let cell (x y : Nat) : String :=
    match g.board.get (x, y) with
    | .ok (some piece) =>
      let name := ((g.rules.pieces[piece]?).map (·.name)).getD ""
      styled (playerStyle (g.definitions.owner piece)) (alignRight width name)
    | _ => styled "90" (alignRight width ".")
  let row (y : Nat) : String :=
    " ".intercalate ((List.range g.board.width).map fun x => cell x y) ++ "\n"
  styled (playerStyle g.turn) (g.playerName g.turn) ++ " to move\n" ++
    String.join ((List.range g.board.height).reverse.map row)

/-- The automaton of each piece under its name and owner. -/
def renderAutomata (g : Game) : String :=
  String.join (g.rules.pieces.map fun p =>
    p.name ++ " (" ++ g.playerName p.owner ++ ")\n" ++ p.dfa.render)

end Game

namespace Command

/-- What a command writes about a game. -/
def run : Command → Play String
  | moves => do
    let g ← Play.game
    let ms ← Play.generateMoves
    return g.renderBoard ++ String.join (ms.map fun m => m.render ++ "\n")
  | perft depth => return toString (← Play.perft depth) ++ "\n"
  | json => return (← Play.view).render ++ "\n"
  | automata => return (← Play.game).renderAutomata

end Command

/-- The report of a failure, with what is behind it. -/
def failureText (message : String) (source : Option String) : String :=
  "Error: " ++ message ++ "\n" ++
    match source with
    | none => ""
    | some s => "\nCaused by:\n    " ++ s ++ "\n"

namespace Invocation

/-- Runs a command on a program. -/
def run (i : Invocation) (source : String) : Output :=
  let session : Session := { options := i.options }
  match (do (← session.addFile i.file source).start : Except LoadError Game) with
  | .error e => ⟨1, "", failureText e.message (e.source?.map EvalError.message), []⟩
  | .ok g =>
    let (result, g') := i.command.run g
    match result with
    | .ok text => ⟨0, text, "", g.rules.events ++ g'.takeLog.1⟩
    | .error e => ⟨1, "", failureText e.message none, g.rules.events ++ g'.takeLog.1⟩

/-- What to write when the arguments make no sense. -/
def usage : Output :=
  ⟨2, "", "usage: [--trace] [--timing] [--max-move-length N] FILE " ++
    "(moves | perft DEPTH | json | automata)\n", []⟩

end Invocation
end BoardGame
