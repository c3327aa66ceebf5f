import BoardGame.Diagnostic
import BoardGame.Game

/-! # Sessions

From a source to a game: a session takes one program, checks it, and starts games by its rules. -/

namespace BoardGame

/-- Why there is no game. -/
inductive LoadError where
  | rejected (diagnostic : Diagnostic)
  | build (error : BuildError)
deriving DecidableEq

namespace LoadError

def message : LoadError → String
  | rejected d => d.render
  | build e => e.message

/-- The failure of an expression behind the error. -/
def source? : LoadError → Option EvalError
  | rejected _ => none
  | build e => e.source?

end LoadError

structure Session where
  program : Option Program := none
  options : Options := {}
deriving Inhabited

namespace Session

/-- Reads and checks the program of a file. A session has one program. -/
def addFile (s : Session) (file source : String) : Except LoadError Session := do
  let p ← (parseProgram source).mapError fun e => .rejected (.ofSyntaxError file source e)
  p.check.mapError fun e => .rejected (.ofFlaw file source e)
  match s.program with
  | some _ => .error (.build .alreadyLoaded)
  | none => return { s with program := some p }

def rules (s : Session) : Except LoadError Rules :=
  match s.program with
  | none => .error (.build .noProgram)
  | some p => p.build.mapError .build

def start (s : Session) : Except LoadError Game := return .new (← s.rules) s.options

end Session

def startGame (source : String) : Except LoadError Game := do
  (← ({} : Session).addFile "<input>" source).start

end BoardGame
