import BoardGame.Grammar.Program
import BoardGame.Token.Scan

/-! # Reading texts -/

namespace BoardGame

/-- Why a text is not what it should be. -/
inductive SyntaxError where
  | scan (error : ScanError)
  | parse (error : ParseError)
deriving DecidableEq

namespace SyntaxError

def position : SyntaxError → Position
  | scan e => e.position
  | parse e => e.position

def message : SyntaxError → String
  | scan e => e.message
  | parse e => e.message

end SyntaxError

/-- What `p` reads from the whole of `source`. -/
def readAll {α : Type} (p : Parser α) (source : String) : Except SyntaxError α := do
  let tokens ← (scan source).mapError .scan
  (p.run tokens.toArray).mapError .parse

def parseExpr (source : String) : Except SyntaxError Expr :=
  readAll (do let e ← Parser.expr; Parser.endOfInput; return e) source

def parseMovement (source : String) : Except SyntaxError Movement :=
  readAll (do let m ← Parser.movement; Parser.endOfInput; return m) source

def parseProgram (source : String) : Except SyntaxError Program :=
  readAll Parser.program source

end BoardGame
