import BoardGame.Text.Position

/-! # Tokens -/

namespace BoardGame

inductive TokenKind where
  | integer
  | word
  /-- One of `( ) [ ] { }`. -/
  | symbol
  | operator
  | comma
  | semicolon
  | endOfInput
deriving DecidableEq, Inhabited

def TokenKind.label : TokenKind → String
  | integer => "integer"
  | word => "word"
  | symbol => "symbol"
  | operator => "operator"
  | comma => "`,`"
  | semicolon => "`;`"
  | endOfInput => "end of input"

structure Token where
  kind : TokenKind
  literal : String
  position : Position
deriving DecidableEq, Inhabited

namespace Token

/-- The token that closes a text which ends at `p`. -/
def endOfInput (p : Position) : Token := ⟨.endOfInput, "", p⟩

/-- The byte after the last one of the token. -/
def stop (t : Token) : Nat := t.position.offset + byteLength t.literal.toList

def is (t : Token) (kind : TokenKind) (literal : String) : Bool :=
  t.kind == kind && t.literal == literal

/-- What a message calls the token. -/
def label (t : Token) : String :=
  match t.kind with
  | .endOfInput => "end of input"
  | _ => "`" ++ t.literal ++ "`"

end Token
end BoardGame
