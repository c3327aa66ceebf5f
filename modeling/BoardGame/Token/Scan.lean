import BoardGame.Int64
import BoardGame.Text.Blank
import BoardGame.Token

/-! # Splitting a text into tokens

`scan` skips layout (blanks, and comments from `#` to the end of the line) and takes the longest
token of its class at the next character, until the text ends in the token `endOfInput`. -/

namespace BoardGame

inductive ScanError where
  | unexpectedChar (found : Char) (position : Position)
  | integerOverflow (literal : String) (position : Position)
deriving DecidableEq

namespace ScanError

def position : ScanError → Position
  | unexpectedChar _ p => p
  | integerOverflow _ p => p

/-- The number of bytes the error is about. -/
def length : ScanError → Nat
  | unexpectedChar c _ => c.utf8Size
  | integerOverflow s _ => byteLength s.toList

def label : ScanError → String
  | unexpectedChar _ _ => "unrecognized character"
  | integerOverflow _ _ => "integer literal is too large"

def message : ScanError → String
  | unexpectedChar c p => "unrecognized character `" ++ c.toString ++ "` at " ++ p.render
  | integerOverflow s p => "integer literal `" ++ s ++ "` is too large at " ++ p.render

end ScanError

/-- What is left of a text, and its position, after the layout at its head. The flag says that a
comment is open. -/
def skipLayout : Bool → Position → List Char → Position × List Char
  | _, p, [] => (p, [])
  | true, p, c :: cs => skipLayout (c ≠ '\n') (p.next c) cs
  | false, p, c :: cs =>
    if isBlank c then skipLayout false (p.next c) cs
    else if c = '#' then skipLayout true (p.next c) cs
    else (p, c :: cs)

theorem length_skipLayout_le (b : Bool) (p : Position) (cs : List Char) :
    (skipLayout b p cs).2.length ≤ cs.length := by
  fun_induction skipLayout b p cs <;> simp_all <;> omega

def isWordStart (c : Char) : Bool := c.isAlpha || c == '_'

def isWordChar (c : Char) : Bool := c.isAlphanum || c == '_'

def isBracket (c : Char) : Bool :=
  c == '(' || c == ')' || c == '[' || c == ']' || c == '\x7b' || c == '\x7d'

/-- The operators, none before a longer one that begins with it. -/
def operators : List String :=
  ["==", "!=", "&&", "||", "//", "<=", ">=", "=", "!", "|", "*", "+", "-", "/", "%", "?", ".",
    "<", ">"]

/-- The class of the token that starts with `c`, and how many of the characters `cs` after `c`
belong to it. -/
def lexeme? (c : Char) (cs : List Char) : Option (TokenKind × Nat) :=
  if c.isDigit then some (.integer, (cs.takeWhile Char.isDigit).length)
  else if isWordStart c then some (.word, (cs.takeWhile isWordChar).length)
  else if isBracket c then some (.symbol, 0)
  else if c = ',' then some (.comma, 0)
  else if c = ';' then some (.semicolon, 0)
  else
    (operators.find? fun op => op.toList.isPrefixOf (c :: cs)).map fun op =>
      (.operator, op.length - 1)

/-- The tokens of the text `cs` that starts at `p`. -/
def scanFrom (p : Position) (cs : List Char) : Except ScanError (List Token) :=
  match _h : skipLayout false p cs with
  | (q, []) => .ok [Token.endOfInput q]
  | (q, c :: rest) =>
    match lexeme? c rest with
    | none => .error (.unexpectedChar c q)
    | some (kind, n) =>
      let text := c :: rest.take n
      if kind = .integer ∧ ¬ FitsInt64 (decimalValue text) then
        .error (.integerOverflow (String.ofList text) q)
      else
        (scanFrom (q.advance text) (rest.drop n)).map (⟨kind, String.ofList text, q⟩ :: ·)
termination_by cs.length
decreasing_by
  have := length_skipLayout_le false p cs
  simp only [_h, List.length_cons] at this
  simp only [List.length_drop]
  omega

def scan (source : String) : Except ScanError (List Token) :=
  scanFrom .start source.toList

end BoardGame
