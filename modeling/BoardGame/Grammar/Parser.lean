import BoardGame.Text.Span
import BoardGame.Token

/-! # Backtracking parsers

A parser reads tokens from a cursor and remembers the furthest failure of everything that was
tried, which is the one reported in the end. A failed parser may leave the cursor anywhere;
`attempt` puts it back. -/

namespace BoardGame

/-- At `position`, one of `expected` was due and `found` was there. -/
structure ParseError where
  position : Position
  /-- In the order in which they were first tried. -/
  expected : List String
  found : String
deriving DecidableEq, Inhabited

/-- What was expected, as messages show it. -/
def ParseError.label (e : ParseError) : String := "expected " ++ " or ".intercalate e.expected

def ParseError.message (e : ParseError) : String :=
  e.label ++ ", found " ++ e.found ++ " at " ++ e.position.render

/-- The furthest failure after another one with `expected` at the token `t`. -/
def furthestFailure (old : Option ParseError) (t : Token) (expected : String) : ParseError :=
  let new : ParseError := ⟨t.position, [expected], t.label⟩
  match old with
  | none => new
  | some e =>
    if e.position.offset > t.position.offset then e
    else if e.position.offset = t.position.offset then
      if expected ∈ e.expected then e else { e with expected := e.expected ++ [expected] }
    else new

structure Reader where
  cursor : Nat
  furthest : Option ParseError
deriving Inhabited

/-- Reads a list of tokens; `none` is failure. -/
def Parser (α : Type) := Array Token → Reader → Option α × Reader

namespace Parser
variable {α β : Type}

instance : Monad Parser where
  pure a := fun _ r => (some a, r)
  bind p f := fun ts r =>
    match p ts r with
    | (some a, r') => f a ts r'
    | (none, r') => (none, r')

/-- The token at the cursor; past the end the last one, and in an empty list the end of input. -/
def peek : Parser Token := fun ts r =>
  (some ((ts[r.cursor]?.or ts.back?).getD (.endOfInput .start)), r)

def advance : Parser Unit := fun ts r =>
  (some (), if r.cursor < ts.size then { r with cursor := r.cursor + 1 } else r)

/-- The byte after the last token read. -/
def lastStop : Parser Nat := fun ts r =>
  (some (if r.cursor = 0 then 0 else (ts[r.cursor - 1]?.map Token.stop).getD 0), r)

def fail (expected : String) : Parser α := do
  let t ← peek
  fun _ r => (none, { r with furthest := some (furthestFailure r.furthest t expected) })

/-- Fails without a trace. -/
def stop : Parser α := fun _ r => (none, r)

/-- Runs `p`, and puts the cursor back if it fails. -/
def attempt (p : Parser α) : Parser α := fun ts r =>
  match p ts r with
  | (none, r') => (none, { r' with cursor := r.cursor })
  | ok => ok

def orElse (p q : Parser α) : Parser α := fun ts r =>
  match attempt p ts r with
  | (none, r') => q ts r'
  | ok => ok

def optional (p : Parser α) : Parser (Option α) := fun ts r =>
  let (a, r') := attempt p ts r
  (some a, r')

/-- Everything that `p` reads until it fails, or until it reads nothing. -/
def manyFrom (p : Parser α) (ts : Array Token) (r : Reader) : List α × Reader :=
  match attempt p ts r with
  | (none, r') => ([], r')
  | (some a, r') =>
    if r.cursor < r'.cursor ∧ r'.cursor ≤ ts.size then
      let (as, r'') := manyFrom p ts r'
      (a :: as, r'')
    else ([a], r')
termination_by ts.size - r.cursor

def many (p : Parser α) : Parser (List α) := fun ts r =>
  let (as, r') := manyFrom p ts r
  (some as, r')

/-- The result of `p` with the place of the tokens it read. -/
def spanned (p : Parser α) : Parser (Spanned α) := do
  let first ← peek
  let a ← attempt p
  let stop ← lastStop
  return ⟨a, first.position.offset, max stop first.position.offset⟩

/-- Steps over a token of this kind and gives its text. -/
def kind (k : TokenKind) : Parser String := do
  let t ← peek
  if t.kind = k then
    advance
    return t.literal
  else fail k.label

/-- Steps over the token of this kind that is written like this. -/
def exactly (k : TokenKind) (literal : String) : Parser Unit := do
  let t ← peek
  if t.is k literal then advance else fail ("`" ++ literal ++ "`")

def word : Parser String := kind .word

def keyword (literal : String) : Parser Unit := exactly .word literal

def symbol (literal : String) : Parser Unit := exactly .symbol literal

def operator (literal : String) : Parser Unit := exactly .operator literal

def comma : Parser Unit := do let _ ← kind .comma

def semicolon : Parser Unit := do let _ ← kind .semicolon

def endOfInput : Parser Unit := do let _ ← kind .endOfInput

def separated (p : Parser α) : Parser (List α) := attempt do
  let first ← p
  let rest ← many do
    comma
    p
  return first :: rest

/-- Items with a comma between two, or none. -/
def separatedOrNone (p : Parser α) : Parser (List α) := do
  return (← optional (separated p)).getD []

def between (left right : String) (p : Parser α) : Parser α := attempt do
  symbol left
  let a ← p
  symbol right
  return a

/-- The result of `p` on the tokens from their start, or the furthest failure. -/
def run (p : Parser α) (ts : Array Token) : Except ParseError α :=
  match attempt p ts ⟨0, none⟩ with
  | (some a, _) => .ok a
  | (none, r) => .error (r.furthest.getD ⟨.start, [], ""⟩)

end Parser
end BoardGame
