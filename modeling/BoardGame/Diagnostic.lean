import BoardGame.Source
import BoardGame.Text.Excerpt
import BoardGame.Text.Style
import BoardGame.WellFormed

/-! # Diagnostics

A fault of a source, with the line it is in and marks under it. -/

namespace BoardGame

structure Diagnostic where
  title : String
  label : String
  file : String
  /-- Nothing of an empty source. -/
  excerpt : Option Excerpt
deriving DecidableEq, Inhabited

/-- The number of characters in the first `n` bytes. -/
def charsWithin : Nat → List Char → Nat
  | 0, _ | _, [] => 0
  | n, c :: cs => 1 + charsWithin (n - c.utf8Size) cs

/-- The columns that a character takes up. Control characters, the tab among them, take up none. -/
def columns (c : Char) : Nat := if c.toNat < 0x20 ∨ 0x7F ≤ c.toNat ∧ c.toNat < 0xA0 then 0 else 1

/-- The columns that a text takes up. -/
def columnsOf (cs : List Char) : Nat := cs.foldr (fun c width => columns c + width) 0

namespace Diagnostic

private def bold (s : String) : String := styled "1" s

private def red (s : String) : String := styled "1;38;5;9" s

private def blue (s : String) : String := styled "1;38;5;12" s

private def spaces (n : Nat) : String := String.ofList (List.replicate n ' ')

/-- The lines that show an excerpt. The place counts characters, and the marks stand under the
columns of the first line; an excerpt without text is shown as the place alone. -/
def excerptLines (file label : String) (e : Excerpt) : List String :=
  let place (line column : Nat) := file ++ ":" ++ toString line ++ ":" ++ toString column
  match splitLines e.text.toList with
  | [] => [blue "-->" ++ " " ++ place 1 1, blue " |", blue " |"]
  | shown :: more =>
    let lines := (shown :: more).map dropNewlines
    let pad := spaces (toString (e.line + more.length)).length
    let bar := blue (pad ++ " |")
    let (first, last) := e.marked
    let line := dropNewlines shown
    let before := charsWithin first line
    let indent := spaces (columnsOf (line.take before))
    let marked := (line.take (charsWithin last line)).drop before
    let marks := String.ofList (List.replicate (columnsOf marked) '^')
    let numbered := lines.zipIdx.map fun (l, i) =>
      let number := toString (e.line + i)
      blue (number ++ spaces (pad.length - number.length) ++ " |") ++ " " ++ String.ofList l
    [pad ++ blue "-->" ++ " " ++ place e.line (before + 1), bar] ++ numbered.take 1 ++
      [bar ++ red (" " ++ indent ++ marks) ++ " " ++ red label] ++ numbered.drop 1 ++ [bar]

def render (d : Diagnostic) : String :=
  let head := red "error" ++ ": " ++ bold d.title
  "\n".intercalate (head :: (d.excerpt.map (excerptLines d.file d.label)).getD [])

/-- The fault at the bytes `start` to `stop` of a source. -/
def ofSpan (title label file source : String) (start stop : Nat) : Diagnostic :=
  ⟨title, label, file, excerpt? source start stop⟩

def ofSyntaxError (file source : String) (e : SyntaxError) : Diagnostic :=
  let start := e.position.offset
  match e with
  | .scan e => ofSpan "lexical error" e.label file source start (start + e.length)
  | .parse e => ofSpan "syntax error" e.label file source start (start + 1)

def ofFlaw (file source : String) (e : Spanned Flaw) : Diagnostic :=
  ofSpan "semantic error" e.value.message file source e.start e.stop

end Diagnostic
end BoardGame
