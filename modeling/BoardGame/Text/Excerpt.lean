import BoardGame.Text.Position

/-! # Excerpts

The lines of a text that a span touches, to be shown with a message about the span. Spans count
bytes; one that lies behind the end stands for the last byte. -/

namespace BoardGame

structure Excerpt where
  /-- Whole lines, without the line feeds at the end. -/
  text : String
  /-- The number of the first line. -/
  line : Nat
  /-- Where the span starts and stops, in bytes from the start of the first line. -/
  first : Nat
  last : Nat
deriving DecidableEq, Inhabited

/-- The lines of a text, each with the line feed that ends it. -/
def splitLines : List Char → List (List Char)
  | [] => []
  | c :: cs =>
    if c = '\n' then [c] :: splitLines cs
    else
      match splitLines cs with
      | [] => [[c]]
      | l :: ls => (c :: l) :: ls

/-- A line with its place in a text. -/
structure LineAt where
  number : Nat
  /-- The byte it begins at. -/
  start : Nat
  line : List Char
  after : List (List Char)

/-- The line that holds the byte `offset`, when the first line has this number and start. -/
def lineAt? (offset number start : Nat) : List (List Char) → Option LineAt
  | [] => none
  | l :: ls =>
    if offset < start + byteLength l then some ⟨number, start, l, ls⟩
    else lineAt? offset (number + 1) (start + byteLength l) ls

/-- The text up to `start`, with as many lines more as it takes to reach the byte `stop`. -/
def extendTo (stop start : Nat) (text : List Char) : List (List Char) → List Char
  | [] => text
  | l :: ls =>
    if stop ≤ start then text else extendTo stop (start + byteLength l) (text ++ l) ls

def dropNewlines (cs : List Char) : List Char := (cs.reverse.dropWhile (· = '\n')).reverse

/-- The excerpt for the bytes `start` to `stop`; an empty text has none. -/
def excerpt? (source : String) (start stop : Nat) : Option Excerpt :=
  let cs := source.toList
  let length := byteLength cs
  let start := min start (length - 1)
  let stop := max (start + 1) (min stop length)
  (lineAt? start 1 0 (splitLines cs)).map fun l =>
    let text := extendTo stop (l.start + byteLength l.line) l.line l.after
    { text := String.ofList (dropNewlines text)
      line := l.number
      first := start - l.start
      last := min stop (l.start + byteLength text) - l.start }

namespace Excerpt

/-- The bytes of the excerpt to be marked: the span, as far as it is shown. -/
def marked (e : Excerpt) : Nat × Nat :=
  (e.first, max e.first (min e.last (byteLength e.text.toList)))

end Excerpt
end BoardGame
