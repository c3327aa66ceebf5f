import BoardGame.Program
import BoardGame.Grammar.Program
import BoardGame.Proofs.Grammar.Reading
import BoardGame.Proofs.Token.Numerals
import BoardGame.Token.Scan

/-!
# Trees as they are written

The lexemes a tree is written with (`lexemes`), the trees that can be read from a text at all
(`Printable`), and what printing forgets: the places in the text and how a concatenation was grouped
(`Program.bare`, `Movement.reassoc`).
-/

namespace BoardGame

namespace Lexeme

abbrev word (literal : String) : Lexeme := ⟨.word, literal⟩

abbrev symbol (literal : String) : Lexeme := ⟨.symbol, literal⟩

abbrev operator (literal : String) : Lexeme := ⟨.operator, literal⟩

abbrev integer (n : Int) : Lexeme := ⟨.integer, toString n⟩

abbrev comma : Lexeme := ⟨.comma, ","⟩

abbrev semicolon : Lexeme := ⟨.semicolon, ";"⟩

/-- Items with a comma between two. -/
def separated : List (List Lexeme) → List Lexeme
  | [] => []
  | x :: xs => x ++ xs.flatMap (comma :: ·)

/-- An item between round brackets. -/
def bracketed (xs : List Lexeme) : List Lexeme := symbol "(" :: xs ++ [symbol ")"]

end Lexeme

open Lexeme (word symbol operator integer comma semicolon separated bracketed)

/-- A text that is one word. -/
def IsWord (s : String) : Prop :=
  ∃ c cs, s.toList = c :: cs ∧ isWordStart c ∧ ∀ d ∈ cs, isWordChar d

/-- A word as words are spelled, and a numeral for an integer. -/
structure Lexeme.Spelled (x : Lexeme) : Prop where
  word : x.kind = .word → IsWord x.literal
  integer : x.kind = .integer → IsNumeral x.literal

/-! ### Expressions -/

mutual

def Expr.lexemes : Expr → List Lexeme
  | .literal value => [integer value]
  | .var name => [word name]
  | .field name key => [word name, operator ".", word key]
  | .index name indices => word name :: Expr.lexemesIndices indices
  | .binary op left right =>
    symbol "(" :: left.lexemes ++ operator op.symbol :: right.lexemes ++ [symbol ")"]
  | .unary op operand => operator op.symbol :: operand.lexemes
  | .call name args => word name :: bracketed (separated (Expr.lexemesAll args))

def Expr.lexemesIndices : List Expr → List Lexeme
  | [] => []
  | e :: es => symbol "[" :: e.lexemes ++ symbol "]" :: Expr.lexemesIndices es

def Expr.lexemesAll : List Expr → List (List Lexeme)
  | [] => []
  | e :: es => e.lexemes :: Expr.lexemesAll es

end

mutual

/-- An expression that can be read: a name is no operator and has no empty list of indices, and `not`
before one expression in brackets is no call. -/
def Expr.Printable : Expr → Prop
  | .literal value => IsUnsigned value
  | .var name => IsWord name ∧ name ∉ Parser.operatorWords
  | .field name key => IsWord name ∧ name ∉ Parser.operatorWords ∧ IsWord key
  | .index name indices =>
    IsWord name ∧ name ∉ Parser.operatorWords ∧ indices ≠ [] ∧ Expr.PrintableAll indices
  | .binary _ left right => left.Printable ∧ right.Printable
  | .unary _ operand => operand.Printable
  | .call name args => IsWord name ∧ ¬ (name = "not" ∧ args.length = 1) ∧ Expr.PrintableAll args

def Expr.PrintableAll : List Expr → Prop
  | [] => True
  | e :: es => e.Printable ∧ Expr.PrintableAll es

end

theorem Expr.printableAll_iff {es : List Expr} : PrintableAll es ↔ ∀ e ∈ es, e.Printable := by
  induction es with
  | nil => simp [PrintableAll]
  | cons e es ih => simp [PrintableAll, ih]

theorem Expr.lexemesAll_eq_map (es : List Expr) : lexemesAll es = es.map lexemes := by
  induction es with
  | nil => rfl
  | cons e es ih => rw [lexemesAll, List.map_cons, ih]

def Call.lexemes (c : Call) : List Lexeme := c.toExpr.lexemes

/-- A call that stands by itself may have any name. -/
def Call.Printable (c : Call) : Prop := IsWord c.name ∧ Expr.PrintableAll c.args

/-! ### Movements -/

def Condition.lexemes (c : Condition) : List Lexeme := c.toExpr.lexemes

def Condition.Printable : Condition → Prop
  | named name => IsWord name
  | call c => c.Printable

namespace Letter

/-- The effect of a letter in its brackets. -/
def effectLexemes : Option Call → List Lexeme
  | none => []
  | some e => symbol "\x7b" :: e.lexemes ++ [symbol "\x7d"]

def lexemes (l : Letter) : List Lexeme :=
  bracketed (separated [l.dx.lexemes, l.dy.lexemes, l.condition.lexemes]) ++ effectLexemes l.effect

structure Printable (l : Letter) : Prop where
  dx : l.dx.Printable
  dy : l.dy.Printable
  condition : l.condition.Printable
  effect : ∀ c ∈ l.effect, c.Printable

end Letter

namespace Movement

def lexemes : Movement → List Lexeme
  | letter l => l.lexemes
  | concat left right => left.lexemes ++ right.lexemes
  | union left right => bracketed (left.lexemes ++ operator "|" :: right.lexemes)
  | star inner => bracketed inner.lexemes ++ [operator "*"]
  | plus inner => bracketed inner.lexemes ++ [operator "+"]
  | optional inner => bracketed inner.lexemes ++ [operator "?"]
  | expand c => c.lexemes

def Printable : Movement → Prop
  | letter l => l.Printable
  | concat left right | union left right => left.Printable ∧ right.Printable
  | star inner | plus inner | optional inner => inner.Printable
  | expand c => c.Printable

/-- The concatenation of two movements, the first of which is grouped to the right. -/
def followedBy : Movement → Movement → Movement
  | concat left right, m => concat left (right.followedBy m)
  | m, n => concat m n

/-- The movement with every concatenation grouped to the right. -/
def reassoc : Movement → Movement
  | concat left right => left.reassoc.followedBy right.reassoc
  | union left right => union left.reassoc right.reassoc
  | star inner => star inner.reassoc
  | plus inner => plus inner.reassoc
  | optional inner => optional inner.reassoc
  | letter l => letter l
  | expand c => expand c

/-- What a movement is a concatenation of, each part regrouped. -/
def factors : Movement → List Movement
  | concat left right => left.factors ++ right.factors
  | m => [m.reassoc]

end Movement

/-! ### Programs -/

def PieceDecl.lexemes (p : PieceDecl) : List Lexeme := word p.name :: bracketed [word p.owner]

def PieceDecl.Printable (p : PieceDecl) : Prop := IsWord p.name ∧ IsWord p.owner

namespace Assignment

def lexemes (a : Assignment) : List Lexeme :=
  word a.target :: Expr.lexemesIndices a.indices ++ operator "=" :: a.value.lexemes ++ [semicolon]

structure Printable (a : Assignment) : Prop where
  target : IsWord a.target
  indices : Expr.PrintableAll a.indices
  value : a.value.Printable

end Assignment

namespace Declaration

def headLexemes (name : String) (params : List String) : List Lexeme :=
  word name :: bracketed (separated (params.map fun p => [word p]))

def returnLexemes (value : Expr) : List Lexeme :=
  symbol "\x7b" :: word "return" :: value.lexemes ++ [semicolon, symbol "\x7d", semicolon]

def lexemes : Declaration → List Lexeme
  | rule r => word "rule" :: word r.piece :: operator "=" :: r.movement.lexemes ++ [semicolon]
  | moveMacro m =>
    word "macro" :: headLexemes m.name m.params ++ operator "=" :: m.body.lexemes ++ [semicolon]
  | predicate p => word "predicate" :: headLexemes p.name p.params ++ returnLexemes p.body
  | effect e =>
    word "effect" :: headLexemes e.name e.params ++
      symbol "\x7b" :: e.assignments.flatMap Assignment.lexemes ++ [symbol "\x7d", semicolon]
  | var v => word "variable" :: word v.name :: operator "=" :: v.value.lexemes ++ [semicolon]
  | victory v => word "victory" :: word v.player :: returnLexemes v.condition

def Printable : Declaration → Prop
  | rule r => IsWord r.piece ∧ r.movement.Printable
  | moveMacro m => IsWord m.name ∧ (∀ p ∈ m.params, IsWord p) ∧ m.body.Printable
  | predicate p => IsWord p.name ∧ (∀ q ∈ p.params, IsWord q) ∧ p.body.Printable
  | effect e => IsWord e.name ∧ (∀ p ∈ e.params, IsWord p) ∧ ∀ a ∈ e.assignments, a.Printable
  | var v => IsWord v.name ∧ v.value.Printable
  | victory v => IsWord v.player ∧ v.condition.Printable

def reassoc : Declaration → Declaration
  | rule r => rule { r with movement := r.movement.reassoc }
  | moveMacro m => moveMacro { m with body := m.body.reassoc }
  | d => d

end Declaration

namespace Cell

def lexemes : Cell → List Lexeme
  | empty => [word "None"]
  | piece name none => [word name]
  | piece name (some owner) => word name :: bracketed [word owner]

def Printable : Cell → Prop
  | empty => True
  | piece name owner => IsWord name ∧ name ≠ "None" ∧ ∀ o ∈ owner, IsWord o

end Cell

def Spanned.bare {α : Type} (s : Spanned α) : Spanned α := ⟨s.value, 0, 0⟩

namespace BoardDecl

def lexemes (b : BoardDecl) : List Lexeme :=
  [word "board_size", operator "=", integer b.width, comma, integer b.height, semicolon,
    word "board", operator "="] ++ separated (b.cells.map (·.value.lexemes)) ++ [semicolon]

structure Printable (b : BoardDecl) : Prop where
  width : IsUnsigned b.width
  height : IsUnsigned b.height
  cells_ne_nil : b.cells ≠ []
  cells : ∀ c ∈ b.cells, c.value.Printable

/-- The board without the places of its cells. -/
def bare (b : BoardDecl) : BoardDecl := { b with cells := b.cells.map Spanned.bare }

end BoardDecl

namespace Program

def lexemes (p : Program) : List Lexeme :=
  word "players" :: operator "=" :: separated (p.players.map fun n => [word n.value]) ++
    semicolon :: word "pieces" :: operator "=" :: separated (p.pieces.map (·.value.lexemes)) ++
    semicolon :: p.declarations.flatMap (·.value.lexemes) ++ p.board.value.lexemes

structure Printable (p : Program) : Prop where
  players_ne_nil : p.players ≠ []
  players : ∀ n ∈ p.players, IsWord n.value
  pieces_ne_nil : p.pieces ≠ []
  pieces : ∀ q ∈ p.pieces, q.value.Printable
  declarations : ∀ d ∈ p.declarations, d.value.Printable
  board : p.board.value.Printable

/-- The program without the places in the text. -/
def bare (p : Program) : Program where
  players := p.players.map Spanned.bare
  pieces := p.pieces.map Spanned.bare
  declarations := p.declarations.map Spanned.bare
  board := (p.board.map BoardDecl.bare).bare

/-- The program with every concatenation grouped to the right. -/
def reassoc (p : Program) : Program :=
  { p with declarations := p.declarations.map fun d => d.map Declaration.reassoc }

end Program
end BoardGame
