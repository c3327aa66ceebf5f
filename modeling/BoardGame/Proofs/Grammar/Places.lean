import BoardGame.Proofs.Grammar.Declarations
import BoardGame.Proofs.Grammar.Written

/-!
# Programs without places

The lists of a program keep the place of each item, so the parsers of whole programs are not readable.
They are once the places are left out (`readsAs_program`).
-/

namespace BoardGame

/-- A value with no place. -/
def Spanned.unplaced {α : Type} (a : α) : Spanned α := ⟨a, 0, 0⟩

theorem Spanned.map_unplaced {α : Type} (ss : List (Spanned α)) :
    (ss.map value).map unplaced = ss.map bare := List.map_map

namespace Parser
variable {α β : Type}

/-- `name = item, …, item;` -/
def listOf (name : String) (item : Parser α) : Parser (List α) := do
  keyword name
  operator "="
  let items ← separated item
  semicolon
  return items

instance (name : String) (p : Parser α) [Readable p] : Readable (listOf name p) := by
  delta listOf; infer_instance

theorem read_listOf (name : String) (p : Parser α) [Readable p] : read (listOf name p) =
    Reading.bind (read (keyword name)) fun _ => Reading.bind (read (operator "=")) fun _ =>
    Reading.bind (read (separated p)) fun items => Reading.bind (read semicolon) fun _ xs =>
      some (items, xs) := rfl

theorem readsAs_players : ReadsAs (List.map Spanned.value) players (read (listOf "players" word)) := by
  rw [read_listOf]
  exact ReadsAs.attempt <| (readsAs (keyword "players")).bind fun _ => (readsAs (operator "=")).bind fun _ =>
    (readsAs word).spanned.separated.bind fun items => (readsAs semicolon).bind fun _ => readsAs_pure items

theorem readsAs_pieces : ReadsAs (List.map Spanned.value) pieces (read (listOf "pieces" piece)) := by
  rw [read_listOf]
  exact ReadsAs.attempt <| (readsAs (keyword "pieces")).bind fun _ => (readsAs (operator "=")).bind fun _ =>
    (readsAs piece).spanned.separated.bind fun items => (readsAs semicolon).bind fun _ => readsAs_pure items

/-- The board, its cells without places. -/
def bareBoard : Parser BoardDecl := do
  keyword "board_size"
  operator "="
  let width ← integer
  comma
  let height ← integer
  semicolon
  let cells ← listOf "board" cell
  return ⟨width, height, cells.map .unplaced⟩

instance : Readable bareBoard := by
  delta bareBoard
  exact @readableBind _ _ _ _ inferInstance fun _ => @readableBind _ _ _ _ inferInstance fun _ => inferInstance

theorem read_bareBoard : read bareBoard = Reading.bind (read (keyword "board_size")) fun _ =>
    Reading.bind (read (operator "=")) fun _ => Reading.bind (read integer) fun width =>
    Reading.bind (read comma) fun _ => Reading.bind (read integer) fun height =>
    Reading.bind (read semicolon) fun _ => Reading.bind (read (listOf "board" cell)) fun cells xs =>
      some (⟨width, height, cells.map .unplaced⟩, xs) := rfl

theorem readsAs_board : ReadsAs BoardDecl.bare board (read bareBoard) := by
  simp only [read_bareBoard, read_listOf, Reading.bind_assoc]
  refine ReadsAs.attempt <| (readsAs (keyword "board_size")).bind fun _ =>
    (readsAs (operator "=")).bind fun _ => (readsAs integer).bind fun width =>
    (readsAs comma).bind fun _ => (readsAs integer).bind fun height => (readsAs semicolon).bind fun _ =>
    (readsAs (keyword "board")).bind fun _ => (readsAs (operator "=")).bind fun _ =>
    (readsAs cell).spanned.separated.bind fun cells => (readsAs semicolon).bind fun _ => ?_
  have hbare : ReadsAs BoardDecl.bare (pure ⟨width, height, cells⟩) fun xs =>
      some (BoardDecl.bare ⟨width, height, cells⟩, xs) := readsAs_pure _
  rwa [BoardDecl.bare, ← Spanned.map_unplaced] at hbare

/-- The program without places. -/
def bareProgram : Parser Program := do
  let players ← listOf "players" word
  let pieces ← listOf "pieces" piece
  let declarations ← many declaration
  let board ← bareBoard
  endOfInput
  return ⟨players.map .unplaced, pieces.map .unplaced, declarations.map .unplaced, .unplaced board⟩

instance : Readable bareProgram := by delta bareProgram; infer_instance

theorem read_bareProgram : read bareProgram = Reading.bind (read (listOf "players" word)) fun players =>
    Reading.bind (read (listOf "pieces" piece)) fun pieces =>
    Reading.bind (read (many declaration)) fun declarations => Reading.bind (read bareBoard) fun board =>
    Reading.bind (read endOfInput) fun _ xs => some (⟨players.map .unplaced, pieces.map .unplaced,
      declarations.map .unplaced, .unplaced board⟩, xs) := rfl

theorem readsAs_program : ReadsAs Program.bare program (read bareProgram) := by
  rw [read_bareProgram]
  refine ReadsAs.attempt <| readsAs_players.bind fun players => readsAs_pieces.bind fun pieces =>
    (readsAs declaration).spanned.many.bind fun declarations => readsAs_board.spanned.bind fun board =>
    (readsAs endOfInput).bind fun _ => ?_
  simp only [id_eq, Spanned.map_unplaced]
  exact readsAs_pure _

end Parser
end BoardGame
