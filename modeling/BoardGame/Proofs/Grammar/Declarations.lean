import BoardGame.Grammar.Program
import BoardGame.Proofs.Grammar.Nesting

/-!
# Declarations

Each parser of a declaration reads its parts one after another; what its reading is made of is stated
once for each.
-/

namespace BoardGame.Parser
open Lexeme (next)
variable {α β : Type}

/-! ### Parts -/

instance : Readable params := by delta params; infer_instance

instance : Readable piece := by delta piece; infer_instance

instance : Readable cell := by delta cell; infer_instance

instance : Readable returnBlock := by delta returnBlock; infer_instance

instance : Readable assignment := by delta assignment; infer_instance

theorem read_piece : read piece = Reading.bind (read word) fun name =>
    Reading.bind (read (between "(" ")" word)) fun owner xs => some (⟨name, owner⟩, xs) := rfl

theorem read_cell : read cell = Reading.bind (read word) fun name xs =>
    if name = "None" then some (.empty, xs)
    else Reading.bind (read (optional (between "(" ")" word))) (fun owner xs =>
      some (.piece name owner, xs)) xs := rfl

theorem read_returnBlock : read returnBlock = Reading.bind (read (symbol "\x7b")) fun _ =>
    Reading.bind (read (keyword "return")) fun _ => Reading.bind (read expr) fun value =>
    Reading.bind (read semicolon) fun _ => Reading.bind (read (symbol "\x7d")) fun _ =>
    Reading.bind (read semicolon) fun _ xs => some (value, xs) := rfl

theorem read_assignment : read assignment = Reading.bind (read word) fun target =>
    Reading.bind (read (indices expr)) fun is => Reading.bind (read (operator "=")) fun _ =>
    Reading.bind (read expr) fun value => Reading.bind (read semicolon) fun _ xs =>
      some (⟨target, is, value⟩, xs) := rfl

theorem advances_assignment : Advances (read assignment) := advances_word.bind.attempt

/-! ### The kinds of declarations -/

instance : Readable rule := by delta rule; infer_instance

instance : Readable moveMacro := by delta moveMacro; infer_instance

instance : Readable predicate := by delta predicate; infer_instance

instance : Readable effect := by delta effect; infer_instance

instance : Readable variableDecl := by delta variableDecl; infer_instance

instance : Readable victory := by delta victory; infer_instance

theorem read_rule : read rule = Reading.bind (read (keyword "rule")) fun _ =>
    Reading.bind (read word) fun piece => Reading.bind (read (operator "=")) fun _ =>
    Reading.bind (read movement) fun m => Reading.bind (read semicolon) fun _ xs =>
      some (.rule ⟨piece, m⟩, xs) := rfl

theorem read_moveMacro : read moveMacro = Reading.bind (read (keyword "macro")) fun _ =>
    Reading.bind (read word) fun name => Reading.bind (read params) fun params =>
    Reading.bind (read (operator "=")) fun _ => Reading.bind (read movement) fun m =>
    Reading.bind (read semicolon) fun _ xs => some (.moveMacro ⟨name, params, m⟩, xs) := rfl

theorem read_predicate : read predicate = Reading.bind (read (keyword "predicate")) fun _ =>
    Reading.bind (read word) fun name => Reading.bind (read params) fun params =>
    Reading.bind (read returnBlock) fun body xs => some (.predicate ⟨name, params, body⟩, xs) := rfl

theorem read_effect : read effect = Reading.bind (read (keyword "effect")) fun _ =>
    Reading.bind (read word) fun name => Reading.bind (read params) fun params =>
    Reading.bind (read (between "\x7b" "\x7d" (many assignment))) fun assignments =>
    Reading.bind (read semicolon) fun _ xs => some (.effect ⟨name, params, assignments⟩, xs) := rfl

theorem read_variableDecl : read variableDecl = Reading.bind (read (keyword "variable")) fun _ =>
    Reading.bind (read word) fun name => Reading.bind (read (operator "=")) fun _ =>
    Reading.bind (read expr) fun value => Reading.bind (read semicolon) fun _ xs =>
      some (.var ⟨name, value⟩, xs) := rfl

theorem read_victory : read victory = Reading.bind (read (keyword "victory")) fun _ =>
    Reading.bind (read word) fun player => Reading.bind (read returnBlock) fun condition xs =>
      some (.victory ⟨player, condition⟩, xs) := rfl

/-! ### All declarations -/

instance : Readable declaration := by
  delta declaration
  exact readableOfPeek _ fun _ => rfl

/-- The first word tells the kind. -/
theorem read_declaration (xs : List Lexeme) : read declaration xs =
    if next xs = ⟨.word, "rule"⟩ then read rule xs
    else if next xs = ⟨.word, "macro"⟩ then read moveMacro xs
    else if next xs = ⟨.word, "predicate"⟩ then read predicate xs
    else if next xs = ⟨.word, "effect"⟩ then read effect xs
    else if next xs = ⟨.word, "variable"⟩ then read variableDecl xs
    else if next xs = ⟨.word, "victory"⟩ then read victory xs
    else none := by
  have his : ∀ literal, (next xs).toToken.is .word literal = true ↔ next xs = ⟨.word, literal⟩ := by
    intro literal
    cases next xs
    simp [Token.is, Lexeme.toToken]
  have hread : read declaration xs =
      if (next xs).toToken.is .word "rule" then read rule xs
      else if (next xs).toToken.is .word "macro" then read moveMacro xs
      else if (next xs).toToken.is .word "predicate" then read predicate xs
      else if (next xs).toToken.is .word "effect" then read effect xs
      else if (next xs).toToken.is .word "variable" then read variableDecl xs
      else if (next xs).toToken.is .word "victory" then read victory xs
      else none := rfl
  rw [hread]
  simp only [his]

theorem read_declaration_eq_some {xs ys : List Lexeme} {d : Declaration}
    (h : read declaration xs = some (d, ys)) :
    read rule xs = some (d, ys) ∨ read moveMacro xs = some (d, ys) ∨ read predicate xs = some (d, ys) ∨
      read effect xs = some (d, ys) ∨ read variableDecl xs = some (d, ys) ∨
      read victory xs = some (d, ys) := by
  rw [read_declaration] at h
  split at h
  · exact .inl h
  split at h
  · exact .inr (.inl h)
  split at h
  · exact .inr (.inr (.inl h))
  split at h
  · exact .inr (.inr (.inr (.inl h)))
  split at h
  · exact .inr (.inr (.inr (.inr (.inl h))))
  split at h
  · exact .inr (.inr (.inr (.inr (.inr h))))
  · exact absurd h nofun

theorem advances_declaration : Advances (read declaration) := by
  intro xs d ys h
  rcases read_declaration_eq_some h with h | h | h | h | h | h
  · exact (advances_keyword.bind.attempt : Advances (read rule)) xs d ys h
  · exact (advances_keyword.bind.attempt : Advances (read moveMacro)) xs d ys h
  · exact (advances_keyword.bind.attempt : Advances (read predicate)) xs d ys h
  · exact (advances_keyword.bind.attempt : Advances (read effect)) xs d ys h
  · exact (advances_keyword.bind.attempt : Advances (read variableDecl)) xs d ys h
  · exact (advances_keyword.bind.attempt : Advances (read victory)) xs d ys h

end BoardGame.Parser
