import BoardGame.Proofs.Grammar.Places
import BoardGame.Proofs.Grammar.Reread.Movement

/-!
# Programs are read from what is written

Declaration by declaration, and so as a whole (`read_bareProgram_lexemes`): without places and with every
concatenation grouped to the right.
-/

namespace BoardGame.Parser
open Lexeme (next bracketed)
variable {α β : Type} {ys : List Lexeme}

/-! ### Parts -/

theorem read_integer_cons {n : Int} (h : IsUnsigned n) (ys : List Lexeme) :
    read integer (.integer n :: ys) = some (n, ys) := by
  have hread : read integer = readNext integer? := rfl
  simp only [hread, readNext, Lexeme.next_cons, integer?, if_true, readInt64?_toString h, Option.map_some,
    List.tail_cons]

theorem read_params_lexemes (params : List String) (ys : List Lexeme) :
    read Parser.params (bracketed (Lexeme.separated (params.map fun p => [.word p])) ++ ys) =
      some (params, ys) := by
  have hxs : bracketed (Lexeme.separated (params.map fun p => [.word p])) ++ ys =
      .symbol "(" :: (Lexeme.separated (params.map fun p => [.word p]) ++ .symbol ")" :: ys) := by simp [bracketed]
  rw [hxs]
  refine (read_between_eq_some_iff _).2 ⟨_, rfl, ?_⟩
  rw [read_separatedOrNone]
  cases params with
  | nil =>
    have hnil : Lexeme.separated (([] : List String).map fun p => [.word p]) ++ .symbol ")" :: ys =
        .symbol ")" :: ys := rfl
    rw [hnil, read_separated, read_word_eq_none (by simp)]
    rfl
  | cons p params =>
    have hread : read (separated word)
        (Lexeme.separated ((p :: params).map fun p => [.word p]) ++ .symbol ")" :: ys) =
          some ((p :: params).map id, .symbol ")" :: ys) :=
      read_separated_lexemes (List.cons_ne_nil p params) (by simp)
        (fun q _ zs _ _ => read_word_cons) (Nat.le_refl _)
    rw [hread, List.map_id]
    rfl

theorem read_piece_lexemes (p : PieceDecl) (ys : List Lexeme) :
    read piece (p.lexemes ++ ys) = some (p, ys) := by
  have howner : read (between "(" ")" word) (.symbol "(" :: .word p.owner :: .symbol ")" :: ys) =
      some (p.owner, ys) := (read_between_eq_some_iff _).2 ⟨_, rfl, read_word_cons⟩
  simp only [read_piece, Reading.bind, PieceDecl.lexemes, bracketed, List.cons_append, List.nil_append,
    read_word_cons, Option.bind_some, howner]

theorem read_cell_lexemes {c : Cell} (h : c.Printable) (hys : next ys ≠ .symbol "(") :
    read cell (c.lexemes ++ ys) = some (c, ys) := by
  match c with
  | .empty =>
    simp only [read_cell, Reading.bind, Cell.lexemes, List.cons_append, List.nil_append, read_word_cons,
      Option.bind_some, if_true]
  | .piece name none =>
    simp only [read_cell, Reading.bind, Cell.lexemes, List.cons_append, List.nil_append, read_word_cons,
      Option.bind_some, if_neg h.2.1, read_optional, read_between_eq_none hys]
    rfl
  | .piece name (some owner) =>
    have howner : read (between "(" ")" word) (.symbol "(" :: .word owner :: .symbol ")" :: ys) =
        some (owner, ys) := (read_between_eq_some_iff _).2 ⟨_, rfl, read_word_cons⟩
    simp only [read_cell, Reading.bind, Cell.lexemes, bracketed, List.cons_append, List.nil_append,
      read_word_cons, Option.bind_some, if_neg h.2.1, read_optional, howner]
    rfl

theorem read_returnBlock_lexemes {e : Expr} (h : e.Printable) (ys : List Lexeme) :
    read returnBlock (Declaration.returnLexemes e ++ ys) = some (e, ys) := by
  have hexpr : read expr (e.lexemes ++ .semicolon :: .symbol "\x7d" :: .semicolon :: ys) =
      some (e, .semicolon :: .symbol "\x7d" :: .semicolon :: ys) := read_expr_lexemes h (by simp [closers])
  simp only [read_returnBlock, Reading.bind, Declaration.returnLexemes, List.cons_append, List.append_assoc,
    List.nil_append, read_symbol_cons, read_keyword_cons, hexpr, read_semicolon_cons, Option.bind_some]

theorem read_assignment_lexemes {a : Assignment} (h : a.Printable) (ys : List Lexeme) :
    read assignment (a.lexemes ++ ys) = some (a, ys) := by
  have hvalue : read expr (a.value.lexemes ++ .semicolon :: ys) = some (a.value, .semicolon :: ys) :=
    read_expr_lexemes h.value (by simp [closers])
  have hindices : read (indices expr)
      (Expr.lexemesIndices a.indices ++ .operator "=" :: (a.value.lexemes ++ .semicolon :: ys)) =
        some (a.indices, .operator "=" :: (a.value.lexemes ++ .semicolon :: ys)) :=
    read_indices_lexemes h.indices (by simp)
  simp only [read_assignment, Reading.bind, Assignment.lexemes, List.cons_append, List.append_assoc,
    List.nil_append, read_word_cons, hindices, read_operator_cons, hvalue, read_semicolon_cons,
    Option.bind_some]

/-! ### Declarations -/

theorem read_assignment_eq_none (hys : (next ys).kind ≠ .word) : read assignment ys = none := by
  simp only [read_assignment, Reading.bind, read_word_eq_none hys, Option.bind_none]

theorem read_assignments_lexemes {as : List Assignment} (h : ∀ a ∈ as, a.Printable)
    (hys : (next ys).kind ≠ .word) :
    read (many assignment) (as.flatMap Assignment.lexemes ++ ys) = some (as, ys) := by
  have hchain : Chain (read assignment) (as.flatMap Assignment.lexemes ++ ys) as ys := by
    induction as with
    | nil => exact .nil ys
    | cons a as ih =>
      rw [List.flatMap_cons, List.append_assoc]
      exact .cons (read_assignment_lexemes (h a List.mem_cons_self) _)
        (ih fun a' ha' => h a' (List.mem_cons_of_mem a ha'))
  rw [read_many, hchain.readMany_eq advances_assignment (read_assignment_eq_none hys)]

theorem read_rule_lexemes {r : PieceRule} (h : r.movement.Printable) (ys : List Lexeme) :
    read rule ((Declaration.rule r).lexemes ++ ys) = some ((Declaration.rule r).reassoc, ys) := by
  have hmovement : read movement (r.movement.lexemes ++ .semicolon :: ys) =
      some (r.movement.reassoc, .semicolon :: ys) := read_movement_lexemes h (.inr (.inl rfl))
  have hxs : (Declaration.rule r).lexemes ++ ys =
      .word "rule" :: .word r.piece :: .operator "=" :: (r.movement.lexemes ++ .semicolon :: ys) := by
    simp [Declaration.lexemes]
  rw [hxs, read_rule]
  simp only [Reading.bind, read_keyword_cons, read_word_cons, read_operator_cons, hmovement,
    read_semicolon_cons, Option.bind_some, Declaration.reassoc]

theorem read_moveMacro_lexemes {m : MoveMacro} (h : m.body.Printable) (ys : List Lexeme) :
    read moveMacro ((Declaration.moveMacro m).lexemes ++ ys) =
      some ((Declaration.moveMacro m).reassoc, ys) := by
  have hmovement : read movement (m.body.lexemes ++ .semicolon :: ys) =
      some (m.body.reassoc, .semicolon :: ys) := read_movement_lexemes h (.inr (.inl rfl))
  have hxs : (Declaration.moveMacro m).lexemes ++ ys = .word "macro" :: .word m.name ::
      (bracketed (Lexeme.separated (m.params.map fun p => [.word p])) ++
        .operator "=" :: (m.body.lexemes ++ .semicolon :: ys)) := by
    simp [Declaration.lexemes, Declaration.headLexemes]
  rw [hxs, read_moveMacro]
  simp only [Reading.bind, read_keyword_cons, read_word_cons, read_params_lexemes, read_operator_cons,
    hmovement, read_semicolon_cons, Option.bind_some, Declaration.reassoc]

theorem read_predicate_lexemes {p : Predicate} (h : p.body.Printable) (ys : List Lexeme) :
    read predicate ((Declaration.predicate p).lexemes ++ ys) = some (.predicate p, ys) := by
  have hxs : (Declaration.predicate p).lexemes ++ ys = .word "predicate" :: .word p.name ::
      (bracketed (Lexeme.separated (p.params.map fun p => [.word p])) ++
        (Declaration.returnLexemes p.body ++ ys)) := by
    simp [Declaration.lexemes, Declaration.headLexemes]
  rw [hxs, read_predicate]
  simp only [Reading.bind, read_keyword_cons, read_word_cons, read_params_lexemes,
    read_returnBlock_lexemes h, Option.bind_some]

theorem read_effect_lexemes {e : Effect} (h : ∀ a ∈ e.assignments, a.Printable)
    (ys : List Lexeme) :
    read effect ((Declaration.effect e).lexemes ++ ys) = some (.effect e, ys) := by
  have hblock : read (between "\x7b" "\x7d" (many assignment)) (.symbol "\x7b" ::
      (e.assignments.flatMap Assignment.lexemes ++ .symbol "\x7d" :: .semicolon :: ys)) =
        some (e.assignments, .semicolon :: ys) :=
    (read_between_eq_some_iff _).2 ⟨_, rfl, read_assignments_lexemes h (by simp)⟩
  have hxs : (Declaration.effect e).lexemes ++ ys = .word "effect" :: .word e.name ::
      (bracketed (Lexeme.separated (e.params.map fun p => [.word p])) ++ .symbol "\x7b" ::
        (e.assignments.flatMap Assignment.lexemes ++ .symbol "\x7d" :: .semicolon :: ys)) := by
    simp [Declaration.lexemes, Declaration.headLexemes]
  rw [hxs, read_effect]
  simp only [Reading.bind, read_keyword_cons, read_word_cons, read_params_lexemes, hblock,
    read_semicolon_cons, Option.bind_some]

theorem read_variableDecl_lexemes {v : VariableDecl} (h : v.value.Printable) (ys : List Lexeme) :
    read variableDecl ((Declaration.var v).lexemes ++ ys) = some (.var v, ys) := by
  have hexpr : read expr (v.value.lexemes ++ .semicolon :: ys) = some (v.value, .semicolon :: ys) :=
    read_expr_lexemes h (by simp [closers])
  have hxs : (Declaration.var v).lexemes ++ ys =
      .word "variable" :: .word v.name :: .operator "=" :: (v.value.lexemes ++ .semicolon :: ys) := by
    simp [Declaration.lexemes]
  rw [hxs, read_variableDecl]
  simp only [Reading.bind, read_keyword_cons, read_word_cons, read_operator_cons, hexpr,
    read_semicolon_cons, Option.bind_some]

theorem read_victory_lexemes {v : Victory} (h : v.condition.Printable) (ys : List Lexeme) :
    read victory ((Declaration.victory v).lexemes ++ ys) = some (.victory v, ys) := by
  have hxs : (Declaration.victory v).lexemes ++ ys = .word "victory" :: .word v.player ::
      (Declaration.returnLexemes v.condition ++ ys) := by simp [Declaration.lexemes]
  rw [hxs, read_victory]
  simp only [Reading.bind, read_keyword_cons, read_word_cons, read_returnBlock_lexemes h,
    Option.bind_some]

theorem read_declaration_lexemes {d : Declaration} (h : d.Printable) (ys : List Lexeme) :
    read declaration (d.lexemes ++ ys) = some (d.reassoc, ys) := by
  rw [read_declaration]
  cases d with
  | rule r => exact (if_pos rfl).trans (read_rule_lexemes h.2 ys)
  | moveMacro m => exact read_moveMacro_lexemes h.2.2 ys
  | predicate p => exact read_predicate_lexemes h.2.2 ys
  | effect e => exact read_effect_lexemes h.2.2 ys
  | var v => exact read_variableDecl_lexemes h.2 ys
  | victory v => exact read_victory_lexemes h.2 ys

/-- The words that tell a declaration. -/
def declarationWords : List String := ["rule", "macro", "predicate", "effect", "variable", "victory"]

theorem read_declaration_eq_none {name : String} (hname : name ∉ declarationWords)
    (hys : next ys = .word name) : read declaration ys = none := by
  simp only [declarationWords, List.mem_cons, List.not_mem_nil, or_false, not_or] at hname
  obtain ⟨h₁, h₂, h₃, h₄, h₅, h₆⟩ := hname
  simp [read_declaration, hys, h₁, h₂, h₃, h₄, h₅, h₆]

theorem read_declarations_lexemes {ds : List (Spanned Declaration)} (h : ∀ d ∈ ds, d.value.Printable)
    (hys : next ys = .word "board_size") : read (many declaration) (ds.flatMap (·.value.lexemes) ++ ys) =
      some (ds.map (·.value.reassoc), ys) := by
  have hchain : Chain (read declaration) (ds.flatMap (·.value.lexemes) ++ ys) (ds.map (·.value.reassoc)) ys := by
    induction ds with
    | nil => exact .nil ys
    | cons d ds ih =>
      rw [List.flatMap_cons, List.append_assoc]
      exact .cons (read_declaration_lexemes (h d List.mem_cons_self) _)
        (ih fun d' hd' => h d' (List.mem_cons_of_mem d hd'))
  rw [read_many, hchain.readMany_eq advances_declaration (read_declaration_eq_none (by decide) hys)]

/-! ### Programs -/

theorem read_listOf_lexemes (name : String) (p : Parser α) [Readable p] (write : α → List Lexeme)
    {items : List (Spanned α)} (hne : items ≠ [])
    (h : ∀ a ∈ items, ∀ zs, next zs = .comma ∨ next zs = .semicolon →
      read p (write a.value ++ zs) = some (a.value, zs)) (ys : List Lexeme) :
    read (listOf name p) (.word name :: .operator "=" ::
      (Lexeme.separated (items.map fun a => write a.value) ++ .semicolon :: ys)) =
        some (items.map Spanned.value, ys) := by
  have hitems : read (separated p)
      (Lexeme.separated (items.map fun a => write a.value) ++ .semicolon :: ys) =
        some (items.map Spanned.value, .semicolon :: ys) :=
    read_separated_lexemes hne (by simp) (fun a ha zs hzs _ => h a ha zs hzs) (Nat.le_refl _)
  simp only [read_listOf, Reading.bind, read_keyword_cons, read_operator_cons, hitems, read_semicolon_cons,
    Option.bind_some]

theorem read_bareBoard_lexemes {b : BoardDecl} (h : b.Printable) (ys : List Lexeme) :
    read bareBoard (b.lexemes ++ ys) = some (b.bare, ys) := by
  have hcells := read_listOf_lexemes "board" cell Cell.lexemes h.cells_ne_nil
    (fun c hc zs hzs => read_cell_lexemes (h.cells c hc) (by rcases hzs with hzs | hzs <;> simp [hzs])) ys
  simp only [read_bareBoard, Reading.bind, BoardDecl.lexemes, List.cons_append, List.append_assoc,
    List.nil_append, read_keyword_cons, read_operator_cons, read_integer_cons h.width, read_comma_cons,
    read_integer_cons h.height, read_semicolon_cons, hcells, Option.bind_some, Spanned.map_unplaced,
    BoardDecl.bare]

theorem read_bareProgram_lexemes {p : Program} (h : p.Printable) :
    read bareProgram (p.lexemes ++ [.ending]) = some (p.bare.reassoc, []) := by
  have hxs : p.lexemes ++ [.ending] = .word "players" :: .operator "=" ::
      (Lexeme.separated (p.players.map fun n => [.word n.value]) ++ .semicolon ::
        .word "pieces" :: .operator "=" :: (Lexeme.separated (p.pieces.map fun q => q.value.lexemes) ++
          .semicolon :: (p.declarations.flatMap (·.value.lexemes) ++
            (p.board.value.lexemes ++ [.ending])))) := by
    simp [Program.lexemes]
  have hplayers := read_listOf_lexemes "players" word (fun n => [.word n]) h.players_ne_nil
    fun n hn zs hzs => read_word_cons
  have hpieces := read_listOf_lexemes "pieces" piece PieceDecl.lexemes h.pieces_ne_nil
    fun q hq zs hzs => read_piece_lexemes q.value zs
  have hdeclarations : read (many declaration)
      (p.declarations.flatMap (·.value.lexemes) ++ (p.board.value.lexemes ++ [.ending])) =
        some (p.declarations.map (·.value.reassoc), p.board.value.lexemes ++ [.ending]) :=
    read_declarations_lexemes h.declarations rfl
  have hend : read endOfInput [.ending] = some ((), []) := rfl
  rw [hxs]
  simp only [read_bareProgram, Reading.bind, hplayers, hpieces, hdeclarations,
    read_bareBoard_lexemes h.board, hend, Option.bind_some, Program.bare, Program.reassoc, List.map_map]
  rfl

end BoardGame.Parser
