import BoardGame.Proofs.Board.Placement
import BoardGame.Proofs.Checks.Decision
import BoardGame.Proofs.Rules.Definitions

/-!
# Building the rules of a checked program

The players, the pieces and the board of a well-formed program are built without a failure, so only an
expression can keep it from having rules. Rules that were built hold what the program declares, piece by
piece and player by player (`Program.build_of_check`).
-/

namespace BoardGame

namespace Program
variable {p : Program} {d : Definitions} {env : Env} {rules : Rules}

/-! ### Definitions and the first board -/

theorem definitions_of_wellFormed (hp : p.WellFormed) : p.definitions = .ok p.dictionary :=
  definitions_eq_ok_iff.2 ⟨⟨hp.owners, hp.victories⟩, rfl⟩

theorem exists_cellPiece {cell : Cell} (h : p.WellFormedCell cell) :
    ∃ piece, cellPiece p.dictionary cell = .ok piece := by
  cases cell with
  | empty => exact ⟨none, rfl⟩
  | piece name owner =>
    obtain ⟨q, hq, rfl, -⟩ := h
    have hname : q.value.name ∈ p.dictionary.pieces.map (·.name) := by
      rw [dictionary, List.map_map]
      exact List.mem_map_of_mem (f := fun q : Spanned PieceDecl => q.value.name) hq
    obtain ⟨piece, hpiece⟩ := Definitions.exists_pieceId? hname
    exact ⟨some piece, by rw [cellPiece, hpiece]⟩

/-- Cells that name declared pieces find their places on the board, if they are not too many. -/
theorem exists_placeCells (decl : BoardDecl) {b : Board} {k : Nat} {cells : List Cell}
    (hcells : ∀ c ∈ cells, ∃ piece, cellPiece d c = .ok piece)
    (hk : k + cells.length ≤ b.width * b.height) :
    ∃ b', placeCells d decl b.width b.height k b cells = .ok b' := by
  cases h : placeCells d decl b.width b.height k b cells with
  | ok b' => exact ⟨b', rfl⟩
  | error e =>
    obtain ⟨c, hc, name, ⟨hname, owner, rfl⟩, -⟩ := placeCells_eq_error h hk
    obtain ⟨piece, hpiece⟩ := hcells _ hc
    rw [cellPiece, hname] at hpiece
    cases hpiece

theorem exists_initialBoard (hp : p.WellFormed) :
    ∃ b, initialBoard p.board.value p.dictionary = .ok b := by
  obtain ⟨hwidth, hheight⟩ := hp.sides_pos
  have hsides : p.board.value.sides? =
      some (p.board.value.width.toNat, p.board.value.height.toNat) := by
    rw [BoardDecl.sides?, if_pos ⟨hwidth, hheight, hp.area_lt⟩]
  have harea : p.board.value.cells.length =
      p.board.value.width.toNat * p.board.value.height.toNat := by
    rw [← Int.natCast_inj, Int.natCast_mul, Int.toNat_of_nonneg (Int.le_of_lt hwidth),
      Int.toNat_of_nonneg (Int.le_of_lt hheight), hp.area]
  have hcells : ∀ c ∈ p.board.value.cells.map (·.value), ∃ piece, cellPiece p.dictionary c = .ok piece :=
    List.forall_mem_map.2 fun c hc => exists_cellPiece (hp.cells c hc)
  obtain ⟨b, hb⟩ := exists_placeCells p.board.value (k := 0)
    (b := .empty p.board.value.width.toNat p.board.value.height.toNat) hcells
    (by rw [List.length_map, harea, Nat.zero_add]; exact Nat.le_refl _)
  exact ⟨b, (initialBoard_eq_placeCells _ hsides harea).trans hb⟩

/-! ### Variables and pieces -/

/-- Variables can only fail to be bound because an expression fails. -/
theorem initialVariables_eq_error {e : BuildError} (h : p.initialVariables d = .error e) :
    ∃ name err, e = .var name err := by
  have hfold : ∀ (vs : List VariableDecl) (vars : Variables),
      vs.foldlM (bindVariable d) vars = .error e → ∃ name err, e = .var name err := by
    intro vs
    induction vs with
    | nil => intro vars h; cases h
    | cons v vs ih =>
      intro vars h
      rw [List.foldlM_cons, bind_eq_error_iff] at h
      rcases h with h | ⟨vars', -, h⟩
      · unfold bindVariable at h
        split at h
        · exact ⟨_, _, (Except.error.inj h).symm⟩
        · cases h
      · exact ih vars' h
  exact hfold _ _ h

theorem compilePiece_eq_error {type : PieceType} {e : BuildError}
    (h : p.compilePiece env type = .error e) : ∃ err, e = .rule type.name err := by
  unfold compilePiece at h
  split at h
  · cases h
  · split at h
    · exact ⟨_, (Except.error.inj h).symm⟩
    · cases h

theorem build_of_wellFormed (hp : p.WellFormed) : p.build = (do
    let vars ← p.initialVariables p.dictionary
    let pieces ← p.dictionary.pieces.mapM
      (p.compilePiece { definitions := p.dictionary, vars := vars })
    let board ← initialBoard p.board.value p.dictionary
    return ⟨p.dictionary, pieces, vars, board⟩) := by
  rw [build, definitions_of_wellFormed hp]
  rfl

/-- Of a well-formed program only a variable or a rule can fail to be built. -/
theorem build_eq_error (hp : p.WellFormed) {e : BuildError} (h : p.build = .error e) :
    ∃ name err, e = .var name err ∨ e = .rule name err := by
  obtain ⟨board, hboard⟩ := exists_initialBoard hp
  rw [build_of_wellFormed hp, bind_eq_error_iff] at h
  rcases h with h | ⟨vars, -, h⟩
  · obtain ⟨name, err, rfl⟩ := initialVariables_eq_error h
    exact ⟨name, err, .inl rfl⟩
  rcases bind_eq_error_iff.1 h with h | ⟨pieces, -, h⟩
  · obtain ⟨type, -, htype⟩ := mapM_eq_error h
    obtain ⟨err, rfl⟩ := compilePiece_eq_error htype
    exact ⟨_, err, .inr rfl⟩
  · rw [hboard] at h
    cases h

/-! ### What is built -/

/-- A piece has the name and the owner that it is declared with, and the automaton of its only rule, or
the empty one if it has no rule. -/
structure Compiles (p : Program) (rules : Rules) (q : PieceDecl) (piece : BoardPiece) : Prop where
  name_eq : piece.name = q.name
  owner : (p.players.map (·.value))[piece.owner]? = some q.owner
  automaton : (p.rules.filter (·.piece = q.name) = [] ∧ piece.dfa = .empty ∧ piece.nfaSize = none) ∨
    ∃ r pattern, p.rules.filter (·.piece = q.name) = [r] ∧
      ({ definitions := rules.definitions, vars := rules.vars } : Env).resolve [] r.movement =
        .ok pattern ∧
      piece.dfa = .ofNfa (.ofPattern pattern) ∧ piece.nfaSize = some (Nfa.ofPattern pattern).size

/-- What is found under a key that only one thing has is the only one with that key. -/
theorem filter_eq_singleton {α : Type} {key : α → String} {as : List α} {a : α} {name : String}
    (h : (as.map key).Nodup) (hfind : as.find? (key · = name) = some a) :
    as.filter (key · = name) = [a] := by
  induction as with
  | nil => cases hfind
  | cons b as ih =>
    obtain ⟨hb, has⟩ := List.nodup_cons.1 h
    by_cases hkey : key b = name
    · rw [List.find?_cons_of_pos (by simpa using hkey)] at hfind
      obtain rfl := Option.some.inj hfind
      rw [List.filter_cons_of_pos (by simpa using hkey), List.filter_eq_nil_iff.2]
      intro c hc hname
      refine hb (List.mem_map.2 ⟨c, hc, ?_⟩)
      rw [hkey]
      simpa using hname
    · rw [List.find?_cons_of_neg (by simpa using hkey)] at hfind
      rw [List.filter_cons_of_neg (by simpa using hkey), ih has hfind]

theorem compiles_of_wellFormed (hp : p.WellFormed) {q : Spanned PieceDecl} (hq : q ∈ p.pieces)
    {piece : BoardPiece} (h : p.compilePiece { definitions := rules.definitions, vars := rules.vars }
      ⟨q.value.name, (p.players.map (·.value)).idxOf q.value.owner⟩ = .ok piece) :
    p.Compiles rules q.value piece := by
  have howner : (p.players.map (·.value))[(p.players.map (·.value)).idxOf q.value.owner]? =
      some q.value.owner := List.getElem?_idxOf (hp.owners q hq)
  have hnodup := hp.nodup .rule
  rw [declared_rule] at hnodup
  rcases compilePiece_eq_ok_iff.1 h with ⟨hnone, rfl⟩ | ⟨r, pattern, hrule, hresolve, rfl⟩
  · refine ⟨rfl, howner, .inl ⟨?_, rfl, rfl⟩⟩
    exact List.filter_eq_nil_iff.2 (List.find?_eq_none.1 hnone)
  · exact ⟨rfl, howner, .inr ⟨r, pattern, filter_eq_singleton hnodup hrule, hresolve, rfl, rfl⟩⟩

/-- Only an expression can keep a checked program from having rules. In its rules there is a piece for
each that is declared, in this order, as it is declared and as its only rule says, and a slot for each
player, with the condition under which it has won, if that is declared. -/
theorem build_of_check (h : p.check = .ok ()) :
    (∀ e, p.build = .error e → ∃ name err, e = .var name err ∨ e = .rule name err) ∧
    ∀ rules, p.build = .ok rules →
      List.Forall₂ (p.Compiles rules) (p.pieces.map (·.value)) rules.pieces ∧
      rules.definitions.victories.length = p.players.length ∧
      ∀ (i : Nat) (name : String), (p.players.map (·.value))[i]? = some name → ∀ condition,
        rules.definitions.victories[i]? = some (some condition) ↔ ⟨name, condition⟩ ∈ p.victories := by
  have hp := check_eq_ok_iff.1 h
  refine ⟨fun e he => build_eq_error hp he, fun rules hrules => ?_⟩
  obtain ⟨hd, -, hpieces, -⟩ := build_eq_ok_iff.1 hrules
  have hdict : rules.definitions = p.dictionary := (definitions_eq_ok_iff.1 hd).2
  refine ⟨?_, ?_, ?_⟩
  · have htypes : rules.definitions.pieces = p.pieces.map fun q =>
        ⟨q.value.name, (p.players.map (·.value)).idxOf q.value.owner⟩ := by
      rw [hdict]
      rfl
    have hall := forall₂_of_mapM hpieces
    rw [htypes, List.forall₂_map_left_iff] at hall
    rw [List.forall₂_map_left_iff]
    exact ((List.forall₂_and_left _ _).2 ⟨fun _ hq => hq, hall⟩).imp fun _ _ ⟨hq, hpiece⟩ =>
      compiles_of_wellFormed hp hq hpiece
  · rw [hdict]
    exact length_victories
  · intro i name hi condition
    rw [hdict]
    exact getElem?_victories hp hi

/-- A pawn that goes upwards, with which White has won at the top, and a rook without a rule. -/
def ascent : Program where
  players := [⟨"White", 0, 0⟩, ⟨"Black", 0, 0⟩]
  pieces := [⟨⟨"Pawn", "White"⟩, 0, 0⟩, ⟨⟨"Rook", "Black"⟩, 0, 0⟩]
  declarations := [
    ⟨.victory ⟨"White", .binary .eq (.index "Board" [.literal 0, .literal 1]) (.literal 1)⟩, 0, 0⟩,
    ⟨.rule ⟨"Pawn", .letter ⟨.literal 0, .literal 1, .named "empty", none⟩⟩, 0, 0⟩]
  board := ⟨⟨1, 2, [⟨.empty, 0, 0⟩, ⟨.piece "Pawn" none, 0, 0⟩]⟩, 0, 0⟩

def ascentRules : Rules where
  definitions := {
    players := ["White", "Black"], pieces := [⟨"Pawn", 0⟩, ⟨"Rook", 1⟩]
    victories := [some (.binary .eq (.index "Board" [.literal 0, .literal 1]) (.literal 1)), none] }
  pieces := [⟨"Pawn", 0, ⟨#[⟨[(⟨0, 1, .var "empty", none⟩, 1)], false⟩, ⟨[], true⟩], 0⟩, some 2⟩,
    ⟨"Rook", 1, .empty, none⟩]
  vars := []
  board := ⟨1, 2, #[some 0, none]⟩

/-- The pieces of the ascent are built as declared, and Black has no victory. -/
theorem build_of_check_ascent : ascent.check = .ok () ∧ ascent.build = .ok ascentRules ∧
    List.Forall₂ (ascent.Compiles ascentRules) [⟨"Pawn", "White"⟩, ⟨"Rook", "Black"⟩]
      ascentRules.pieces ∧
    ∀ condition, ⟨"Black", condition⟩ ∉ ascent.victories := by
  have hcheck : ascent.check = .ok () := rfl
  have hbuild : ascent.build = .ok ascentRules := rfl
  obtain ⟨hpieces, -, hvictories⟩ := (build_of_check hcheck).2 ascentRules hbuild
  refine ⟨hcheck, hbuild, hpieces, fun condition hmem => ?_⟩
  have hslot := (hvictories 1 "Black" rfl condition).2 hmem
  exact absurd hslot (by simp [ascentRules])

end Program
end BoardGame
