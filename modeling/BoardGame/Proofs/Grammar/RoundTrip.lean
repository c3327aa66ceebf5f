import BoardGame.Proofs.Grammar.Printable
import BoardGame.Proofs.Grammar.Rendered
import BoardGame.Proofs.Grammar.Reread.Program
import BoardGame.Proofs.Grammar.Texts

/-!
# Printing and parsing

What is printed of a parsed program is parsed to the same program, up to the places in the text and the
grouping of concatenations, neither of which is printed.
-/

namespace BoardGame

/-! ### What is not printed -/

namespace Movement

theorem render_followedBy (m n : Movement) : (m.followedBy n).render = m.render ++ n.render := by
  induction m with
  | concat left right _ hright => rw [followedBy, render, hright, render, String.append_assoc]
  | _ => rfl

theorem render_reassoc (m : Movement) : m.reassoc.render = m.render := by
  induction m with
  | concat left right hleft hright => rw [reassoc, render_followedBy, hleft, hright, render]
  | union left right hleft hright => rw [reassoc, render, hleft, hright, render]
  | star inner ih | plus inner ih | optional inner ih => rw [reassoc, render, ih, render]
  | letter l => rfl
  | expand c => rfl

end Movement

theorem Declaration.render_reassoc (d : Declaration) : d.reassoc.render = d.render := by
  cases d with
  | rule r => simp only [reassoc, render, Movement.render_reassoc]
  | moveMacro m => simp only [reassoc, render, Movement.render_reassoc]
  | _ => rfl

namespace Program

theorem render_bare (p : Program) : p.bare.render = p.render := by
  simp only [render, bare, BoardDecl.bare, Spanned.bare, Spanned.map, List.map_map, Function.comp_def]

theorem render_reassoc (p : Program) : p.reassoc.render = p.render := by
  simp only [render, reassoc, Spanned.map, List.map_map, Function.comp_def, Declaration.render_reassoc]

end Program

/-! ### From a text to a program -/

section
variable {source : String} {ts : List Token} {p : Program}

/-- What is read from the lexemes of a text is the program without places. -/
theorem read_of_parseProgram (h : parseProgram source = .ok p) :
    ∃ ts ys, scan source = .ok ts ∧
      Parser.read Parser.bareProgram (ts.map Token.lexeme) = some (p.bare, ys) := by
  obtain ⟨ts, hts, hp⟩ := readAll_eq_ok_iff.1 h
  have hclosed := closed_of_scan hts
  cases hread : Parser.read Parser.bareProgram (ts.map Token.lexeme) with
  | none =>
    rw [← written_toArray] at hread
    have hnone := Parser.readsAs_program.of_none (f := none) hclosed (Nat.zero_le _) hread
    rw [hp] at hnone
    cases hnone
  | some x =>
    rw [← written_toArray] at hread
    obtain ⟨q, j, f, hrun, hbare, -⟩ := Parser.readsAs_program.of_some (f := none) hclosed (Nat.zero_le _) hread
    rw [hrun] at hp
    obtain rfl := Option.some_inj.1 hp
    exact ⟨ts, x.2, hts, by rw [hbare, ← written_toArray, hread]⟩

theorem exists_parseProgram (hts : scan source = .ok ts) {b : Program} {ys : List Lexeme}
    (h : Parser.read Parser.bareProgram (ts.map Token.lexeme) = some (b, ys)) :
    ∃ q, parseProgram source = .ok q ∧ q.bare = b := by
  rw [← written_toArray] at h
  obtain ⟨q, j, f, hrun, hbare, -⟩ :=
    Parser.readsAs_program.of_some (f := none) (closed_of_scan hts) (Nat.zero_le _) h
  exact ⟨q, readAll_eq_ok_iff.2 ⟨ts, hts, by rw [hrun]⟩, hbare⟩

end

/-! ### Round trips -/

namespace Program
variable {source : String} {p : Program}

/-- A parsed program can be written. -/
theorem printable_of_parseProgram (h : parseProgram source = .ok p) : p.Printable := by
  obtain ⟨ts, ys, hts, hread⟩ := read_of_parseProgram h
  have hspelled := spelled_of_scan hts
  rw [written_toArray] at hspelled
  exact .of_bare (Parser.yields_bareProgram _ _ _ (Nat.le_refl _) hspelled hread)

/-- A program that can be written is parsed from its text. -/
theorem Printable.exists_parseProgram_render (h : p.Printable) :
    ∃ q, parseProgram p.render = .ok q ∧ q.bare = p.bare.reassoc := by
  obtain ⟨ts, hts, hlexemes⟩ := Program.scans h .start
  have hread : Parser.read Parser.bareProgram (ts.map Token.lexeme) = some (p.bare.reassoc, []) := by
    rw [hlexemes]
    exact Parser.read_bareProgram_lexemes h
  exact exists_parseProgram hts hread

/-- Printing a parsed program and parsing the text gives the program again, without its places and with
its concatenations grouped to the right, so the text of the second is that of the first. -/
theorem parseProgram_render (h : parseProgram source = .ok p) :
    ∃ q, parseProgram p.render = .ok q ∧ q.bare = p.bare.reassoc ∧ q.render = p.render := by
  obtain ⟨q, hq, hbare⟩ := (printable_of_parseProgram h).exists_parseProgram_render
  refine ⟨q, hq, hbare, ?_⟩
  calc q.render = q.bare.render := q.render_bare.symm
    _ = p.bare.reassoc.render := by rw [hbare]
    _ = p.bare.render := p.bare.render_reassoc
    _ = p.render := p.render_bare

/-- A pawn with a rule whose first two movements stand in brackets. -/
def advance : Program where
  players := [⟨"White", 10, 15⟩]
  pieces := [⟨⟨"Pawn", "White"⟩, 26, 37⟩]
  declarations := [⟨.rule ⟨"Pawn", .concat (.concat
    (.letter ⟨.literal 0, .literal 1, .named "empty", none⟩) (.expand ⟨"skip", []⟩))
    (.expand ⟨"turn", [.unary .neg (.literal 1)]⟩)⟩, 39, 83⟩]
  board := ⟨⟨1, 1, [⟨.piece "Pawn" none, 111, 115⟩]⟩, 84, 116⟩

def advanceSource : String :=
  "players = White; pieces = Pawn(White); rule Pawn = ((0, 1, empty) skip()) turn(-1); " ++
    "board_size = 1, 1; board = Pawn;"

theorem parseProgram_advance : parseProgram advanceSource = .ok advance := by
  have hparsed : (parseProgram advanceSource).toOption = some advance := by decide +kernel
  cases hsource : parseProgram advanceSource with
  | error e => rw [hsource] at hparsed; cases hparsed
  | ok p => rw [hsource] at hparsed; rw [Option.some_inj.1 hparsed]

theorem parseProgram_render_advance :
    (∃ q, parseProgram advance.render = .ok q ∧ q.bare = advance.bare.reassoc ∧
      q.render = advance.render) ∧ advance.bare.reassoc ≠ advance.bare :=
  ⟨parseProgram_render parseProgram_advance, by decide⟩

end Program
end BoardGame
