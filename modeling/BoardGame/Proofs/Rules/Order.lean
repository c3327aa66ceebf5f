import BoardGame.Proofs.References.Definitions
import BoardGame.Proofs.Rules.Agreement
import BoardGame.Proofs.Rules.Building

/-!
# The order of declarations

Names are declared once, so what is found under a name does not depend on where it is declared
(`Program.agrees_dictionary`). Only a variable can see which variables stand before it: a checked program
whose declarations are put into another order that keeps that of the variables has the same rules, or
fails the same way (`Program.build_perm`).
-/

namespace BoardGame

/-- The definitions agree, and everything else is the same. -/
structure Rules.Agrees (r r' : Rules) : Prop where
  definitions : r.definitions.Agrees r'.definitions
  vars_eq : r.vars = r'.vars
  pieces_eq : r.pieces = r'.pieces
  board_eq : r.board = r'.board

namespace Program
variable {p : Program} {ds : List (Spanned Declaration)}

/-! ### Definitions in another order -/

theorem find?_reverse_of_perm {α : Type} {key : α → String} {as bs : List α} (hperm : bs.Perm as)
    (h : (as.map key).Nodup) (name : String) :
    as.reverse.find? (key · = name) = bs.reverse.find? (key · = name) := by
  have hreverse : (as.reverse.map key).Nodup := by
    rw [List.map_reverse]
    exact List.nodup_reverse.2 h
  refine (find?_eq_of_perm ?_ hreverse name).symm
  exact (List.reverse_perm bs).trans (hperm.trans (List.reverse_perm as).symm)

theorem reverse_perm_reverse {α : Type} {as bs : List α} (h : bs.Perm as) :
    as.reverse.Perm bs.reverse :=
  (List.reverse_perm as).trans (h.symm.trans (List.reverse_perm bs).symm)

theorem dictionary_victories_perm (hp : p.WellFormed) (h : ds.Perm p.declarations) :
    p.dictionary.victories = (dictionary { p with declarations := ds }).victories := by
  have hlen : p.dictionary.victories.length =
      (dictionary { p with declarations := ds }).victories.length := by
    rw [length_victories, length_victories]
  have hmem : ∀ v, v ∈ p.victories ↔ v ∈ victories { p with declarations := ds } := fun v =>
    (h.filterMap _).mem_iff.symm
  refine List.ext_getElem hlen fun i hi hi' => Option.ext fun e => ?_
  have hplayer : ∃ name, p.dictionary.players[i]? = some name := by
    rw [length_victories] at hi
    exact ⟨_, List.getElem?_eq_getElem (by simpa [dictionary] using hi)⟩
  obtain ⟨name, hname⟩ := hplayer
  have hname' : (dictionary { p with declarations := ds }).players[i]? = some name := hname
  have hslot := getElem?_victories hp hname (e := e)
  have hslot' := getElem?_victories (hp.of_perm h) hname' (e := e)
  rw [List.getElem?_eq_getElem hi, Option.some_inj] at hslot
  rw [List.getElem?_eq_getElem hi', Option.some_inj] at hslot'
  rw [hslot, hslot', hmem]

/-- In another order the declarations define the same. -/
theorem agrees_dictionary (hp : p.WellFormed) (h : ds.Perm p.declarations) :
    p.dictionary.Agrees (dictionary { p with declarations := ds }) where
  players_eq := rfl
  pieces_eq := rfl
  macros_perm := reverse_perm_reverse (h.filterMap _)
  predicates_perm := reverse_perm_reverse (h.filterMap _)
  effects_perm := reverse_perm_reverse (h.filterMap _)
  moveMacro?_eq := find?_reverse_of_perm (h.filterMap _) hp.nodup_macros
  predicate?_eq := find?_reverse_of_perm (h.filterMap _) hp.nodup_predicates
  effect?_eq := find?_reverse_of_perm (h.filterMap _) hp.nodup_effects
  victories_eq := dictionary_victories_perm hp h

/-! ### Rules in another order -/

theorem initialVariables_perm (hp : p.WellFormed) (h : ds.Perm p.declarations)
    (hvars : variableDecls { p with declarations := ds } = p.variableDecls) :
    p.initialVariables p.dictionary = initialVariables { p with declarations := ds }
      (dictionary { p with declarations := ds }) := by
  have hbind : bindVariable p.dictionary = bindVariable (dictionary { p with declarations := ds }) :=
    funext₂ (bindVariable_congr (agrees_dictionary hp h))
  rw [initialVariables, initialVariables, hvars, hbind]

/-- No piece has two rules, so it does not matter which one would be the first. -/
theorem compilePiece_perm (hp : p.WellFormed) (h : ds.Perm p.declarations) (vars : Variables) :
    p.compilePiece { definitions := p.dictionary, vars := vars } =
      compilePiece { p with declarations := ds }
        { definitions := dictionary { p with declarations := ds }, vars := vars } := by
  have henv : ({ definitions := p.dictionary, vars := vars } : Env).Agrees
      { definitions := dictionary { p with declarations := ds }, vars := vars } :=
    ⟨agrees_dictionary hp h, rfl, rfl, rfl⟩
  have hnodup := hp.nodup .rule
  rw [declared_rule] at hnodup
  funext type
  have hrule : (rules { p with declarations := ds }).find? (·.piece = type.name) =
      p.rules.find? (·.piece = type.name) := find?_eq_of_perm (h.filterMap _) hnodup type.name
  rw [compilePiece, compilePiece, hrule]
  simp only [henv.resolve_eq]

/-- A checked program whose declarations are put into another order, in which the variables keep theirs,
passes the checks as well and has the same rules, or none for the same reason. -/
theorem build_perm (h : p.check = .ok ()) (hperm : ds.Perm p.declarations)
    (hvars : variableDecls { p with declarations := ds } = p.variableDecls) :
    check { p with declarations := ds } = .ok () ∧
    ((∃ e, p.build = .error e ∧ build { p with declarations := ds } = .error e) ∨
      ∃ rules rules', p.build = .ok rules ∧ build { p with declarations := ds } = .ok rules' ∧
        rules.Agrees rules') := by
  have hp := check_eq_ok_iff.1 h
  refine ⟨check_eq_ok_iff.2 (hp.of_perm hperm), ?_⟩
  have hagrees := agrees_dictionary hp hperm
  rw [build_of_wellFormed hp, build_of_wellFormed (hp.of_perm hperm),
    ← initialVariables_perm hp hperm hvars, ← initialBoard_congr hagrees]
  simp only [← compilePiece_perm hp hperm, ← hagrees.pieces_eq]
  cases p.initialVariables p.dictionary with
  | error e => exact .inl ⟨e, rfl, rfl⟩
  | ok vars =>
    simp only [bind, Except.bind]
    cases p.dictionary.pieces.mapM (p.compilePiece { definitions := p.dictionary, vars := vars }) with
    | error e => exact .inl ⟨e, rfl, rfl⟩
    | ok pieces =>
      cases initialBoard p.board.value p.dictionary with
      | error e => exact .inl ⟨e, rfl, rfl⟩
      | ok board => exact .inr ⟨_, _, rfl, rfl, hagrees, rfl, rfl, rfl⟩

def marchVariables : List (Spanned Declaration) :=
  [⟨.var ⟨"pace", .literal 1⟩, 0, 0⟩,
    ⟨.var ⟨"stride", .binary .add (.var "pace") (.call "bonus" [])⟩, 0, 0⟩]

def marchDefinitions : List (Spanned Declaration) :=
  [⟨.rule ⟨"Pawn", .expand ⟨"go", [.var "stride"]⟩⟩, 0, 0⟩,
    ⟨.moveMacro ⟨"go", ["d"], .letter ⟨.literal 0, .var "d", .named "empty", none⟩⟩, 0, 0⟩,
    ⟨.victory ⟨"White", .binary .gt (.var "stride") (.literal 2)⟩, 0, 0⟩,
    ⟨.predicate ⟨"bonus", [], .literal 1⟩, 0, 0⟩]

/-- A pawn that goes two tiles, by its pace and a bonus. -/
def march : Program where
  players := [⟨"White", 0, 0⟩]
  pieces := [⟨⟨"Pawn", "White"⟩, 0, 0⟩]
  declarations := marchVariables ++ marchDefinitions
  board := ⟨⟨1, 3, [⟨.empty, 0, 0⟩, ⟨.empty, 0, 0⟩, ⟨.piece "Pawn" none, 0, 0⟩]⟩, 0, 0⟩

/-- The variables of the march may stand behind its definitions. -/
theorem build_perm_march : march.check = .ok () ∧
    (marchDefinitions ++ marchVariables).Perm march.declarations ∧
    check { march with declarations := marchDefinitions ++ marchVariables } = .ok () ∧
    ∃ rules rules', march.build = .ok rules ∧
      build { march with declarations := marchDefinitions ++ marchVariables } = .ok rules' ∧
      rules.Agrees rules' := by
  have hcheck : march.check = .ok () := rfl
  have hperm : (marchDefinitions ++ marchVariables).Perm march.declarations := List.perm_append_comm
  obtain ⟨hcheck', ⟨e, he, -⟩ | hrules⟩ := build_perm hcheck hperm rfl
  · have hok : march.build.isOk = true := rfl
    rw [he] at hok
    cases hok
  · exact ⟨hcheck, hperm, hcheck', hrules⟩

/-- They may not change places with each other. -/
example : build { march with declarations := marchVariables.reverse ++ marchDefinitions } =
    .error (.var "stride" (.unknownVariable "pace")) := rfl

end Program
end BoardGame
