import BoardGame.Program
import BoardGame.Name
import Mathlib.Tactic.MkIffOfInductiveProp

/-!
# Well-formed programs

What must hold of a program before it is played (`Program.WellFormed`), said of the program as a whole:
every name is declared once, is free to be declared, and every reference has a declaration with as many
parameters, wherever that stands. The order of the declarations plays no part
(`wellFormed_perm_iff`).
-/

namespace BoardGame

/-! ### What is referred to -/

mutual

/-- The calls in an expression, however deep. -/
def Expr.calls : Expr → List Call
  | .literal _ | .var _ | .field _ _ => []
  | .index _ indices => Expr.callsAll indices
  | .binary _ left right => left.calls ++ right.calls
  | .unary _ operand => operand.calls
  | .call name args => ⟨name, args⟩ :: Expr.callsAll args

def Expr.callsAll : List Expr → List Call
  | [] => []
  | e :: es => e.calls ++ Expr.callsAll es

end

/-- The name of a condition that is no call. -/
def Condition.bareName? : Condition → Option String
  | named name => some name
  | call _ => none

/-- The call that a condition is, as an expression. -/
def Condition.exprs : Condition → List Expr
  | named _ => []
  | call c => [c.toExpr]

/-- The expressions in a letter; of the call of an effect, the arguments. -/
def Letter.exprs (l : Letter) : List Expr :=
  l.dx :: l.dy :: (l.condition.exprs ++ (l.effect.map (·.args)).getD [])

namespace Movement

def letters : Movement → List Letter
  | letter l => [l]
  | concat left right | union left right => left.letters ++ right.letters
  | star inner | plus inner | optional inner => inner.letters
  | expand _ => []

/-- The calls of macros. -/
def expansions : Movement → List Call
  | letter _ => []
  | concat left right | union left right => left.expansions ++ right.expansions
  | star inner | plus inner | optional inner => inner.expansions
  | expand c => [c]

def exprs (m : Movement) : List Expr :=
  m.letters.flatMap Letter.exprs ++ m.expansions.flatMap (·.args)

end Movement

namespace Declaration

/-- The name and the parameters of a declaration of this kind. -/
def head? : NameKind → Declaration → Option (String × List String)
  | .rule, rule r => some (r.piece, [])
  | .moveMacro, moveMacro m => some (m.name, m.params)
  | .predicate, predicate q => some (q.name, q.params)
  | .effect, effect e => some (e.name, e.params)
  | .var, var v => some (v.name, [])
  | .victory, victory v => some (v.player, [])
  | _, _ => none

def params : Declaration → List String
  | moveMacro m => m.params
  | predicate q => q.params
  | effect e => e.params
  | rule _ | var _ | victory _ => []

def movement? : Declaration → Option Movement
  | rule r => some r.movement
  | moveMacro m => some m.body
  | predicate _ | effect _ | var _ | victory _ => none

def assignments : Declaration → List Assignment
  | effect e => e.assignments
  | rule _ | moveMacro _ | predicate _ | var _ | victory _ => []

def exprs : Declaration → List Expr
  | rule r => r.movement.exprs
  | moveMacro m => m.body.exprs
  | predicate q => [q.body]
  | effect e => e.assignments.flatMap fun a => a.indices ++ [a.value]
  | var v => [v.value]
  | victory v => [v.condition]

end Declaration

/-! ### Well-formed programs -/

namespace Program
variable {p : Program}

/-- The names that are declared as this kind: players and pieces in their lists, the others, with the
pieces that have rules and the players that have victories, in the declarations. -/
def declared (p : Program) : NameKind → List String
  | .player => p.players.map (·.value)
  | .piece => p.pieces.map (·.value.name)
  | kind => p.declarations.filterMap fun d => (d.value.head? kind).map Prod.fst

/-- A name that may be declared besides the pieces. -/
def Free (p : Program) (name : String) : Prop := name ∉ reservedNames ∧ name ∉ p.declared .piece

/-- Some declaration of this kind has the name and so many parameters. -/
def Takes (p : Program) (kind : NameKind) (name : String) (n : Nat) : Prop :=
  ∃ d ∈ p.declarations, ∃ params, d.value.head? kind = some (name, params) ∧ params.length = n

def Callable (p : Program) (c : Call) : Prop :=
  c.name ∈ builtinNames ∧ c.args = [] ∨ p.Takes .predicate c.name c.args.length

/-- What a bare condition may name, in sight of parameters. -/
def Meaningful (p : Program) (params : List String) (name : String) : Prop :=
  name ∈ params ∨ name ∈ builtinNames ∨ name ∈ p.declared .piece ∨ name ∈ p.declared .var ∨
    p.Takes .predicate name 0

/-- What an effect may assign to: the board by two indices, or a name that is no parameter. -/
def Assignable (p : Program) (params : List String) (a : Assignment) : Prop :=
  a.target = "Board" ∧ a.indices.length = 2 ∨ p.Free a.target ∧ a.target ∉ params

structure WellFormedMovement (p : Program) (params : List String) (m : Movement) : Prop where
  expansions : ∀ c ∈ m.expansions, p.Takes .moveMacro c.name c.args.length
  effects : ∀ l ∈ m.letters, ∀ c ∈ l.effect, p.Takes .effect c.name c.args.length
  conditions : ∀ l ∈ m.letters, ∀ name ∈ l.condition.bareName?, p.Meaningful params name

@[mk_iff]
structure WellFormedDeclaration (p : Program) (d : Declaration) : Prop where
  params_nodup : d.params.Nodup
  params_free : ∀ name ∈ d.params, p.Free name
  calls : ∀ e ∈ d.exprs, ∀ c ∈ e.calls, p.Callable c
  movement : ∀ m ∈ d.movement?, p.WellFormedMovement d.params m
  targets : ∀ a ∈ d.assignments, p.Assignable d.params a

/-- A cell names a declared piece, and if it names an owner too, the declared one. -/
def WellFormedCell (p : Program) : Cell → Prop
  | .empty => True
  | .piece name owner => ∃ q ∈ p.pieces, q.value.name = name ∧ ∀ o ∈ owner, o = q.value.owner

/-- What must hold of a program before it is played. -/
structure WellFormed (p : Program) : Prop where
  nodup : ∀ kind, (p.declared kind).Nodup
  pieces_free : ∀ name ∈ p.declared .piece, name ∉ reservedNames
  owners : ∀ q ∈ p.pieces, q.value.owner ∈ p.declared .player
  predicates_free : ∀ name ∈ p.declared .predicate, p.Free name
  vars_free : ∀ name ∈ p.declared .var, p.Free name
  rules : ∀ name ∈ p.declared .rule, name ∈ p.declared .piece
  victories : ∀ name ∈ p.declared .victory, name ∈ p.declared .player
  declarations : ∀ d ∈ p.declarations, p.WellFormedDeclaration d.value
  sides_pos : 0 < p.board.value.width ∧ 0 < p.board.value.height
  area_lt : p.board.value.width * p.board.value.height < 0x10000000000000000
  area : (p.board.value.cells.length : Int) = p.board.value.width * p.board.value.height
  cells : ∀ c ∈ p.board.value.cells, p.WellFormedCell c.value

/-! ### The order of declarations -/

/-- `p` and `p'` declare the same names with the same numbers of parameters. -/
structure SameNames (p p' : Program) : Prop where
  mem_declared : ∀ kind name, name ∈ p.declared kind ↔ name ∈ p'.declared kind
  takes : ∀ kind name n, p.Takes kind name n ↔ p'.Takes kind name n

theorem WellFormedDeclaration.congr {p' : Program} (h : p.SameNames p') {d : Declaration}
    (hd : p.WellFormedDeclaration d) : p'.WellFormedDeclaration d where
  params_nodup := hd.params_nodup
  params_free := fun name hn => ⟨(hd.params_free name hn).1,
    mt (h.mem_declared _ _).2 (hd.params_free name hn).2⟩
  calls := fun e he c hc => (hd.calls e he c hc).imp_right (h.takes _ _ _).1
  movement := fun m hm => {
    expansions := fun c hc => (h.takes _ _ _).1 ((hd.movement m hm).expansions c hc)
    effects := fun l hl c hc => (h.takes _ _ _).1 ((hd.movement m hm).effects l hl c hc)
    conditions := fun l hl name hn => by
      rcases (hd.movement m hm).conditions l hl name hn with hp | hp | hp | hp | hp
      · exact .inl hp
      · exact .inr (.inl hp)
      · exact .inr (.inr (.inl ((h.mem_declared _ _).1 hp)))
      · exact .inr (.inr (.inr (.inl ((h.mem_declared _ _).1 hp))))
      · exact .inr (.inr (.inr (.inr ((h.takes _ _ _).1 hp)))) }
  targets := fun a ha => (hd.targets a ha).imp_right fun ⟨hfree, hparam⟩ =>
    ⟨⟨hfree.1, mt (h.mem_declared _ _).2 hfree.2⟩, hparam⟩

section
variable {ds : List (Spanned Declaration)}

theorem declared_perm (h : ds.Perm p.declarations) (kind : NameKind) :
    (declared { p with declarations := ds } kind).Perm (p.declared kind) := by
  cases kind with
  | player => exact .refl _
  | piece => exact .refl _
  | _ => exact h.filterMap _

theorem sameNames_of_perm (h : ds.Perm p.declarations) :
    p.SameNames { p with declarations := ds } where
  mem_declared := fun kind _ => (declared_perm h kind).mem_iff.symm
  takes := fun _ _ _ => exists_congr fun _ => and_congr_left' h.mem_iff.symm

/-- Well-formed declarations may be put into another order. -/
theorem WellFormed.of_perm (hp : p.WellFormed) (h : ds.Perm p.declarations) :
    WellFormed { p with declarations := ds } where
  nodup := fun kind => (declared_perm h kind).nodup_iff.2 (hp.nodup kind)
  pieces_free := hp.pieces_free
  owners := hp.owners
  predicates_free := fun name hn => hp.predicates_free name ((declared_perm h _).mem_iff.1 hn)
  vars_free := fun name hn => hp.vars_free name ((declared_perm h _).mem_iff.1 hn)
  rules := fun name hn => hp.rules name ((declared_perm h _).mem_iff.1 hn)
  victories := fun name hn => hp.victories name ((declared_perm h _).mem_iff.1 hn)
  declarations := fun d hd => (hp.declarations d (h.mem_iff.1 hd)).congr (sameNames_of_perm h)
  sides_pos := hp.sides_pos
  area_lt := hp.area_lt
  area := hp.area
  cells := hp.cells

theorem wellFormed_perm_iff (h : ds.Perm p.declarations) :
    WellFormed { p with declarations := ds } ↔ p.WellFormed :=
  ⟨fun hp => hp.of_perm h.symm, fun hp => hp.of_perm h⟩

end

end Program
end BoardGame
