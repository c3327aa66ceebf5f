import BoardGame.Rules

/-!
# Definitions that agree

Two lists of definitions may hold the same in another order. Where every name is found the same in both
(`Definitions.Agrees`), every expression has the same value or fails the same way (`Env.Agrees.eval_eq`),
every movement has the same pattern (`Env.Agrees.resolve_eq`), and the first board is the same.
-/

namespace BoardGame

/-- The same is declared, in another order perhaps, and found under every name. -/
structure Definitions.Agrees (d d' : Definitions) : Prop where
  players_eq : d.players = d'.players
  pieces_eq : d.pieces = d'.pieces
  macros_perm : d.macros.Perm d'.macros
  predicates_perm : d.predicates.Perm d'.predicates
  effects_perm : d.effects.Perm d'.effects
  moveMacro?_eq : ∀ name, d.moveMacro? name = d'.moveMacro? name
  predicate?_eq : ∀ name, d.predicate? name = d'.predicate? name
  effect?_eq : ∀ name, d.effect? name = d'.effect? name
  victories_eq : d.victories = d'.victories

namespace Definitions.Agrees
variable {d d' : Definitions} (h : d.Agrees d')
include h

theorem pieceId?_eq (name : String) : d.pieceId? name = d'.pieceId? name := by
  rw [pieceId?, pieceId?, h.pieces_eq]

theorem owner_eq (piece : PieceId) : d.owner piece = d'.owner piece := by
  rw [owner, owner, h.pieces_eq]

end Definitions.Agrees

/-- The definitions agree, and everything else is the same. -/
structure Env.Agrees (env env' : Env) : Prop where
  definitions : env.definitions.Agrees env'.definitions
  vars_eq : env.vars = env'.vars
  board_eq : env.board = env'.board
  focus_eq : env.focus = env'.focus

namespace Env.Agrees
variable {env env' : Env}

/-! ### Expressions -/

theorem here_eq (h : env.Agrees env') (name : String) : env.here name = env'.here name := by
  unfold here
  rw [h.focus_eq, h.board_eq]

theorem builtin_eq (h : env.Agrees env') (name : String) : env.builtin name = env'.builtin name := by
  unfold builtin
  simp only [h.here_eq, h.definitions.owner_eq]

theorem field_eq (h : env.Agrees env') (name key : String) : env.field name key = env'.field name key := by
  unfold field
  rw [h.focus_eq]

theorem indexed_eq (h : env.Agrees env') (name : String) (indices : List Int) :
    env.indexed name indices = env'.indexed name indices := by
  unfold indexed
  rw [h.board_eq, h.vars_eq]

theorem notCallable_eq (h : env.Agrees env') (name : String) :
    env.notCallable name = env'.notCallable name := by
  unfold notCallable
  rw [h.definitions.moveMacro?_eq, h.definitions.effect?_eq]

theorem bareName_eq (h : env.Agrees env') (run : Invoke) (scope : Scope) (name : String) :
    env.bareName run scope name = env'.bareName run scope name := by
  unfold bareName
  simp only [h.builtin_eq, h.here_eq, h.vars_eq, h.definitions.pieceId?_eq,
    h.definitions.predicate?_eq]

mutual

theorem evalWith_eq (h : env.Agrees env') (run : Invoke) (scope : Scope) : ∀ e : Expr,
    env.evalWith run scope e = env'.evalWith run scope e
  | .literal _ => rfl
  | .var name => h.bareName_eq run scope name
  | .field name key => h.field_eq name key
  | .index name indices => by
    simp only [evalWith, evalAllWith_eq h run scope indices, h.indexed_eq]
  | .binary op left right => by
    cases op <;> simp only [evalWith, evalWith_eq h run scope left, evalWith_eq h run scope right]
  | .unary op operand => by
    simp only [evalWith, evalWith_eq h run scope operand]
  | .call name args => by
    simp only [evalWith, h.builtin_eq, h.definitions.predicate?_eq, h.notCallable_eq,
      evalAllWith_eq h run scope args]

theorem evalAllWith_eq (h : env.Agrees env') (run : Invoke) (scope : Scope) : ∀ es : List Expr,
    env.evalAllWith run scope es = env'.evalAllWith run scope es
  | [] => rfl
  | e :: es => by
    simp only [evalAllWith, evalWith_eq h run scope e, evalAllWith_eq h run scope es]

end

theorem invokeWithin_eq (h : env.Agrees env') (depth : Nat) :
    env.invokeWithin depth = env'.invokeWithin depth := by
  induction depth with
  | zero => rfl
  | succ depth ih =>
    funext p args scope
    simp only [invokeWithin, ih, h.evalWith_eq]

theorem invoke_eq (h : env.Agrees env') : env.invoke = env'.invoke := by
  have hdepth : env.callDepth = env'.callDepth := by
    rw [callDepth, callDepth, h.definitions.predicates_perm.length_eq]
  rw [invoke, invoke, hdepth, h.invokeWithin_eq]

theorem eval_eq (h : env.Agrees env') (scope : Scope) (e : Expr) :
    env.eval scope e = env'.eval scope e := by
  rw [eval, eval, h.invoke_eq, h.evalWith_eq]

theorem evalAll_eq (h : env.Agrees env') (scope : Scope) (es : List Expr) :
    env.evalAll scope es = env'.evalAll scope es := by
  rw [evalAll, evalAll, h.invoke_eq, h.evalAllWith_eq]

/-! ### Movements -/

theorem step_eq (h : env.Agrees env') (scope : Scope) (l : Letter) :
    env.step scope l = env'.step scope l := by
  unfold step
  simp only [h.eval_eq]

theorem resolveWith_eq (h : env.Agrees env') (expand : Expand) (scope : Scope) (m : Movement) :
    env.resolveWith expand scope m = env'.resolveWith expand scope m := by
  induction m with
  | letter l => simp only [resolveWith, h.step_eq]
  | concat left right ihl ihr => simp only [resolveWith, ihl, ihr]
  | union left right ihl ihr => simp only [resolveWith, ihl, ihr]
  | star inner ih => simp only [resolveWith, ih]
  | plus inner ih => simp only [resolveWith, ih]
  | optional inner ih => simp only [resolveWith, ih]
  | expand c => rfl

theorem expandWithin_eq (h : env.Agrees env') (depth : Nat) :
    env.expandWithin depth = env'.expandWithin depth := by
  induction depth with
  | zero => rfl
  | succ depth ih =>
    funext scope c
    simp only [expandWithin, ih, h.definitions.moveMacro?_eq, h.evalAll_eq, h.resolveWith_eq]

theorem resolve_eq (h : env.Agrees env') (scope : Scope) (m : Movement) :
    env.resolve scope m = env'.resolve scope m := by
  have hdepth : env.expansionDepth = env'.expansionDepth := by
    rw [expansionDepth, expansionDepth, h.definitions.macros_perm.length_eq]
  rw [resolve, resolve, hdepth, h.expandWithin_eq, h.resolveWith_eq]

end Env.Agrees

/-! ### Parts of rules -/

namespace Program
variable {d d' : Definitions} (h : d.Agrees d')
include h

theorem bindVariable_congr (vars : Variables) (v : VariableDecl) :
    bindVariable d vars v = bindVariable d' vars v := by
  have henv : ({ definitions := d, vars := vars } : Env).Agrees { definitions := d', vars := vars } :=
    ⟨h, rfl, rfl, rfl⟩
  rw [bindVariable, bindVariable, henv.eval_eq]

theorem placeCells_congr (decl : BoardDecl) (width height k : Nat) (b : Board) (cells : List Cell) :
    placeCells d decl width height k b cells = placeCells d' decl width height k b cells := by
  have hcell : ∀ c, cellPiece d c = cellPiece d' c := by
    intro c
    cases c with
    | empty => rfl
    | piece name owner => rw [cellPiece, cellPiece, h.pieceId?_eq]
  induction cells generalizing k b with
  | nil => rfl
  | cons cell cells ih => simp only [placeCells, hcell, ih]

theorem initialBoard_congr (decl : BoardDecl) : initialBoard decl d = initialBoard decl d' := by
  unfold initialBoard
  simp only [placeCells_congr h]

end Program
end BoardGame
