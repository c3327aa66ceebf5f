import BoardGame.Program

/-! # Static checks

What must hold of a program before it is played: names are declared once and before the board,
are not reserved, and every reference has a declaration with as many parameters. Declarations may
refer to later ones, so their heads are collected before their bodies are checked. -/

namespace BoardGame

/-- What is wrong with a program. -/
inductive Flaw where
  | undefinedSymbol (kind : NameKind) (name : String)
  | duplicate (kind : NameKind) (name : String)
  | arity (name : String) (expected found : Nat)
  | reserved (name : String)
  | invalidTarget (name : String)
  | boardSize (width height : Int)
  | cellCount (expected found : Nat)
  | ownerMismatch (piece declared found : String)
deriving DecidableEq

namespace Flaw

private def ticked (s : String) : String := "`" ++ s ++ "`"

def message : Flaw → String
  | undefinedSymbol kind name => "undefined " ++ kind.label ++ " " ++ ticked name
  | duplicate kind name => kind.label ++ " " ++ ticked name ++ " is declared more than once"
  | arity name expected found =>
    ticked name ++ " expects " ++ toString expected ++ " argument(s), but " ++ toString found ++
      " given"
  | reserved name => ticked name ++ " is a reserved name"
  | invalidTarget name => "cannot assign to " ++ ticked name
  | boardSize width height =>
    "board size must be positive, got " ++ toString width ++ "x" ++ toString height
  | cellCount expected found =>
    "board has " ++ toString found ++ " cells, but its size requires " ++ toString expected
  | ownerMismatch piece declared found =>
    "piece " ++ ticked piece ++ " belongs to " ++ ticked declared ++ ", not " ++ ticked found

end Flaw

/-- The names that a program declares: pieces with their owners, definitions with the number of
their parameters. -/
structure Symbols where
  players : List String := []
  pieces : List (String × String) := []
  macros : List (String × Nat) := []
  predicates : List (String × Nat) := []
  effects : List (String × Nat) := []
  vars : List String := []
deriving Inhabited

/-- Fails with `flaw` unless `p` holds. -/
def require (p : Prop) [Decidable p] (flaw : Flaw) : Except Flaw Unit :=
  if p then .ok () else .error flaw

namespace Symbols

def isPiece (s : Symbols) (name : String) : Prop := name ∈ s.pieces.map Prod.fst

instance (s : Symbols) (name : String) : Decidable (s.isPiece name) :=
  inferInstanceAs (Decidable (_ ∈ _))

/-- A name that a declaration may introduce. -/
def declarable (s : Symbols) (name : String) : Except Flaw Unit :=
  require (name ∉ reservedNames ∧ ¬ s.isPiece name) (.reserved name)

/-! ## Heads -/

def addPlayer (s : Symbols) (name : String) : Except Flaw Symbols := do
  require (name ∉ s.players) (.duplicate .player name)
  return { s with players := name :: s.players }

def addPiece (s : Symbols) (p : PieceDecl) : Except Flaw Symbols := do
  s.declarable p.name
  require (p.owner ∈ s.players) (.undefinedSymbol .player p.owner)
  require (¬ s.isPiece p.name) (.duplicate .piece p.name)
  return { s with pieces := (p.name, p.owner) :: s.pieces }

/-- Adds the name that `d` declares. The second part lists the players with a victory so far. -/
def addDeclaration (s : Symbols × List String) (d : Declaration) :
    Except Flaw (Symbols × List String) := do
  let (s, winners) := s
  match d with
  | .rule _ => return (s, winners)
  | .moveMacro m =>
    require (m.name ∉ s.macros.map Prod.fst) (.duplicate .moveMacro m.name)
    return ({ s with macros := (m.name, m.params.length) :: s.macros }, winners)
  | .predicate p =>
    s.declarable p.name
    require (p.name ∉ s.predicates.map Prod.fst) (.duplicate .predicate p.name)
    return ({ s with predicates := (p.name, p.params.length) :: s.predicates }, winners)
  | .effect e =>
    require (e.name ∉ s.effects.map Prod.fst) (.duplicate .effect e.name)
    return ({ s with effects := (e.name, e.params.length) :: s.effects }, winners)
  | .var v =>
    s.declarable v.name
    require (v.name ∉ s.vars) (.duplicate .var v.name)
    return ({ s with vars := v.name :: s.vars }, winners)
  | .victory v =>
    require (v.player ∉ winners) (.duplicate .victory v.player)
    return (s, v.player :: winners)

/-! ## Bodies -/

/-- `name`, found with `expected?` parameters, is used with `found` arguments. -/
def checkArity (kind : NameKind) (name : String) (expected? : Option Nat) (found : Nat) :
    Except Flaw Unit :=
  match expected? with
  | none => .error (.undefinedSymbol kind name)
  | some expected => require (expected = found) (.arity name expected found)

/-- The number of parameters of a name that is called in an expression. -/
def predicateArity? (s : Symbols) (name : String) : Option Nat :=
  if name ∈ builtinNames then some 0 else s.predicates.lookup name

mutual

/-- Every call in an expression names a predicate. Other names are looked up when it is
evaluated. -/
def checkExpr (s : Symbols) : Expr → Except Flaw Unit
  | .literal _ | .var _ | .field _ _ => .ok ()
  | .index _ indices => checkExprs s indices
  | .binary _ left right => do
    checkExpr s left
    checkExpr s right
  | .unary _ operand => checkExpr s operand
  | .call name args => do
    checkArity .predicate name (s.predicateArity? name) args.length
    checkExprs s args

def checkExprs (s : Symbols) : List Expr → Except Flaw Unit
  | [] => .ok ()
  | e :: es => do
    checkExpr s e
    checkExprs s es

end

/-- A bare name must mean something: as a parameter, a piece, a variable or a predicate. -/
def checkCondition (s : Symbols) (params : List String) : Condition → Except Flaw Unit
  | .call c => checkExpr s c.toExpr
  | .named name =>
    if name ∈ params ∨ name ∈ builtinNames ∨ s.isPiece name ∨ name ∈ s.vars then .ok ()
    else checkArity .predicate name (s.predicates.lookup name) 0

def checkLetter (s : Symbols) (params : List String) (l : Letter) : Except Flaw Unit := do
  s.checkExpr l.dx
  s.checkExpr l.dy
  s.checkCondition params l.condition
  match l.effect with
  | none => return
  | some e =>
    checkArity .effect e.name (s.effects.lookup e.name) e.args.length
    s.checkExprs e.args

def checkMovement (s : Symbols) (params : List String) : Movement → Except Flaw Unit
  | .letter l => s.checkLetter params l
  | .concat left right | .union left right => do
    checkMovement s params left
    checkMovement s params right
  | .star inner | .plus inner | .optional inner => checkMovement s params inner
  | .expand c => do
    checkArity .moveMacro c.name (s.macros.lookup c.name) c.args.length
    s.checkExprs c.args

/-- The board takes two indices; other targets are neither reserved nor pieces nor parameters. -/
def checkTarget (s : Symbols) (params : List String) (a : Assignment) : Except Flaw Unit :=
  require
    (if a.target = "Board" then a.indices.length = 2
      else a.target ∉ reservedNames ∧ ¬ s.isPiece a.target ∧ a.target ∉ params)
    (.invalidTarget a.target)

def checkAssignments (s : Symbols) (params : List String) : List Assignment → Except Flaw Unit
  | [] => .ok ()
  | a :: as => do
    s.checkTarget params a
    s.checkExprs a.indices
    s.checkExpr a.value
    checkAssignments s params as

/-- Parameters are declarable and differ from those `seen` before. -/
def checkParamsFrom (s : Symbols) (seen : List String) : List String → Except Flaw Unit
  | [] => .ok ()
  | p :: ps => do
    s.declarable p
    require (p ∉ seen) (.duplicate .param p)
    checkParamsFrom s (p :: seen) ps

def checkParams (s : Symbols) (params : List String) : Except Flaw Unit :=
  s.checkParamsFrom [] params

/-- Checks the body of `d` and gives the pieces with a rule, which are `ruled` before. -/
def checkBody (s : Symbols) (ruled : List String) (d : Declaration) :
    Except Flaw (List String) := do
  match d with
  | .rule r =>
    require (s.isPiece r.piece) (.undefinedSymbol .piece r.piece)
    require (r.piece ∉ ruled) (.duplicate .rule r.piece)
    s.checkMovement [] r.movement
    return r.piece :: ruled
  | .moveMacro m =>
    s.checkParams m.params
    s.checkMovement m.params m.body
    return ruled
  | .predicate p =>
    s.checkParams p.params
    s.checkExpr p.body
    return ruled
  | .effect e =>
    s.checkParams e.params
    s.checkAssignments e.params e.assignments
    return ruled
  | .var v =>
    s.checkExpr v.value
    return ruled
  | .victory v =>
    require (v.player ∈ s.players) (.undefinedSymbol .player v.player)
    s.checkExpr v.condition
    return ruled

/-! ## The board -/

/-- The board has sides and as many cells as they make. -/
def checkBoard (b : BoardDecl) : Except Flaw Unit :=
  match b.sides? with
  | none => .error (.boardSize b.width b.height)
  | some (width, height) =>
    require (b.cells.length = width * height) (.cellCount (width * height) b.cells.length)

/-- A cell names a piece, and if it names an owner too, that piece's owner. -/
def checkCell (s : Symbols) : Cell → Except Flaw Unit
  | .empty => .ok ()
  | .piece name owner =>
    match s.pieces.lookup name, owner with
    | none, _ => .error (.undefinedSymbol .piece name)
    | some _, none => .ok ()
    | some declared, some owner => do
      require (owner ∈ s.players) (.undefinedSymbol .player owner)
      require (owner = declared) (.ownerMismatch name declared owner)

end Symbols

/-- Checks the items of a list in order, and tells where the first flaw is. -/
def checkEach {α σ : Type} (step : σ → α → Except Flaw σ) (state : σ) :
    List (Spanned α) → Except (Spanned Flaw) σ
  | [] => .ok state
  | item :: items =>
    match step state item.value with
    | .error flaw => .error (item.map fun _ => flaw)
    | .ok state => checkEach step state items

namespace Program

/-- The names that a program declares, unless it declares one wrongly. -/
def symbols (p : Program) : Except (Spanned Flaw) Symbols := do
  let s ← checkEach Symbols.addPlayer {} p.players
  let s ← checkEach Symbols.addPiece s p.pieces
  let (s, _) ← checkEach Symbols.addDeclaration (s, []) p.declarations
  return s

/-- Finds the first flaw of a program. -/
def check (p : Program) : Except (Spanned Flaw) Unit := do
  let s ← p.symbols
  let _ ← checkEach s.checkBody [] p.declarations
  checkEach (fun _ b => Symbols.checkBoard b) () [p.board]
  checkEach (fun _ c => s.checkCell c) () p.board.value.cells

end Program
end BoardGame
