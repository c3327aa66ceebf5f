import BoardGame.Folding
import BoardGame.Pattern

/-! # Expanding macros

A macro is called by value: its arguments are evaluated where it is called, and are in sight in its
body, behind those of a macro that it calls. -/

namespace BoardGame.Env

def step (env : Env) (scope : Scope) (l : Letter) : Except EvalError Step := do
  let dx ← env.eval scope l.dx
  let dy ← env.eval scope l.dy
  let condition ← l.condition.toExpr.fold scope
  let effect ← match l.effect with
    | none => pure none
    | some c => some <$> c.fold scope
  return ⟨dx, dy, condition, effect⟩

/-- How a macro call is expanded in a scope. -/
abbrev Expand := Scope → Call → Except EvalError Pattern

/-- The pattern of a movement, when macro calls are expanded by `expand`. -/
def resolveWith (env : Env) (expand : Expand) (scope : Scope) :
    Movement → Except EvalError Pattern
  | .letter l => return .step (← env.step scope l)
  | .concat left right => do
    let left ← resolveWith env expand scope left
    let right ← resolveWith env expand scope right
    return .concat left right
  | .union left right => do
    let left ← resolveWith env expand scope left
    let right ← resolveWith env expand scope right
    return .union left right
  | .star inner => return .star (← resolveWith env expand scope inner)
  | .plus inner => return .plus (← resolveWith env expand scope inner)
  | .optional inner => return .optional (← resolveWith env expand scope inner)
  | .expand c => expand scope c

/-- Expands a macro call whose macros nest at most this deep. -/
def expandWithin (env : Env) : Nat → Expand
  | 0, _, c => .error (.recursionLimit c.name)
  | n + 1, scope, c =>
    match env.definitions.moveMacro? c.name with
    | none => .error (.undefined .moveMacro c.name)
    | some m =>
      if m.params.length = c.args.length then do
        let args ← env.evalAll scope c.args
        resolveWith env (expandWithin env n) (scope.bind m.params args) m.body
      else .error (.arity c.name m.params.length c.args.length)

/-- How deep macros may nest. Macros that do not call themselves nest no deeper than there are
macros. -/
def expansionDepth (env : Env) : Nat := nestingLimit + env.definitions.macros.length

/-- The pattern of a movement whose arguments are `scope`. -/
def resolve (env : Env) (scope : Scope) (m : Movement) : Except EvalError Pattern :=
  env.resolveWith (env.expandWithin env.expansionDepth) scope m

end BoardGame.Env
