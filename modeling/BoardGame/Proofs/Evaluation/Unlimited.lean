import BoardGame.Expansion

/-!
# Evaluation without a limit

A call runs the body of a predicate, and a macro call resolves the body of a macro, however deep they are
nested. The evaluator stops calls that nest too deep. These are the same recursions without a limit: an
evaluation goes from an expression into the expressions in it, and from a call or a bare name into a body,
for as long as it has fuel. One that comes to a result, whatever fuel it has beyond some amount
(`ComesTo`), ends; one that never has enough goes on for ever (`Env.evalFueled_of_calls_itself`).
-/

namespace BoardGame

/-- What an evaluation has come to: a value, a failure, or the end of its fuel. -/
abbrev Course := ExceptT EvalError Option

namespace Course
variable {α β : Type}

def result (r : Except EvalError α) : Course α := ExceptT.mk (some r)

def unfinished : Course α := ExceptT.mk none

end Course

/-- With enough fuel the evaluation ends, and comes to `r`. -/
def ComesTo {α : Type} (c : Nat → Course α) (r : Except EvalError α) : Prop :=
  ∃ n, ∀ m, n ≤ m → c m = .result r

namespace ComesTo
variable {α β : Type} {r : Except EvalError α}

theorem result (r : Except EvalError α) : ComesTo (fun _ => .result r) r := ⟨0, fun _ _ => rfl⟩

theorem pure (a : α) : ComesTo (fun _ => Pure.pure a) (.ok a) := result (.ok a)

/-- One evaluation after the other ends if the first one does, and the second one where it is come to. -/
theorem bind {c : Nat → Course α} {f : Nat → α → Course β} {g : α → Except EvalError β}
    (hc : ComesTo c r) (hf : ∀ a, r = .ok a → ComesTo (f · a) (g a)) :
    ComesTo (fun n => c n >>= f n) (r >>= g) := by
  obtain ⟨n, hn⟩ := hc
  cases r with
  | error e =>
    refine ⟨n, fun m hm => ?_⟩
    dsimp only
    rw [hn m hm]
    rfl
  | ok a =>
    obtain ⟨k, hk⟩ := hf a rfl
    refine ⟨max n k, fun m hm => ?_⟩
    dsimp only
    rw [hn m (Nat.max_le.1 hm).1]
    exact hk m (Nat.max_le.1 hm).2

/-- It is enough to look at evaluations with some fuel. -/
theorem of_succ {c : Nat → Course α} (h : ComesTo (fun n => c (n + 1)) r) : ComesTo c r := by
  obtain ⟨n, hn⟩ := h
  refine ⟨n + 1, fun m hm => ?_⟩
  cases m with
  | zero => exact absurd hm (Nat.not_succ_le_zero n)
  | succ m => exact hn m (Nat.le_of_succ_le_succ hm)

end ComesTo

namespace Env

/-- The values of expressions from left to right, or the first failure. -/
def evalEach (eval : Expr → Course Int) : List Expr → Course (List Int)
  | [] => pure []
  | e :: es => do
    let n ← eval e
    let ns ← evalEach eval es
    return n :: ns

/-- Runs a predicate. -/
def runBody (eval : Scope → Expr → Course Int) (p : Predicate) (args : List Int) (scope : Scope) :
    Course Int :=
  if p.params.length = args.length then eval (scope.bind p.params args) p.body
  else .result (.error (.arity p.name p.params.length args.length))

/-- The value of a bare name. -/
def nameFueled (env : Env) (eval : Scope → Expr → Course Int) (scope : Scope) (name : String) :
    Course Int :=
  match scope.lookup name with
  | some n => pure n
  | none =>
    if name = "None" then pure 0
    else if name ∈ builtinNames then .result (env.builtin name)
    else
      match env.definitions.pieceId? name with
      | some p => do
        let (occupant, _) ← Course.result (env.here name)
        return truth (occupant = some p)
      | none =>
        match SortedMap.find? name env.vars with
        | some v => .result (v.asInt name)
        | none =>
          match env.definitions.predicate? name with
          | some p => runBody eval p [] scope
          | none => .result (.error (.unknownVariable name))

/-- The value of an expression. The way into another expression takes one unit of fuel. -/
def evalFueled (env : Env) : Nat → Scope → Expr → Course Int
  | 0, _, _ => .unfinished
  | n + 1, scope, e =>
    let eval := evalFueled env n
    match e with
    | .literal k => pure k
    | .var name => env.nameFueled eval scope name
    | .field name key => .result (env.field name key)
    | .index name indices => do
      let ns ← evalEach (eval scope) indices
      Course.result (env.indexed name ns)
    | .binary .and left right => do
      if (← eval scope left) = 0 then return 0
      else return truth ((← eval scope right) ≠ 0)
    | .binary .or left right => do
      if (← eval scope left) ≠ 0 then return 1
      else return truth ((← eval scope right) ≠ 0)
    | .binary op left right => do
      let l ← eval scope left
      let r ← eval scope right
      Course.result (op.apply l r)
    | .unary op operand => do
      let k ← eval scope operand
      Course.result (op.apply k)
    | .call name args =>
      if name ∈ builtinNames then
        .result (if args.isEmpty then env.builtin name else .error (.arity name 0 args.length))
      else
        match env.definitions.predicate? name with
        | some p => do runBody eval p (← evalEach (eval scope) args) scope
        | none => .result (.error (env.notCallable name))

def stepFueled (env : Env) (n : Nat) (scope : Scope) (l : Letter) : Course Step := do
  let dx ← env.evalFueled n scope l.dx
  let dy ← env.evalFueled n scope l.dy
  let condition ← Course.result (l.condition.toExpr.fold scope)
  let effect ← Course.result (match l.effect with
    | none => pure none
    | some c => some <$> c.fold scope)
  return ⟨dx, dy, condition, effect⟩

/-- The pattern of a movement. The way into another movement takes one unit of fuel. -/
def resolveFueled (env : Env) : Nat → Scope → Movement → Course Pattern
  | 0, _, _ => .unfinished
  | n + 1, scope, m =>
    let resolve := resolveFueled env n
    match m with
    | .letter l => do
      let s ← env.stepFueled n scope l
      return .step s
    | .concat left right => do
      let left ← resolve scope left
      let right ← resolve scope right
      return .concat left right
    | .union left right => do
      let left ← resolve scope left
      let right ← resolve scope right
      return .union left right
    | .star inner => do
      let inner ← resolve scope inner
      return .star inner
    | .plus inner => do
      let inner ← resolve scope inner
      return .plus inner
    | .optional inner => do
      let inner ← resolve scope inner
      return .optional inner
    | .expand c =>
      match env.definitions.moveMacro? c.name with
      | none => .result (.error (.undefined .moveMacro c.name))
      | some m =>
        if m.params.length = c.args.length then do
          let args ← evalEach (env.evalFueled n scope) c.args
          resolve (scope.bind m.params args) m.body
        else .result (.error (.arity c.name m.params.length c.args.length))

/-- A predicate that does nothing but call itself goes on for ever. -/
theorem evalFueled_of_calls_itself {env : Env} {name : String} (hname : name ∉ builtinNames)
    (h : env.definitions.predicate? name = some ⟨name, [], .call name []⟩) (n : Nat) (scope : Scope) :
    env.evalFueled n scope (.call name []) = .unfinished := by
  induction n generalizing scope with
  | zero => rfl
  | succ n ih =>
    rw [evalFueled, if_neg hname, h]
    exact ih (scope.bind [] [])

end Env
end BoardGame
