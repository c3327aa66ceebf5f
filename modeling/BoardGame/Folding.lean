import BoardGame.Evaluation

/-! # Folding constants

Puts the arguments in sight into an expression and evaluates what needs nothing else. What the left
operand of `&&` or `||` decides is decided here, too. -/

namespace BoardGame.Expr

/-- `left op right` for folded operands other than those the left one decides. -/
def foldBinary (op : BinaryOp) : Expr → Expr → Except EvalError Expr
  | literal l, literal r => return literal (← op.apply l r)
  | left, right => .ok (binary op left right)

def foldUnary (op : UnaryOp) : Expr → Except EvalError Expr
  | literal n => return literal (← op.apply n)
  | operand => .ok (unary op operand)

/-- The value of `left op _` if `left` alone decides it. -/
def decided? : BinaryOp → Expr → Option Int
  | .and, literal n => if n = 0 then some 0 else none
  | .or, literal n => if n ≠ 0 then some 1 else none
  | _, _ => none

mutual

/-- Folds an expression whose arguments are `scope`. -/
def fold (scope : Scope) : Expr → Except EvalError Expr
  | literal n => .ok (literal n)
  | var name =>
    match scope.lookup name with
    | some n => .ok (literal n)
    | none => .ok (var name)
  | field name key => .ok (field name key)
  | index name indices => return index name (← foldAll scope indices)
  | binary op left right => do
    let left ← fold scope left
    match decided? op left with
    | some n => return literal n
    | none => foldBinary op left (← fold scope right)
  | unary op operand => do foldUnary op (← fold scope operand)
  | call name args => return call name (← foldAll scope args)

def foldAll (scope : Scope) : List Expr → Except EvalError (List Expr)
  | [] => .ok []
  | e :: es => do
    let e ← fold scope e
    let es ← foldAll scope es
    return e :: es

end

end BoardGame.Expr

namespace BoardGame

def Call.fold (scope : Scope) (c : Call) : Except EvalError Call :=
  return ⟨c.name, ← Expr.foldAll scope c.args⟩

end BoardGame
