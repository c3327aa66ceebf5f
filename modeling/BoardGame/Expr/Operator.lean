import BoardGame.EvalError
import BoardGame.Int64

/-! # Operators on integers

The value of an operator on 64-bit integers, or why it has none. Truth is 1 or 0, and every integer
but 0 counts as true. -/

namespace BoardGame

inductive BinaryOp where
  | and | or
  | eq | ne | lt | le | gt | ge
  | add | sub
  | mul | div | floorDiv | mod
deriving DecidableEq, Inhabited

inductive UnaryOp where
  | not
  | neg
deriving DecidableEq, Inhabited

def BinaryOp.symbol : BinaryOp → String
  | and => "&&"
  | or => "||"
  | eq => "=="
  | ne => "!="
  | lt => "<"
  | le => "<="
  | gt => ">"
  | ge => ">="
  | add => "+"
  | sub => "-"
  | mul => "*"
  | div => "/"
  | floorDiv => "//"
  | mod => "%"

def UnaryOp.symbol : UnaryOp → String
  | not => "!"
  | neg => "-"

/-- The integer for a truth value. -/
def truth (b : Bool) : Int := if b then 1 else 0

@[simp] theorem truth_true : truth true = 1 := rfl

@[simp] theorem truth_false : truth false = 0 := rfl

/-- `n`, if it is a 64-bit integer. -/
def checkInt64 (n : Int) : Except EvalError Int :=
  if FitsInt64 n then .ok n else .error .overflow

/-- The floor of `l / r`, found from the quotient cut off toward zero. -/
def floorQuotient (l r : Int) : Int :=
  let q := l.tdiv r
  if q * r ≠ l ∧ decide (l < 0) ≠ decide (r < 0) then q - 1 else q

/-- The remainder of `l / r` with the sign of `r`, found from the remainder with the sign of `l`. -/
def floorRemainder (l r : Int) : Int :=
  let m := l.tmod r
  if m ≠ 0 ∧ decide (m < 0) ≠ decide (r < 0) then m + r else m

/-- `value`, if `l / r` has a quotient and it is a 64-bit integer. -/
def divided (l r value : Int) : Except EvalError Int :=
  if r = 0 then .error .divisionByZero
  else if FitsInt64 (l.tdiv r) then .ok value
  else .error .overflow

/-- The value of `l op r`, both operands having been evaluated. -/
def BinaryOp.apply (op : BinaryOp) (l r : Int) : Except EvalError Int :=
  match op with
  | and => .ok (truth (l ≠ 0 ∧ r ≠ 0))
  | or => .ok (truth (l ≠ 0 ∨ r ≠ 0))
  | eq => .ok (truth (l = r))
  | ne => .ok (truth (l ≠ r))
  | lt => .ok (truth (l < r))
  | le => .ok (truth (l ≤ r))
  | gt => .ok (truth (l > r))
  | ge => .ok (truth (l ≥ r))
  | add => checkInt64 (l + r)
  | sub => checkInt64 (l - r)
  | mul => checkInt64 (l * r)
  | div => divided l r (l.tdiv r)
  | floorDiv => divided l r (floorQuotient l r)
  | mod => divided l r (floorRemainder l r)

def UnaryOp.apply (op : UnaryOp) (n : Int) : Except EvalError Int :=
  match op with
  | not => .ok (truth (n = 0))
  | neg => checkInt64 (-n)

end BoardGame
