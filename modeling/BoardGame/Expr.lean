import BoardGame.Expr.Operator

/-! # Integer expressions -/

namespace BoardGame

inductive Expr where
  | literal (value : Int)
  | var (name : String)
  /-- `name.key` -/
  | field (name key : String)
  /-- `name[i]…[j]` -/
  | index (name : String) (indices : List Expr)
  | binary (op : BinaryOp) (left right : Expr)
  | unary (op : UnaryOp) (operand : Expr)
  | call (name : String) (args : List Expr)
deriving Inhabited

/-- A call of a predicate, an effect or a macro. -/
structure Call where
  name : String
  args : List Expr
deriving Inhabited

def Call.toExpr (c : Call) : Expr := .call c.name c.args

namespace Expr

/-! ## Equality -/

mutual

def same : Expr → Expr → Bool
  | literal m, literal n => m == n
  | var a, var b => a == b
  | field a f, field b g => a == b && f == g
  | index a es, index b fs => a == b && sameAll es fs
  | binary o a b, binary p c d => o == p && (same a c && same b d)
  | unary o a, unary p b => o == p && same a b
  | call f es, call g fs => f == g && sameAll es fs
  | _, _ => false

def sameAll : List Expr → List Expr → Bool
  | [], [] => true
  | e :: es, f :: fs => same e f && sameAll es fs
  | _, _ => false

end

mutual

theorem same_refl : ∀ e : Expr, same e e = true
  | literal _ | var _ | field _ _ => by simp [same]
  | index _ es | call _ es => by simp [same, sameAll_refl es]
  | binary _ a b => by simp [same, same_refl a, same_refl b]
  | unary _ a => by simp [same, same_refl a]

theorem sameAll_refl : ∀ es : List Expr, sameAll es es = true
  | [] => rfl
  | e :: es => by simp [sameAll, same_refl e, sameAll_refl es]

end

mutual

theorem eq_of_same : ∀ e f : Expr, same e f = true → e = f
  | literal _, f, h => by cases f <;> simp_all [same]
  | var _, f, h => by cases f <;> simp_all [same]
  | field _ _, f, h => by cases f <;> simp_all [same]
  | index _ es, f, h => by
    cases f <;> simp_all only [same, Bool.and_eq_true, beq_iff_eq, reduceCtorEq]
    exact congrArg _ (eq_of_sameAll es _ h.2)
  | binary _ a b, f, h => by
    cases f <;> simp_all only [same, Bool.and_eq_true, beq_iff_eq, reduceCtorEq]
    rw [eq_of_same a _ h.2.1, eq_of_same b _ h.2.2]
  | unary _ a, f, h => by
    cases f <;> simp_all only [same, Bool.and_eq_true, beq_iff_eq, reduceCtorEq]
    exact congrArg _ (eq_of_same a _ h.2)
  | call _ es, f, h => by
    cases f <;> simp_all only [same, Bool.and_eq_true, beq_iff_eq, reduceCtorEq]
    exact congrArg _ (eq_of_sameAll es _ h.2)

theorem eq_of_sameAll : ∀ es fs : List Expr, sameAll es fs = true → es = fs
  | [], fs, h => by cases fs <;> simp_all [sameAll]
  | e :: es, fs, h => by
    cases fs <;> simp_all only [sameAll, Bool.and_eq_true, reduceCtorEq]
    rw [eq_of_same e _ h.1, eq_of_sameAll es _ h.2]

end

instance : DecidableEq Expr := fun e f =>
  decidable_of_iff (same e f = true) ⟨eq_of_same e f, fun h => h ▸ same_refl e⟩

end Expr

deriving instance DecidableEq for Call

/-! ## Printing -/

def commaSeparated (items : List String) : String := ", ".intercalate items

mutual

/-- Writes an expression with brackets around every binary operation. -/
def Expr.render : Expr → String
  | .literal value => toString value
  | .var name => name
  | .field name key => name ++ "." ++ key
  | .index name indices => name ++ Expr.renderIndices indices
  | .binary op left right => "(" ++ left.render ++ " " ++ op.symbol ++ " " ++ right.render ++ ")"
  | .unary op operand => op.symbol ++ operand.render
  | .call name args => name ++ "(" ++ commaSeparated (Expr.renderAll args) ++ ")"

def Expr.renderIndices : List Expr → String
  | [] => ""
  | e :: es => "[" ++ e.render ++ "]" ++ Expr.renderIndices es

def Expr.renderAll : List Expr → List String
  | [] => []
  | e :: es => e.render :: Expr.renderAll es

end

def Call.render (c : Call) : String := c.toExpr.render

end BoardGame
