import BoardGame.Proofs.Folding

/-!
# Folded expressions are normal

Letters are compared as text, so folding has to leave nothing undone. Nowhere in a folded expression does a
name stand that the scope binds, an operator whose operands are constants, or one that a constant to its left
decides (`Expr.normal_fold`). What is normal is left as it is (`Expr.fold_eq_self`), so the expressions that
folding keeps are the normal ones, and to fold once more changes nothing.
-/

namespace BoardGame.Expr

mutual

/-- The expressions in an expression, itself first. -/
def parts : Expr → List Expr
  | literal n => [literal n]
  | var name => [var name]
  | field name key => [field name key]
  | index name indices => index name indices :: partsAll indices
  | binary op left right => binary op left right :: (left.parts ++ right.parts)
  | unary op operand => unary op operand :: operand.parts
  | call name args => call name args :: partsAll args

def partsAll : List Expr → List Expr
  | [] => []
  | e :: es => e.parts ++ partsAll es

end

/-- Something can be put in or worked out at the head of an expression. -/
inductive Reducible (scope : Scope) : Expr → Prop
  | var {name : String} {n : Int} (h : scope.lookup name = some n) : Reducible scope (var name)
  | unary (op : UnaryOp) (n : Int) : Reducible scope (unary op (literal n))
  | binary (op : BinaryOp) (m n : Int) : Reducible scope (binary op (literal m) (literal n))
  | and (right : Expr) : Reducible scope (binary .and (literal 0) right)
  | or {n : Int} (h : n ≠ 0) (right : Expr) : Reducible scope (binary .or (literal n) right)

/-- Nothing can be put in or worked out anywhere in the expression. -/
def Normal (scope : Scope) (e : Expr) : Prop := ∀ part ∈ e.parts, ¬ Reducible scope part

def NormalAll (scope : Scope) (es : List Expr) : Prop := ∀ part ∈ partsAll es, ¬ Reducible scope part

section
variable {scope : Scope} {op : BinaryOp} {e e' l r : Expr} {es : List Expr} {name : String}

/-! ### The parts of normal expressions -/

theorem normal_literal (n : Int) : (literal n).Normal scope := by
  intro part hpart
  rw [List.mem_singleton.1 hpart]
  rintro ⟨⟩

theorem normal_field (name key : String) : (field name key).Normal scope := by
  intro part hpart
  rw [List.mem_singleton.1 hpart]
  rintro ⟨⟩

theorem normal_var_iff : (var name).Normal scope ↔ scope.lookup name = none := by
  rw [Normal, parts, List.forall_mem_singleton, Option.eq_none_iff_forall_ne_some]
  exact ⟨fun h n hn => h (.var hn), fun h hred => by cases hred with | var hn => exact h _ hn⟩

theorem normal_unary_iff {op : UnaryOp} :
    (unary op e).Normal scope ↔ ¬ Reducible scope (unary op e) ∧ e.Normal scope := by
  rw [Normal, parts, List.forall_mem_cons]
  rfl

theorem normal_binary_iff : (binary op l r).Normal scope ↔
    ¬ Reducible scope (binary op l r) ∧ l.Normal scope ∧ r.Normal scope := by
  rw [Normal, parts, List.forall_mem_cons, List.forall_mem_append]
  rfl

theorem normal_index_iff : (index name es).Normal scope ↔ NormalAll scope es := by
  rw [Normal, parts, List.forall_mem_cons]
  exact ⟨fun h => h.2, fun h => ⟨by rintro ⟨⟩, h⟩⟩

theorem normal_call_iff : (call name es).Normal scope ↔ NormalAll scope es := by
  rw [Normal, parts, List.forall_mem_cons]
  exact ⟨fun h => h.2, fun h => ⟨by rintro ⟨⟩, h⟩⟩

theorem normalAll_nil : NormalAll scope [] := fun _ h => absurd h List.not_mem_nil

theorem normalAll_cons_iff : NormalAll scope (e :: es) ↔ e.Normal scope ∧ NormalAll scope es := by
  rw [NormalAll, partsAll, List.forall_mem_append]
  rfl

/-- Without a scope no name is put in. -/
theorem Normal.root (h : e.Normal scope) : e.Normal [] := by
  intro part hpart hred
  refine h part hpart ?_
  cases hred with
  | var hn => cases hn
  | unary op n => exact .unary op n
  | binary op m n => exact .binary op m n
  | and r => exact .and r
  | or hn r => exact .or hn r

/-! ### Operators -/

/-- An operator can be worked out if its left operand decides, or both of them are constants. -/
theorem reducible_binary_iff : Reducible scope (binary op l r) ↔
    (∃ n, decided? op l = some n) ∨ ∃ m n, l = literal m ∧ r = literal n := by
  constructor
  · intro h
    cases h with
    | binary op m n => exact .inr ⟨m, n, rfl, rfl⟩
    | and r => exact .inl ⟨0, rfl⟩
    | or hn r => exact .inl ⟨1, if_pos hn⟩
  · rintro (⟨n, h⟩ | ⟨m, n, rfl, rfl⟩)
    · unfold decided? at h
      split at h
      · split at h
        · rename_i hn
          exact hn ▸ .and r
        · cases h
      · split at h
        · rename_i hn
          exact .or hn r
        · cases h
      · cases h
    · exact .binary op m n

theorem normal_foldBinary (hl : l.Normal scope) (hr : r.Normal scope) (hopen : decided? op l = none)
    (h : foldBinary op l r = .ok e') : e'.Normal scope := by
  by_cases hlit : ∃ m n, l = literal m ∧ r = literal n
  · obtain ⟨m, n, rfl, rfl⟩ := hlit
    obtain ⟨v, -, h⟩ := bind_eq_ok_iff.1 h
    obtain rfl := Except.ok.inj h
    exact normal_literal v
  · rw [(foldBinary_cases op l r).resolve_left hlit] at h
    obtain rfl := Except.ok.inj h
    refine normal_binary_iff.2 ⟨fun hred => ?_, hl, hr⟩
    rcases reducible_binary_iff.1 hred with ⟨n, hn⟩ | hlit'
    · rw [hopen] at hn
      cases hn
    · exact hlit hlit'

theorem normal_foldUnary {op : UnaryOp} (he : e.Normal scope) (h : foldUnary op e = .ok e') :
    e'.Normal scope := by
  by_cases hlit : ∃ n, e = literal n
  · obtain ⟨n, rfl⟩ := hlit
    obtain ⟨v, -, h⟩ := bind_eq_ok_iff.1 h
    obtain rfl := Except.ok.inj h
    exact normal_literal v
  · rw [(foldUnary_cases op e).resolve_left hlit] at h
    obtain rfl := Except.ok.inj h
    refine normal_unary_iff.2 ⟨fun hred => ?_, he⟩
    cases hred with
    | unary op n => exact hlit ⟨n, rfl⟩

end

/-! ### Folding -/

section
variable {scope : Scope}

mutual

/-- What comes of folding is normal. -/
theorem normal_fold : ∀ e e' : Expr, e.fold scope = .ok e' → e'.Normal scope
  | literal n, e', h => by
    cases h
    exact normal_literal n
  | field name key, e', h => by
    cases h
    exact normal_field name key
  | var name, e', h => by
    rw [fold] at h
    split at h
    · cases h
      exact normal_literal _
    · rename_i hfree
      cases h
      exact normal_var_iff.2 hfree
  | index name indices, e', h => by
    obtain ⟨indices', hi, h⟩ := bind_eq_ok_iff.1 h
    obtain rfl := Except.ok.inj h
    exact normal_index_iff.2 (normalAll_foldAll indices indices' hi)
  | call name args, e', h => by
    obtain ⟨args', ha, h⟩ := bind_eq_ok_iff.1 h
    obtain rfl := Except.ok.inj h
    exact normal_call_iff.2 (normalAll_foldAll args args' ha)
  | unary op a, e', h => by
    obtain ⟨a', ha, h⟩ := bind_eq_ok_iff.1 h
    exact normal_foldUnary (normal_fold a a' ha) h
  | binary op l r, e', h => by
    obtain ⟨l', hl, h⟩ := bind_eq_ok_iff.1 h
    split at h
    · obtain rfl := Except.ok.inj h
      exact normal_literal _
    · rename_i hopen
      obtain ⟨r', hr, h⟩ := bind_eq_ok_iff.1 h
      exact normal_foldBinary (normal_fold l l' hl) (normal_fold r r' hr) hopen h

theorem normalAll_foldAll : ∀ es es' : List Expr, foldAll scope es = .ok es' → NormalAll scope es'
  | [], es', h => by
    cases h
    exact normalAll_nil
  | e :: es, es', h => by
    obtain ⟨f, hf, h⟩ := bind_eq_ok_iff.1 h
    obtain ⟨fs, hfs, h⟩ := bind_eq_ok_iff.1 h
    obtain rfl := Except.ok.inj h
    exact normalAll_cons_iff.2 ⟨normal_fold e f hf, normalAll_foldAll es fs hfs⟩

end

mutual

/-- What is normal is left as it is. -/
theorem fold_eq_self : ∀ e : Expr, e.Normal scope → e.fold scope = .ok e
  | literal _, _ => rfl
  | field _ _, _ => rfl
  | var name, h => by rw [fold, normal_var_iff.1 h]
  | index name indices, h => by
    rw [fold, foldAll_eq_self indices (normal_index_iff.1 h)]
    rfl
  | call name args, h => by
    rw [fold, foldAll_eq_self args (normal_call_iff.1 h)]
    rfl
  | unary op a, h => by
    obtain ⟨hirred, ha⟩ := normal_unary_iff.1 h
    rw [fold, fold_eq_self a ha]
    refine (foldUnary_cases op a).resolve_left ?_
    rintro ⟨n, rfl⟩
    exact hirred (.unary op n)
  | binary op l r, h => by
    obtain ⟨hirred, hl, hr⟩ := normal_binary_iff.1 h
    rw [reducible_binary_iff, not_or] at hirred
    have hopen : decided? op l = none :=
      Option.eq_none_iff_forall_ne_some.2 fun n hn => hirred.1 ⟨n, hn⟩
    rw [fold, fold_eq_self l hl, fold_eq_self r hr]
    simp only [bind, Except.bind, hopen]
    exact (foldBinary_cases op l r).resolve_left hirred.2

theorem foldAll_eq_self : ∀ es : List Expr, NormalAll scope es → foldAll scope es = .ok es
  | [], _ => rfl
  | e :: es, h => by
    obtain ⟨he, hes⟩ := normalAll_cons_iff.1 h
    rw [foldAll, fold_eq_self e he, foldAll_eq_self es hes]
    rfl

end

/-- The expressions that folding keeps are the normal ones. -/
theorem fold_eq_self_iff {e : Expr} : e.fold scope = .ok e ↔ e.Normal scope :=
  ⟨normal_fold e e, fold_eq_self e⟩

/-- A folded expression is normal, and stays as it is when it is folded without a scope. It is the expression
itself only if that was normal already. -/
theorem fold_reaches_normal {e e' : Expr} (h : e.fold scope = .ok e') :
    e'.Normal scope ∧ e'.fold [] = .ok e' ∧ (e' = e ↔ e.Normal scope) := by
  have hnormal : e'.Normal scope := normal_fold e e' h
  have hkept : e' = e ↔ e.fold scope = .ok e := by rw [h, Except.ok.injEq]
  exact ⟨hnormal, fold_eq_self e' hnormal.root, hkept.trans fold_eq_self_iff⟩

/-- `k || x + (2 - k) < -n[k]` -/
def choice : Expr := binary .or (var "k")
  (binary .lt (binary .add (var "x") (binary .sub (literal 2) (var "k"))) (unary .neg (index "n" [var "k"])))

/-- `0 || x + 2 < -n[0]` -/
def chosen : Expr := binary .or (literal 0)
  (binary .lt (binary .add (var "x") (literal 2)) (unary .neg (index "n" [literal 0])))

/-- With 0 for `k` a constant is left on the left, which does not decide. -/
theorem fold_reaches_normal_choice : choice.fold [("k", 0)] = .ok chosen ∧
    chosen.Normal [("k", 0)] ∧ chosen.fold [] = .ok chosen ∧ ¬ choice.Normal [("k", 0)] := by
  have hfold : choice.fold [("k", 0)] = .ok chosen := rfl
  obtain ⟨hnormal, hroot, hkept⟩ := fold_reaches_normal hfold
  have hne : chosen ≠ choice := by decide
  exact ⟨hfold, hnormal, hroot, fun h => hne (hkept.2 h)⟩

end

end BoardGame.Expr
