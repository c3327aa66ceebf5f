import BoardGame.Folding
import BoardGame.Proofs.Results

/-!
# Folding keeps the value

Folding puts the arguments of a scope into an expression, so the folded expression needs no scope. Its
value is that of the expression it comes from (`eval_fold`), provided that no predicate sees the scope:
a body is run behind the scope of its call, and would miss what it takes from there.
-/

namespace BoardGame

/-! ### Bare names -/

mutual

/-- The names that stand bare in an expression, which are looked up in the scope first. -/
def Expr.bareNames : Expr → List String
  | .var name => [name]
  | .literal _ | .field _ _ => []
  | .index _ indices => Expr.bareNamesAll indices
  | .binary _ left right => left.bareNames ++ right.bareNames
  | .unary _ operand => operand.bareNames
  | .call _ args => Expr.bareNamesAll args

def Expr.bareNamesAll : List Expr → List String
  | [] => []
  | e :: es => e.bareNames ++ Expr.bareNamesAll es

end

/-- No body of a predicate mentions a name that `scope` binds, other than as its own parameter. -/
def Definitions.Ignore (d : Definitions) (scope : Scope) : Prop :=
  ∀ name p, d.predicate? name = some p → ∀ x ∈ p.body.bareNames, x ∉ p.params → scope.lookup x = none

/-! ### Operators on folded operands -/

namespace Expr

/-- Only constants are put together. -/
theorem foldBinary_cases (op : BinaryOp) (l r : Expr) :
    (∃ m n, l = literal m ∧ r = literal n) ∨ foldBinary op l r = .ok (binary op l r) := by
  unfold foldBinary
  split
  · exact .inl ⟨_, _, rfl, rfl⟩
  · exact .inr rfl

theorem foldUnary_cases (op : UnaryOp) (a : Expr) :
    (∃ n, a = literal n) ∨ foldUnary op a = .ok (unary op a) := by
  unfold foldUnary
  split
  · exact .inl ⟨_, rfl⟩
  · exact .inr rfl

end Expr

namespace Env
variable {env : Env} {run run' : Invoke} {scope scope' : Scope} {e e' : Expr}

/-! ### Evaluation in two scopes -/

/-- `run` gives the same for every predicate in both scopes. -/
def SameCalls (env : Env) (run : Invoke) (scope scope' : Scope) : Prop :=
  ∀ name p, env.definitions.predicate? name = some p → ∀ args, run p args scope = run p args scope'

theorem bareName_congr (hrun : env.SameCalls run scope scope') {name : String}
    (h : scope.lookup name = scope'.lookup name) :
    env.bareName run scope name = env.bareName run scope' name := by
  have hcall : ∀ p, env.definitions.predicate? name = some p → run p [] scope = run p [] scope' :=
    fun p hp => hrun name p hp []
  unfold bareName
  rw [h]
  cases scope'.lookup name with
  | some n => rfl
  | none =>
    cases hp : env.definitions.predicate? name with
    | none => rfl
    | some p => simp only [hcall p hp]

theorem evalWith_binary_congr (op : BinaryOp) {l r l' r' : Expr}
    (hl : env.evalWith run scope l = env.evalWith run scope' l')
    (hr : env.evalWith run scope r = env.evalWith run scope' r') :
    env.evalWith run scope (.binary op l r) = env.evalWith run scope' (.binary op l' r') := by
  cases op <;> simp only [evalWith, hl, hr]

theorem evalWith_call_congr (hrun : env.SameCalls run scope scope') (name : String)
    {args args' : List Expr} (hlen : args.length = args'.length)
    (hargs : env.evalAllWith run scope args = env.evalAllWith run scope' args') :
    env.evalWith run scope (.call name args) = env.evalWith run scope' (.call name args') := by
  have hempty : args.isEmpty = args'.isEmpty := by
    rw [Bool.eq_iff_iff, List.isEmpty_iff_length_eq_zero, List.isEmpty_iff_length_eq_zero, hlen]
  simp only [evalWith, hlen, hempty, hargs]
  split
  · rfl
  cases hp : env.definitions.predicate? name with
  | none => rfl
  | some p =>
    cases env.evalAllWith run scope' args' with
    | error err => rfl
    | ok ns => exact hrun name p hp ns

mutual

/-- The value of an expression depends on the scope through the bare names and the calls only. -/
theorem evalWith_congr (hrun : env.SameCalls run scope scope') : ∀ e : Expr,
    (∀ x ∈ e.bareNames, scope.lookup x = scope'.lookup x) →
    env.evalWith run scope e = env.evalWith run scope' e
  | .literal _, _ => rfl
  | .field _ _, _ => rfl
  | .var name, h => bareName_congr hrun (h name (List.mem_singleton_self name))
  | .index name indices, h => by
    simp only [evalWith, evalAllWith_congr hrun indices h]
  | .binary op l r, h =>
    evalWith_binary_congr op (evalWith_congr hrun l fun x hx => h x (List.mem_append_left _ hx))
      (evalWith_congr hrun r fun x hx => h x (List.mem_append_right _ hx))
  | .unary op a, h => by
    simp only [evalWith, evalWith_congr hrun a h]
  | .call name args, h => evalWith_call_congr hrun name rfl (evalAllWith_congr hrun args h)

theorem evalAllWith_congr (hrun : env.SameCalls run scope scope') : ∀ es : List Expr,
    (∀ x ∈ Expr.bareNamesAll es, scope.lookup x = scope'.lookup x) →
    env.evalAllWith run scope es = env.evalAllWith run scope' es
  | [], _ => rfl
  | e :: es, h => by
    simp only [evalAllWith, evalWith_congr hrun e fun x hx => h x (List.mem_append_left _ hx),
      evalAllWith_congr hrun es fun x hx => h x (List.mem_append_right _ hx)]

end

theorem length_of_evalAllWith {es : List Expr} {ns : List Int}
    (h : env.evalAllWith run scope es = .ok ns) : ns.length = es.length := by
  induction es generalizing ns with
  | nil =>
    obtain rfl := Except.ok.inj h
    rfl
  | cons e es ih =>
    rw [evalAllWith, bind_eq_ok_iff] at h
    obtain ⟨n, -, h⟩ := h
    obtain ⟨ns', hns', h⟩ := bind_eq_ok_iff.1 h
    obtain rfl := Except.ok.inj h
    rw [List.length_cons, List.length_cons, ih hns']

/-! ### Calls in two scopes -/

theorem isSome_lookup_bind {params : List String} {args : List Int} (hlen : params.length = args.length)
    {x : String} (hx : x ∈ params) : ((Scope.bind params args scope).lookup x).isSome := by
  rw [List.lookup_isSome_iff]
  have hkeys : (params.zip args).map Prod.fst = params := List.map_fst_zip (by omega)
  rw [← hkeys] at hx
  obtain ⟨pair, hpair, rfl⟩ := List.mem_map.1 hx
  exact ⟨pair, List.mem_append_left _ (List.mem_reverse.2 hpair), beq_self_eq_true _⟩

/-- A parameter is found in any scope, and any other name as it is outside. -/
theorem lookup_bind_congr {params : List String} {args : List Int}
    (hlen : params.length = args.length) {x : String}
    (hx : x ∉ params → scope.lookup x = scope'.lookup x) :
    List.lookup x (Scope.bind params args scope) = List.lookup x (Scope.bind params args scope') := by
  rw [Scope.bind, Scope.bind, List.lookup_append, List.lookup_append]
  by_cases hmem : x ∈ params
  · have hfound : (List.lookup x (Scope.bind params args [])).isSome := isSome_lookup_bind hlen hmem
    rw [Scope.bind, List.append_nil] at hfound
    obtain ⟨n, hn⟩ := Option.isSome_iff_exists.1 hfound
    rw [hn, Option.some_or, Option.some_or]
  · rw [hx hmem]

/-- A call gives the same in two scopes that no predicate tells apart. -/
theorem invokeWithin_congr (depth : Nat) (h : ∀ name p, env.definitions.predicate? name = some p →
    ∀ x ∈ p.body.bareNames, x ∉ p.params → scope.lookup x = scope'.lookup x) :
    env.SameCalls (env.invokeWithin depth) scope scope' := by
  induction depth generalizing scope scope' with
  | zero => exact fun _ _ _ _ => rfl
  | succ depth ih =>
    intro name p hp args
    simp only [invokeWithin]
    split
    · rename_i hlen
      -- the bodies that are called from this one cannot tell apart what its parameters hide
      have hinner := ih fun q r hr x hx hnot =>
        lookup_bind_congr hlen fun _ => h q r hr x hx hnot
      exact evalWith_congr hinner p.body fun x hx => lookup_bind_congr hlen (h name p hp x hx)
    · rfl

/-- A call gives the same with and without a scope behind it that no predicate sees. -/
theorem invokeWithin_append (hd : env.definitions.Ignore scope) (depth : Nat) (inner : Scope) :
    env.SameCalls (env.invokeWithin depth) (inner ++ scope) inner :=
  invokeWithin_congr depth fun name p hp x hx hnot => by
    rw [List.lookup_append, hd name p hp x hx hnot, Option.or_none]

/-! ### Folding -/

theorem evalWith_binary_literal (op : BinaryOp) (m n : Int) :
    env.evalWith run scope (.binary op (.literal m) (.literal n)) = op.apply m n := by
  cases op with
  | and =>
    simp only [evalWith, BinaryOp.apply, bind, Except.bind]
    by_cases hm : m = 0 <;> simp [hm, pure, Except.pure]
  | or =>
    simp only [evalWith, BinaryOp.apply, bind, Except.bind]
    by_cases hm : m = 0 <;> simp [hm, pure, Except.pure]
  | _ => rfl

theorem evalWith_foldBinary {op : BinaryOp} {l r : Expr} (h : Expr.foldBinary op l r = .ok e') :
    env.evalWith run scope e' = env.evalWith run scope (.binary op l r) := by
  unfold Expr.foldBinary at h
  split at h
  · rename_i m n
    obtain ⟨v, hv, h⟩ := bind_eq_ok_iff.1 h
    obtain rfl := Except.ok.inj h
    rw [evalWith_binary_literal, hv]
    rfl
  · cases h
    rfl

theorem evalWith_foldUnary {op : UnaryOp} {a : Expr} (h : Expr.foldUnary op a = .ok e') :
    env.evalWith run scope e' = env.evalWith run scope (.unary op a) := by
  unfold Expr.foldUnary at h
  split at h
  · rename_i n
    obtain ⟨v, hv, h⟩ := bind_eq_ok_iff.1 h
    obtain rfl := Except.ok.inj h
    have hop : env.evalWith run scope (.unary op (.literal n)) = op.apply n := rfl
    rw [hop, hv]
    rfl
  · cases h
    rfl

/-- What the left operand decides does not depend on the right one. -/
theorem evalWith_of_decided {op : BinaryOp} {l l' r : Expr} {n : Int}
    (h : Expr.decided? op l' = some n) (hl : env.evalWith run scope' l' = env.evalWith run scope l) :
    env.evalWith run scope (.binary op l r) = .ok n := by
  unfold Expr.decided? at h
  split at h
  · split at h
    · rename_i hm
      cases h
      simp only [evalWith, ← hl, hm, bind, Except.bind]
      rfl
    · cases h
  · split at h
    · rename_i hm
      cases h
      simp only [evalWith, ← hl, bind, Except.bind, if_pos hm]
      rfl
    · cases h
  · cases h

theorem length_foldAll {es es' : List Expr} (h : Expr.foldAll scope es = .ok es') :
    es'.length = es.length := by
  induction es generalizing es' with
  | nil => cases h; rfl
  | cons e es ih =>
    obtain ⟨f, -, h⟩ := bind_eq_ok_iff.1 h
    obtain ⟨fs, hfs, h⟩ := bind_eq_ok_iff.1 h
    obtain rfl := Except.ok.inj h
    rw [List.length_cons, List.length_cons, ih hfs]

mutual

theorem evalWith_fold (hrun : env.SameCalls run [] scope) : ∀ e e' : Expr,
    e.fold scope = .ok e' → env.evalWith run [] e' = env.evalWith run scope e
  | .literal _, e', h => by cases h; rfl
  | .field _ _, e', h => by cases h; rfl
  | .var name, e', h => by
    simp only [Expr.fold] at h
    cases hx : scope.lookup name with
    | none =>
      rw [hx] at h
      cases h
      exact bareName_congr hrun hx.symm
    | some n =>
      rw [hx] at h
      cases h
      simp only [evalWith, bareName, hx]
  | .index name indices, e', h => by
    obtain ⟨indices', hi, h⟩ := bind_eq_ok_iff.1 h
    obtain rfl := Except.ok.inj h
    simp only [evalWith, evalAllWith_fold hrun indices indices' hi]
  | .unary op a, e', h => by
    obtain ⟨a', ha, h⟩ := bind_eq_ok_iff.1 h
    rw [evalWith_foldUnary h]
    simp only [evalWith, evalWith_fold hrun a a' ha]
  | .binary op l r, e', h => by
    obtain ⟨l', hl, h⟩ := bind_eq_ok_iff.1 h
    have hleft := evalWith_fold hrun l l' hl
    split at h
    · rename_i n hn
      obtain rfl := Except.ok.inj h
      rw [evalWith_of_decided hn hleft]
      rfl
    · obtain ⟨r', hr, h⟩ := bind_eq_ok_iff.1 h
      rw [evalWith_foldBinary h]
      exact evalWith_binary_congr op hleft (evalWith_fold hrun r r' hr)
  | .call name args, e', h => by
    obtain ⟨args', ha, h⟩ := bind_eq_ok_iff.1 h
    obtain rfl := Except.ok.inj h
    exact evalWith_call_congr hrun name (length_foldAll ha) (evalAllWith_fold hrun args args' ha)

theorem evalAllWith_fold (hrun : env.SameCalls run [] scope) : ∀ es es' : List Expr,
    Expr.foldAll scope es = .ok es' → env.evalAllWith run [] es' = env.evalAllWith run scope es
  | [], es', h => by cases h; rfl
  | e :: es, es', h => by
    obtain ⟨f, hf, h⟩ := bind_eq_ok_iff.1 h
    obtain ⟨fs, hfs, h⟩ := bind_eq_ok_iff.1 h
    obtain rfl := Except.ok.inj h
    simp only [evalAllWith, evalWith_fold hrun e f hf, evalAllWith_fold hrun es fs hfs]

end

/-- Folding with the arguments in sight keeps the value, or the failure, of an expression. -/
theorem eval_fold (hd : env.definitions.Ignore scope) (h : e.fold scope = .ok e') :
    env.eval [] e' = env.eval scope e := by
  refine evalWith_fold (fun name p hp args => ?_) e e' h
  exact (invokeWithin_append hd env.callDepth [] name p hp args).symm

/-- Distances of more than `range` are far. -/
def ranged : Env where
  definitions := { predicates := [⟨"far", ["d"], .binary .gt (.var "d") (.var "range")⟩] }
  vars := [("range", .int 2)]

/-- With `k` for 2, `k && far(k + 1) || -k` becomes `2 && far(3) || -2`, which holds as well. -/
theorem eval_fold_ranged : ranged.definitions.Ignore [("k", 2)] ∧
    (Expr.binary .or (.binary .and (.var "k") (.call "far" [.binary .add (.var "k") (.literal 1)]))
      (.unary .neg (.var "k"))).fold [("k", 2)] =
        .ok (.binary .or (.binary .and (.literal 2) (.call "far" [.literal 3])) (.literal (-2))) ∧
    ranged.eval [("k", 2)] (.binary .or
      (.binary .and (.var "k") (.call "far" [.binary .add (.var "k") (.literal 1)]))
      (.unary .neg (.var "k"))) = .ok 1 := by
  have hignore : ranged.definitions.Ignore [("k", 2)] := by
    intro name p hp x hx hnot
    obtain rfl : p = ⟨"far", ["d"], .binary .gt (.var "d") (.var "range")⟩ :=
      List.mem_singleton.1 (List.mem_of_find?_eq_some hp)
    rcases List.mem_append.1 hx with hx | hx
    · exact absurd hx hnot
    · rw [List.mem_singleton.1 hx]
      rfl
  refine ⟨hignore, rfl, ?_⟩
  have heval := eval_fold (e := Expr.binary .or
    (.binary .and (.var "k") (.call "far" [.binary .add (.var "k") (.literal 1)]))
    (.unary .neg (.var "k"))) hignore rfl
  rw [← heval]
  rfl

end Env
end BoardGame
