import BoardGame.Proofs.Folding

/-!
# When folding fails

Folding fails of a constant that has no value, such as `1 / 0`, wherever in the expression it stands.
Where evaluation comes to that constant, it fails as well (`eval_error_of_fold_error`). It does not come to
the right operand of `&&` or `||` if the left one decides, and folding sees that only of a left operand
that is itself constant: behind any other the constant need not be evaluated (`fold_and_eq_error`).
-/

namespace BoardGame

namespace Expr

/-- Whether evaluation may pass by the operand to the right of this folded left one. -/
def skips : BinaryOp → Expr → Bool
  | .and, literal _ | .or, literal _ => false
  | .and, _ | .or, _ => true
  | _, _ => false

mutual

/-- Whether folding fails in an operand that evaluation may pass by. -/
def sheltered (scope : Scope) : Expr → Bool
  | literal _ | var _ | field _ _ => false
  | index _ indices => shelteredAll scope indices
  | binary op left right =>
    match left.fold scope, right.fold scope with
    | .error _, _ => sheltered scope left
    | .ok left', .error _ => skips op left' || sheltered scope right
    | .ok _, .ok _ => false
  | unary _ operand => sheltered scope operand
  | call _ args => shelteredAll scope args

def shelteredAll (scope : Scope) : List Expr → Bool
  | [] => false
  | e :: es =>
    match e.fold scope with
    | .error _ => sheltered scope e
    | .ok _ => shelteredAll scope es

end

theorem exists_literal_of_decided {op : BinaryOp} {l : Expr} {n : Int} (h : decided? op l = some n) :
    ∃ m, l = literal m := by
  unfold decided? at h
  split at h
  · exact ⟨_, rfl⟩
  · exact ⟨_, rfl⟩
  · cases h

/-- If folding goes on to the right operand and evaluation may not pass by it, then no value that the
left one can have decides. -/
theorem decided?_of_skips {op : BinaryOp} {l : Expr} {m : Int} (hskips : skips op l = false)
    (h : decided? op l = none) (hl : ∀ k, l = literal k → k = m) : decided? op (literal m) = none := by
  cases op with
  | and | or =>
    cases l with
    | literal k =>
      obtain rfl := hl k rfl
      exact h
    | _ => cases hskips
  | _ => rfl

end Expr

namespace Env
variable {env : Env} {run : Invoke} {scope : Scope} {e l r : Expr} {n : Int}

/-! ### Constants -/

/-- What folds to a constant has its value. -/
theorem evalWith_of_fold_literal : ∀ (e : Expr) (n : Int), e.fold scope = .ok (.literal n) →
    env.evalWith run scope e = .ok n
  | .literal _, n, h => by cases h; rfl
  | .field _ _, n, h => by cases h
  | .var name, n, h => by
    simp only [Expr.fold] at h
    split at h
    · rename_i m hm
      cases h
      simp only [evalWith, bareName, hm]
    · cases h
  | .index name indices, n, h => by
    rw [Expr.fold, bind_eq_ok_iff] at h
    obtain ⟨indices', -, h⟩ := h
    cases h
  | .call name args, n, h => by
    rw [Expr.fold, bind_eq_ok_iff] at h
    obtain ⟨args', -, h⟩ := h
    cases h
  | .unary op a, n, h => by
    rw [Expr.fold, bind_eq_ok_iff] at h
    obtain ⟨a', ha, h⟩ := h
    rcases Expr.foldUnary_cases op a' with ⟨m, rfl⟩ | hop
    · have hop : env.evalWith run scope (.literal n) = env.evalWith run scope (.unary op (.literal m)) :=
        evalWith_foldUnary h
      simp only [evalWith, evalWith_of_fold_literal a m ha] at hop ⊢
      exact hop.symm
    · rw [hop] at h
      cases h
  | .binary op l r, n, h => by
    rw [Expr.fold, bind_eq_ok_iff] at h
    obtain ⟨l', hl, h⟩ := h
    split at h
    · rename_i m hm
      cases h
      obtain ⟨k, rfl⟩ := Expr.exists_literal_of_decided hm
      have hk : env.evalWith run scope (.literal k) = env.evalWith run scope l :=
        (evalWith_of_fold_literal l k hl).symm
      exact evalWith_of_decided hm hk
    · rw [bind_eq_ok_iff] at h
      obtain ⟨r', hr, h⟩ := h
      rcases Expr.foldBinary_cases op l' r' with ⟨a, b, rfl, rfl⟩ | hop
      · calc env.evalWith run scope (.binary op l r)
            = env.evalWith run scope (.binary op (.literal a) (.literal b)) :=
              evalWith_binary_congr op (evalWith_of_fold_literal l a hl) (evalWith_of_fold_literal r b hr)
          _ = .ok n := (evalWith_foldBinary h).symm
      · rw [hop] at h
        cases h

/-! ### Failures -/

/-- An operator fails if its left operand does, or its right one where the left one leaves a choice. -/
theorem fails_binary {op : BinaryOp} (h : ∀ m, env.evalWith run scope l = .ok m →
    Expr.decided? op (.literal m) = none ∧ Fails (env.evalWith run scope r)) :
    Fails (env.evalWith run scope (.binary op l r)) := by
  cases hl : env.evalWith run scope l with
  | error err => exact ⟨err, by cases op <;> simp only [evalWith, hl, bind, Except.bind]⟩
  | ok m =>
    obtain ⟨hm, err, hr⟩ := h m hl
    refine ⟨err, ?_⟩
    cases op with
    | and =>
      have hne : m ≠ 0 := by
        rintro rfl
        cases hm
      simp only [evalWith, hl, hr, bind, Except.bind, if_neg hne]
    | or =>
      have heq : ¬ m ≠ 0 := by
        intro hne
        simp [Expr.decided?, hne] at hm
      simp only [evalWith, hl, hr, bind, Except.bind, if_neg heq]
    | _ => simp only [evalWith, hl, hr, bind, Except.bind]

theorem fails_call {name : String} {args : List Expr} (hne : args ≠ [])
    (h : Fails (env.evalAllWith run scope args)) : Fails (env.evalWith run scope (.call name args)) := by
  rw [evalWith]
  split
  · rw [if_neg (by simpa using hne)]
    exact ⟨_, rfl⟩
  · split
    · exact .bind h.elim
    · exact ⟨_, rfl⟩

mutual

/-- Evaluation fails where it comes to the constant that folding fails of. -/
theorem fails_of_fold : ∀ e : Expr, Fails (e.fold scope) → e.sheltered scope = false →
    Fails (env.evalWith run scope e)
  | .literal _, h, _ => (Fails.not_ok h).elim
  | .field _ _, h, _ => (Fails.not_ok h).elim
  | .var name, h, _ => by
    rw [Expr.fold] at h
    split at h
    · exact (Fails.not_ok h).elim
    · exact (Fails.not_ok h).elim
  | .index name indices, h, hs => by
    rw [Expr.fold] at h
    rw [Expr.sheltered] at hs
    rcases h.of_bind with h | ⟨_, -, h⟩
    · rw [evalWith]
      exact .bind (failsAll_of_fold indices h hs).elim
    · exact (Fails.not_ok h).elim
  | .call name args, h, hs => by
    rw [Expr.fold] at h
    rw [Expr.sheltered] at hs
    rcases h.of_bind with h | ⟨_, -, h⟩
    · refine fails_call ?_ (failsAll_of_fold args h hs)
      rintro rfl
      exact Fails.not_ok h
    · exact (Fails.not_ok h).elim
  | .unary op a, h, hs => by
    rw [Expr.fold] at h
    rw [Expr.sheltered] at hs
    rw [evalWith]
    rcases h.of_bind with h | ⟨a', ha, h⟩
    · exact .bind (fails_of_fold a h hs).elim
    · rcases Expr.foldUnary_cases op a' with ⟨m, rfl⟩ | hop
      · rw [evalWith_of_fold_literal a m ha]
        exact (Fails.of_bind h).resolve_right fun ⟨_, _, h⟩ => Fails.not_ok h
      · rw [hop] at h
        exact (Fails.not_ok h).elim
  | .binary op l r, h, hs => by
    rw [Expr.fold] at h
    rw [Expr.sheltered] at hs
    rcases h.of_bind with ⟨err, hl⟩ | ⟨l', hl, h⟩
    · rw [hl] at hs
      exact fails_binary (fails_of_fold l ⟨err, hl⟩ hs).elim
    · have hleft : ∀ k, l' = .literal k → env.evalWith run scope l = .ok k := by
        rintro k rfl
        exact evalWith_of_fold_literal l k hl
      split at h
      · exact (Fails.not_ok h).elim
      rename_i hopen
      rcases h.of_bind with ⟨err, hr⟩ | ⟨r', hr, h⟩
      · rw [hl, hr] at hs
        obtain ⟨hskips, hs⟩ := Bool.or_eq_false_iff.1 hs
        refine fails_binary fun m hm => ⟨?_, fails_of_fold r ⟨err, hr⟩ hs⟩
        exact Expr.decided?_of_skips hskips hopen fun k hk => by
          rw [hleft k hk] at hm
          exact Except.ok.inj hm
      · rcases Expr.foldBinary_cases op l' r' with ⟨a, b, rfl, rfl⟩ | hop
        · have hvalue : env.evalWith run scope (.binary op l r) = op.apply a b :=
            calc env.evalWith run scope (.binary op l r)
              = env.evalWith run scope (.binary op (.literal a) (.literal b)) :=
                evalWith_binary_congr op (hleft a rfl) (evalWith_of_fold_literal r b hr)
            _ = op.apply a b := evalWith_binary_literal op a b
          rw [hvalue]
          exact (Fails.of_bind h).resolve_right fun ⟨_, _, h⟩ => Fails.not_ok h
        · rw [hop] at h
          exact (Fails.not_ok h).elim

theorem failsAll_of_fold : ∀ es : List Expr, Fails (Expr.foldAll scope es) →
    Expr.shelteredAll scope es = false → Fails (env.evalAllWith run scope es)
  | [], h, _ => (Fails.not_ok h).elim
  | e :: es, h, hs => by
    rw [Expr.foldAll] at h
    rw [Expr.shelteredAll] at hs
    rw [evalAllWith]
    rcases h.of_bind with ⟨err, he⟩ | ⟨e', he, h⟩
    · rw [he] at hs
      exact .bind (fails_of_fold e ⟨err, he⟩ hs).elim
    · rw [he] at hs
      rcases h.of_bind with h | ⟨_, -, h⟩
      · exact .bind fun _ _ => .bind (failsAll_of_fold es h hs).elim
      · exact (Fails.not_ok h).elim

end

/-- If folding fails in no operand that evaluation may pass by, then evaluation fails, with whatever
definitions, variables, board and focus. -/
theorem eval_error_of_fold_error {err : EvalError} (h : e.fold scope = .error err)
    (hs : e.sheltered scope = false) (env : Env) : ∃ err', env.eval scope e = .error err' :=
  fails_of_fold e ⟨err, h⟩ hs

/-- With 0 for `k`, the left operand of `k == 0 && far(1 / k)` is constant and does not decide. -/
theorem eval_error_of_fold_error_ranged :
    (Expr.binary .and (.binary .eq (.var "k") (.literal 0))
      (.call "far" [.binary .div (.literal 1) (.var "k")])).fold [("k", 0)] = .error .divisionByZero ∧
    ∃ err, ranged.eval [("k", 0)] (.binary .and (.binary .eq (.var "k") (.literal 0))
      (.call "far" [.binary .div (.literal 1) (.var "k")])) = .error err :=
  ⟨rfl, eval_error_of_fold_error (e := .binary .and (.binary .eq (.var "k") (.literal 0))
    (.call "far" [.binary .div (.literal 1) (.var "k")])) rfl rfl ranged⟩

/-- Behind a name that is not in sight every failure of folding is premature: a variable of that name
may be 0. -/
theorem fold_and_eq_error {err : EvalError} {name : String} (hname : scope.lookup name = none)
    (hfree : name ∉ reservedNames) (h : r.fold scope = .error err) :
    (Expr.binary .and (.var name) r).fold scope = .error err ∧
    ∃ env : Env, env.eval scope (.binary .and (.var name) r) = .ok 0 := by
  constructor
  · simp only [Expr.fold, hname, h]
    rfl
  · refine ⟨{ definitions := {}, vars := [(name, .int 0)] }, ?_⟩
    have hnone : name ≠ "None" := by
      rintro rfl
      exact hfree (by decide)
    have hbuiltin : name ∉ builtinNames := by
      intro hmem
      have hsub : ∀ b ∈ builtinNames, b ∈ reservedNames := by decide
      exact hfree (hsub name hmem)
    simp [eval, evalWith, bareName, hname, hnone, hbuiltin, Definitions.pieceId?, SortedMap.find?,
      Value.asInt, bind, Except.bind, pure, Except.pure]

/-- So folding rejects `n && 1 / 0`, which is 0 where `n` is. -/
theorem not_eval_error_of_fold_error :
    (Expr.binary .and (.var "n") (.binary .div (.literal 1) (.literal 0))).fold [] =
      .error .divisionByZero ∧
    ({ definitions := {}, vars := [("n", .int 0)] } : Env).eval []
      (.binary .and (.var "n") (.binary .div (.literal 1) (.literal 0))) = .ok 0 ∧
    ¬ ∀ (e : Expr) (scope : Scope) (err : EvalError), e.fold scope = .error err →
      ∀ env : Env, ∃ err', env.eval scope e = .error err' := by
  have hfold : (Expr.binary .and (.var "n") (.binary .div (.literal 1) (.literal 0))).fold [] =
      .error .divisionByZero := rfl
  have hzero : ({ definitions := {}, vars := [("n", .int 0)] } : Env).eval []
      (.binary .and (.var "n") (.binary .div (.literal 1) (.literal 0))) = .ok 0 := rfl
  refine ⟨hfold, hzero, fun h => ?_⟩
  obtain ⟨err, herr⟩ := h _ _ _ hfold { definitions := {}, vars := [("n", .int 0)] }
  rw [hzero] at herr
  cases herr

end Env
end BoardGame
