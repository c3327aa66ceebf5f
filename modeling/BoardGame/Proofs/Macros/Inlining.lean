import BoardGame.Proofs.Checks.Heads
import BoardGame.Proofs.Folding
import BoardGame.Proofs.Macros.Nesting

/-!
# Inlining macros

A call of a macro resolves to what its body does with the values of the arguments put in the places of the
parameters (`Env.resolve_expand_eq_subst`). In the body the parameters are in sight of everything that
it refers to, so no predicate and no other macro may take one of them from there. `Sees σ scope scope'`: what
`scope` says of a name is what `σ` puts in its place, and else what `scope'` says of it.
-/

namespace BoardGame
open Relation

/-! ### Putting values in the places of names -/

mutual

/-- Puts values in the places of bare names. -/
def Expr.subst (σ : String → Option Int) : Expr → Expr
  | .literal n => .literal n
  | .var name => ((σ name).map Expr.literal).getD (.var name)
  | .field name key => .field name key
  | .index name indices => .index name (Expr.substAll σ indices)
  | .binary op left right => .binary op (left.subst σ) (right.subst σ)
  | .unary op operand => .unary op (operand.subst σ)
  | .call name args => .call name (Expr.substAll σ args)

def Expr.substAll (σ : String → Option Int) : List Expr → List Expr
  | [] => []
  | e :: es => e.subst σ :: Expr.substAll σ es

end

def Call.subst (σ : String → Option Int) (c : Call) : Call := ⟨c.name, Expr.substAll σ c.args⟩

/-- A bare condition is left as it is. -/
def Condition.subst (σ : String → Option Int) : Condition → Condition
  | .named name => .named name
  | .call c => .call (c.subst σ)

def Letter.subst (σ : String → Option Int) (l : Letter) : Letter :=
  ⟨l.dx.subst σ, l.dy.subst σ, l.condition.subst σ, l.effect.map (Call.subst σ)⟩

/-- Puts values in the places of bare names in offsets and in the arguments of conditions, effects and
macros. -/
def Movement.subst (σ : String → Option Int) (m : Movement) : Movement :=
  m.map (Letter.subst σ) (Call.subst σ)

/-- The names that a letter looks up: those that stand bare in its expressions, and a bare condition. -/
def Letter.bareNames (l : Letter) : List String :=
  l.dx.bareNames ++ l.dy.bareNames ++ l.condition.toExpr.bareNames ++
    Expr.bareNamesAll ((l.effect.map (·.args)).getD [])

def Movement.bareNames (m : Movement) : List String :=
  m.letters.flatMap Letter.bareNames ++ m.expansions.flatMap fun c => Expr.bareNamesAll c.args

theorem Movement.mem_bareNames_of_letter {m : Movement} {l : Letter} {x : String} (hl : l ∈ m.letters)
    (hx : x ∈ l.bareNames) : x ∈ m.bareNames :=
  List.mem_append_left _ (List.mem_flatMap.2 ⟨l, hl, hx⟩)

theorem Movement.mem_bareNames_of_call {m : Movement} {c : Call} {x : String} (hc : c ∈ m.expansions)
    (hx : x ∈ Expr.bareNamesAll c.args) : x ∈ m.bareNames :=
  List.mem_append_right _ (List.mem_flatMap.2 ⟨c, hc, hx⟩)

mutual

theorem Expr.subst_none : ∀ e : Expr, e.subst (fun _ => none) = e
  | .literal _ | .var _ | .field _ _ => rfl
  | .index _ indices => by rw [subst, substAll_none indices]
  | .binary _ l r => by rw [subst, subst_none l, subst_none r]
  | .unary _ a => by rw [subst, subst_none a]
  | .call _ args => by rw [subst, substAll_none args]

theorem Expr.substAll_none : ∀ es : List Expr, Expr.substAll (fun _ => none) es = es
  | [] => rfl
  | e :: es => by rw [substAll, subst_none e, substAll_none es]

end

theorem Expr.length_substAll (σ : String → Option Int) (es : List Expr) :
    (Expr.substAll σ es).length = es.length := by
  induction es with
  | nil => rfl
  | cons e es ih => rw [substAll, List.length_cons, List.length_cons, ih]

theorem Letter.subst_none (l : Letter) : l.subst (fun _ => none) = l := by
  obtain ⟨dx, dy, condition, effect⟩ := l
  have hcall : ∀ c : Call, c.subst (fun _ => none) = c := fun c => by rw [Call.subst, Expr.substAll_none]
  have hcondition : condition.subst (fun _ => none) = condition := by
    cases condition with
    | named name => rfl
    | call c => rw [Condition.subst, hcall]
  have heffect : effect.map (Call.subst fun _ => none) = effect := by
    cases effect with
    | none => rfl
    | some c => rw [Option.map_some, hcall]
  rw [subst, hcondition, heffect, Expr.subst_none, Expr.subst_none]

/-! ### What is in sight -/

/-- What `scope` says of `x` is what `σ` puts in its place, and else what `scope'` says. -/
def Sees (σ : String → Option Int) (scope scope' : Scope) (x : String) : Prop :=
  scope.lookup x = (σ x).or (scope'.lookup x)

section
variable {σ : String → Option Int} {scope scope' : Scope}

mutual

/-- An expression folds to the same with the values in sight and with the values put in. -/
theorem Expr.fold_subst : ∀ e : Expr, (∀ x ∈ e.bareNames, Sees σ scope scope' x) →
    e.fold scope = (e.subst σ).fold scope'
  | .literal _, _ | .field _ _, _ => rfl
  | .var name, h => by
    have hname : scope.lookup name = (σ name).or (scope'.lookup name) :=
      h name (List.mem_singleton_self name)
    rw [subst]
    cases hσ : σ name with
    | some n =>
      rw [hσ, Option.some_or] at hname
      rw [fold, hname]
      rfl
    | none =>
      rw [hσ, Option.none_or] at hname
      rw [fold, hname]
      rfl
  | .index _ indices, h => by
    simp only [fold, subst, foldAll_subst indices h]
  | .binary op l r, h => by
    simp only [fold, subst, fold_subst l fun x hx => h x (List.mem_append_left _ hx),
      fold_subst r fun x hx => h x (List.mem_append_right _ hx)]
  | .unary op a, h => by
    simp only [fold, subst, fold_subst a h]
  | .call _ args, h => by
    simp only [fold, subst, foldAll_subst args h]

theorem Expr.foldAll_subst : ∀ es : List Expr, (∀ x ∈ Expr.bareNamesAll es, Sees σ scope scope' x) →
    Expr.foldAll scope es = Expr.foldAll scope' (Expr.substAll σ es)
  | [], _ => rfl
  | e :: es, h => by
    simp only [foldAll, substAll, fold_subst e fun x hx => h x (List.mem_append_left _ hx),
      foldAll_subst es fun x hx => h x (List.mem_append_right _ hx)]

end

namespace Env
variable {env : Env} {run : Invoke}

mutual

/-- An expression has the same value with the values in sight and with the values put in. -/
theorem evalWith_subst (hrun : env.SameCalls run scope scope') : ∀ e : Expr,
    (∀ x ∈ e.bareNames, Sees σ scope scope' x) →
    env.evalWith run scope e = env.evalWith run scope' (e.subst σ)
  | .literal _, _ | .field _ _, _ => rfl
  | .var name, h => by
    have hname : scope.lookup name = (σ name).or (scope'.lookup name) :=
      h name (List.mem_singleton_self name)
    rw [Expr.subst]
    cases hσ : σ name with
    | some n =>
      rw [hσ, Option.some_or] at hname
      rw [evalWith, bareName, hname]
      rfl
    | none =>
      rw [hσ, Option.none_or] at hname
      exact bareName_congr hrun hname
  | .index _ indices, h => by
    simp only [evalWith, Expr.subst, evalAllWith_subst hrun indices h]
  | .binary op l r, h =>
    evalWith_binary_congr op (evalWith_subst hrun l fun x hx => h x (List.mem_append_left _ hx))
      (evalWith_subst hrun r fun x hx => h x (List.mem_append_right _ hx))
  | .unary op a, h => by
    simp only [evalWith, Expr.subst, evalWith_subst hrun a h]
  | .call name args, h =>
    evalWith_call_congr hrun name (Expr.length_substAll σ args).symm (evalAllWith_subst hrun args h)

theorem evalAllWith_subst (hrun : env.SameCalls run scope scope') : ∀ es : List Expr,
    (∀ x ∈ Expr.bareNamesAll es, Sees σ scope scope' x) →
    env.evalAllWith run scope es = env.evalAllWith run scope' (Expr.substAll σ es)
  | [], _ => rfl
  | e :: es, h => by
    simp only [evalAllWith, Expr.substAll,
      evalWith_subst hrun e fun x hx => h x (List.mem_append_left _ hx),
      evalAllWith_subst hrun es fun x hx => h x (List.mem_append_right _ hx)]

end

theorem step_subst (hrun : env.SameCalls env.invoke scope scope') {l : Letter}
    (hnames : ∀ x ∈ l.bareNames, Sees σ scope scope' x)
    (hbare : ∀ x ∈ l.condition.bareName?, σ x = none) :
    env.step scope l = env.step scope' (l.subst σ) := by
  obtain ⟨dx, dy, condition, effect⟩ := l
  have hx : env.eval scope dx = env.eval scope' (dx.subst σ) :=
    evalWith_subst hrun dx fun x hx => hnames x (by simp [Letter.bareNames, hx])
  have hy : env.eval scope dy = env.eval scope' (dy.subst σ) :=
    evalWith_subst hrun dy fun x hx => hnames x (by simp [Letter.bareNames, hx])
  have htoExpr : (condition.subst σ).toExpr = condition.toExpr.subst σ := by
    cases condition with
    | named name =>
      have hname : σ name = none := hbare name rfl
      simp only [Condition.subst, Condition.toExpr, Expr.subst, hname, Option.map_none, Option.getD_none]
    | call c => rfl
  have hcondition : condition.toExpr.fold scope = (condition.subst σ).toExpr.fold scope' := by
    rw [htoExpr]
    exact Expr.fold_subst _ fun x hx => hnames x (by simp [Letter.bareNames, hx])
  cases effect with
  | none => simp only [step, Letter.subst, hx, hy, hcondition, Option.map_none]
  | some c =>
    have hcall : c.fold scope = (c.subst σ).fold scope' := by
      simp only [Call.fold, Call.subst,
        Expr.foldAll_subst c.args fun x hx => hnames x (by simp [Letter.bareNames, hx])]
    simp only [step, Letter.subst, hx, hy, hcondition, Option.map_some, hcall]

theorem step_congr (hrun : env.SameCalls env.invoke scope scope') {l : Letter}
    (hnames : ∀ x ∈ l.bareNames, scope.lookup x = scope'.lookup x) :
    env.step scope l = env.step scope' l := by
  have hstep : env.step scope l = env.step scope' (l.subst fun _ => none) :=
    step_subst hrun hnames fun _ _ => rfl
  rwa [Letter.subst_none] at hstep

end Env
end

/-! ### Scopes that differ in some names -/

/-- Both scopes say the same of every other name. -/
def AgreeOff (names : List String) (scope scope' : Scope) : Prop :=
  ∀ x ∉ names, scope.lookup x = scope'.lookup x

/-- Of these names, the bodies of predicates mention only their own parameters. -/
def Definitions.PredicatesOwn (d : Definitions) (names : List String) : Prop :=
  ∀ callee p, d.predicate? callee = some p → ∀ x ∈ p.body.bareNames, x ∈ names → x ∈ p.params

/-- Of these names, the body of the macro mentions only its own parameters. -/
def MoveMacro.Owns (m : MoveMacro) (names : List String) : Prop :=
  ∀ x ∈ m.body.bareNames, x ∈ names → x ∈ m.params

section
variable {env : Env} {scope scope' : Scope} {names params : List String} {vs : List Int}

namespace AgreeOff

theorem bind (h : AgreeOff names scope scope') (hlen : params.length = vs.length) :
    AgreeOff names (Scope.bind params vs scope) (Scope.bind params vs scope') :=
  fun x hx => Env.lookup_bind_congr hlen fun _ => h x hx

theorem lookup_bind (h : AgreeOff names scope scope') (hlen : params.length = vs.length) {x : String}
    (hx : x ∈ names → x ∈ params) :
    List.lookup x (Scope.bind params vs scope) = List.lookup x (Scope.bind params vs scope') :=
  Env.lookup_bind_congr hlen fun hnot => h x (mt hx hnot)

theorem sameCalls (h : AgreeOff names scope scope')
    (hpredicates : env.definitions.PredicatesOwn names) : env.SameCalls env.invoke scope scope' :=
  Env.invokeWithin_congr env.callDepth fun callee p hp x hx hnot =>
    h x fun hmem => hnot (hpredicates callee p hp x hx hmem)

end AgreeOff

namespace Env

/-- A call expands to the same in two scopes if all that they differ in are parameters of what it leads
to. -/
theorem expandWithin_congr (hpredicates : env.definitions.PredicatesOwn names) (depth : Nat)
    {c c' : Call} (hagree : AgreeOff names scope scope')
    (hmacros : ∀ callee m, ReflTransGen env.definitions.Expands c.name callee →
      env.definitions.moveMacro? callee = some m → m.Owns names)
    (hname : c'.name = c.name) (hlen : c'.args.length = c.args.length)
    (hargs : env.evalAll scope c.args = env.evalAll scope' c'.args) :
    env.expandWithin depth scope c = env.expandWithin depth scope' c' := by
  induction depth generalizing scope scope' c c' with
  | zero => simp only [expandWithin, hname]
  | succ depth ih =>
    simp only [expandWithin, hname, hlen, hargs]
    cases hm : env.definitions.moveMacro? c.name with
    | none => rfl
    | some m =>
      dsimp only
      split
      · rename_i hcount
        cases hvs : env.evalAll scope' c'.args with
        | error e => rfl
        | ok vs =>
          have hcount' : m.params.length = vs.length := by
            rw [hcount, ← hlen, length_of_evalAllWith hvs]
          have hinner := hagree.bind hcount'
          have hrun := hinner.sameCalls hpredicates
          -- where the body mentions one of the names, its own parameter hides the difference
          have hbody : ∀ x ∈ m.body.bareNames, List.lookup x (Scope.bind m.params vs scope) =
              List.lookup x (Scope.bind m.params vs scope') := fun x hx =>
            hagree.lookup_bind hcount' (hmacros c.name m .refl hm x hx)
          refine resolveWith_congr (fun l hl => step_congr hrun fun x hx =>
            hbody x (Movement.mem_bareNames_of_letter hl hx)) fun c'' hc => ?_
          have hreached : ∀ callee m', ReflTransGen env.definitions.Expands c''.name callee →
              env.definitions.moveMacro? callee = some m' → m'.Owns names :=
            fun callee m' hreach => hmacros callee m' (.head ⟨m, hm, c'', hc, rfl⟩ hreach)
          exact ih hinner hreached rfl rfl (evalAllWith_congr hrun c''.args fun x hx =>
            hbody x (Movement.mem_bareNames_of_call hc hx))
      · rfl

/-! ### Inlining -/

theorem lookup_zip_of_notMem {x : String} (hx : x ∉ params) : (params.zip vs).lookup x = none := by
  refine List.lookup_eq_none_iff.2 fun pair hpair => ?_
  have hne : x ≠ pair.1 := fun h => hx (h ▸ (List.of_mem_zip hpair).1)
  simpa using hne

/-- Distinct parameters say in a scope what they say as a table. -/
theorem sees_bind (hnodup : params.Nodup) (hlen : params.length = vs.length) (scope : Scope)
    (x : String) : Sees (fun x => (params.zip vs).lookup x) (Scope.bind params vs scope) scope x := by
  have hkeys : ((params.zip vs).map Prod.fst).Nodup := by
    rwa [List.map_fst_zip (by omega)]
  have hkeys' : ((params.zip vs).reverse.map Prod.fst).Nodup := by
    rwa [List.map_reverse, List.nodup_reverse]
  have hreverse : (params.zip vs).reverse.lookup x = (params.zip vs).lookup x := by
    refine Option.ext fun n => ?_
    rw [lookup_eq_some_iff_mem hkeys', lookup_eq_some_iff_mem hkeys, List.mem_reverse]
  rw [Sees, Scope.bind, List.lookup_append, hreverse]

theorem agreeOff_bind (hnodup : params.Nodup) (hlen : params.length = vs.length) (scope : Scope) :
    AgreeOff params (Scope.bind params vs scope) scope := fun x hx => by
  have hsees := sees_bind hnodup hlen scope x
  rwa [Sees, lookup_zip_of_notMem hx, Option.none_or] at hsees

end Env
end

/-- The macro is found under the name, its parameters are distinct and none of them is a bare condition in
its body, and nothing else that is declared takes one of them from where it is called. -/
structure Definitions.Inlinable (d : Definitions) (name : String) (m : MoveMacro) : Prop where
  found : d.moveMacro? name = some m
  params_nodup : m.params.Nodup
  conditions : ∀ l ∈ m.body.letters, ∀ x ∈ l.condition.bareName?, x ∉ m.params
  predicates : d.PredicatesOwn m.params
  macros : ∀ callee other, callee ≠ name → d.moveMacro? callee = some other → other.Owns m.params

namespace Env
variable {env : Env} {scope : Scope} {name : String} {m : MoveMacro} {args : List Expr} {vs : List Int}

/-- The body of a macro that does not call itself resolves to the same with the values in sight and with
the values put in. -/
theorem resolveWith_body_subst (hd : env.definitions.MacrosNest)
    (h : env.definitions.Inlinable name m) (hlen : m.params.length = vs.length) (depth : Nat) :
    env.resolveWith (env.expandWithin depth) (Scope.bind m.params vs scope) m.body =
      env.resolveWith (env.expandWithin depth) scope
        (m.body.subst fun x => (m.params.zip vs).lookup x) := by
  have hsees := sees_bind h.params_nodup hlen scope
  have hagree := agreeOff_bind h.params_nodup hlen scope
  have hrun := hagree.sameCalls h.predicates
  refine resolveWith_map (fun l hl => ?_) fun c hc => ?_
  · exact step_subst hrun (fun x _ => hsees x) fun x hx =>
      lookup_zip_of_notMem (h.conditions l hl x hx)
  · -- the macro is not among those that its own body leads to
    have hother : ∀ callee, ReflTransGen env.definitions.Expands c.name callee → callee ≠ name := by
      rintro callee hreach rfl
      exact hd callee (.head' ⟨m, h.found, c, hc, rfl⟩ hreach)
    exact expandWithin_congr h.predicates depth hagree
      (fun callee m' hreach hm' => h.macros callee m' (hother callee hreach) hm') rfl
      (Expr.length_substAll _ c.args) (evalAllWith_subst hrun c.args fun x _ => hsees x)

/-- Where no macro calls itself, a call of a macro resolves to the same pattern, or fails the same way, as
its body with the values of the arguments in the places of the parameters. -/
theorem resolve_expand_eq_subst (hd : env.definitions.MacrosNest)
    (h : env.definitions.Inlinable name m) (hlen : m.params.length = args.length)
    (hargs : env.evalAll scope args = .ok vs) :
    env.resolve scope (.expand ⟨name, args⟩) =
      env.resolve scope (m.body.subst fun x => (m.params.zip vs).lookup x) := by
  have hcount : m.params.length = vs.length := by rw [hlen, length_of_evalAllWith hargs]
  obtain ⟨depth, hdepth, hmacros⟩ :
      ∃ depth, env.expansionDepth = depth + 1 ∧ env.definitions.macros.length < depth :=
    ⟨nestingLimit - 1 + env.definitions.macros.length, by unfold expansionDepth nestingLimit; omega,
      by unfold nestingLimit; omega⟩
  calc env.resolve scope (.expand ⟨name, args⟩)
      = env.expandWithin (depth + 1) scope ⟨name, args⟩ := by rw [resolve, hdepth, resolveWith]
    _ = env.resolveWith (env.expandWithin depth) (Scope.bind m.params vs scope) m.body := by
      simp only [expandWithin, h.found, hlen, hargs, if_true]
      rfl
    _ = env.resolveWith (env.expandWithin (depth + 1)) (Scope.bind m.params vs scope) m.body := by
      refine resolveWith_congr (fun _ _ => rfl) fun c hc => ?_
      have hc := env.definitions.macrosReached_le c.name
      exact expandWithin_eq_of_le hd (by omega) (Nat.le_succ depth)
    _ = env.resolveWith (env.expandWithin (depth + 1)) scope
        (m.body.subst fun x => (m.params.zip vs).lookup x) :=
      resolveWith_body_subst hd h hcount (depth + 1)
    _ = env.resolve scope (m.body.subst fun x => (m.params.zip vs).lookup x) := by
      rw [resolve, hdepth]

end Env

/-- `Slide(d)` repeats `Step(d, d * 2)`, whose condition has a parameter that is called `d`, too. -/
def diagonals : Env where
  definitions := {
    macros := [
      ⟨"Step", ["dx", "dy"], .letter ⟨.var "dx", .var "dy", .call ⟨"far", [.var "dx"]⟩, none⟩⟩,
      ⟨"Slide", ["d"], .star (.expand ⟨"Step", [.var "d", .binary .mul (.var "d") (.literal 2)]⟩)⟩]
    predicates := [⟨"far", ["d"], .binary .gt (.var "d") (.literal 1)⟩] }
  vars := []

theorem diagonals_expands {a b : String} (h : diagonals.definitions.Expands a b) : a = "Slide" ∧ b = "Step" := by
  obtain ⟨m, hm, c, hc, rfl⟩ := h
  have hmem := List.mem_of_find?_eq_some hm
  obtain rfl := Definitions.name_of_moveMacro? hm
  simp only [diagonals, List.mem_cons, List.not_mem_nil, or_false] at hmem
  rcases hmem with rfl | rfl
  · cases hc
  · obtain rfl := List.mem_singleton.1 hc
    exact ⟨rfl, rfl⟩

theorem macrosNest_diagonals : diagonals.definitions.MacrosNest := by
  intro name h
  obtain ⟨c, hhead, -⟩ := TransGen.head'_iff.1 h
  obtain ⟨b, -, htail⟩ := TransGen.tail'_iff.1 h
  have heq : "Slide" = "Step" := (diagonals_expands hhead).1.symm.trans (diagonals_expands htail).2
  exact absurd heq (by decide)

theorem Env.resolve_expand_eq_subst_diagonals : diagonals.definitions.MacrosNest ∧
    diagonals.resolve [] (.expand ⟨"Slide", [.binary .add (.literal 1) (.literal 1)]⟩) =
      diagonals.resolve [] (.star (.expand ⟨"Step", [.literal 2, .binary .mul (.literal 2) (.literal 2)]⟩)) ∧
    diagonals.resolve [] (.star (.expand ⟨"Step", [.literal 2, .binary .mul (.literal 2) (.literal 2)]⟩)) =
      .ok (.star (.step ⟨2, 4, .call "far" [.literal 2], none⟩)) := by
  have hinlinable : diagonals.definitions.Inlinable "Slide" ⟨"Slide", ["d"], .star (.expand ⟨"Step",
      [.var "d", .binary .mul (.var "d") (.literal 2)]⟩)⟩ := {
    found := rfl
    params_nodup := by decide
    conditions := fun l hl => absurd hl List.not_mem_nil
    predicates := fun callee p hp x _ hmem => by
      obtain rfl := List.mem_singleton.1 (List.mem_of_find?_eq_some hp)
      exact hmem
    macros := fun callee other hne hother x hx hmem => by
      obtain rfl := Definitions.name_of_moveMacro? hother
      rcases List.mem_cons.1 (List.mem_of_find?_eq_some hother) with rfl | hother
      · obtain rfl := List.mem_singleton.1 hmem
        exact absurd hx (by decide)
      · obtain rfl := List.mem_singleton.1 hother
        exact absurd rfl hne }
  have hargs : diagonals.evalAll [] [.binary .add (.literal 1) (.literal 1)] = .ok [2] := rfl
  exact ⟨macrosNest_diagonals, Env.resolve_expand_eq_subst macrosNest_diagonals hinlinable rfl hargs, rfl⟩

end BoardGame
