import BoardGame.Effect
import BoardGame.Proofs.Folding
import BoardGame.Proofs.References.Definitions

/-!
# References of expressions

`Clean counted r`: the result `r` is no failure of a reference. An expression fits a program
(`Expr.Fits`) if what it refers to is declared for this use, and a program is fitting if its expressions
fit. Those of a fitting program are clean where what they take for bound is bound (`Fits.clean_eval`), and
so are its effects (`World.clean_perform`).

The checks are about calls. With `counted` a wrong number of arguments is a failure of a reference, too,
and then the bare names in expressions, which may mean a predicate, must fit as well.
-/

namespace BoardGame

/-! ### Failures of references -/

/-- A name is used that is not declared for this use, or, if `counted`, one that is declared with
another number of parameters. -/
def EvalError.Misrefers (counted : Bool) : EvalError → Prop
  | .undefined _ _ | .notAnExpression _ _ => True
  | .arity _ _ _ => counted = true
  | _ => False

/-- The result is no failure of a reference. -/
def Clean {α : Type} (counted : Bool) (r : Except EvalError α) : Prop :=
  ∀ e, r = .error e → ¬ e.Misrefers counted

section
variable {α β : Type} {counted : Bool}

@[simp] theorem clean_ok (a : α) : Clean counted (.ok a) := fun _ h => by cases h

@[simp] theorem clean_error_iff {e : EvalError} :
    Clean counted (.error e : Except EvalError α) ↔ ¬ e.Misrefers counted :=
  ⟨fun h => h e rfl, fun h _ he => Except.error.inj he ▸ h⟩

theorem Clean.bind {x : Except EvalError α} {f : α → Except EvalError β} (hx : Clean counted x)
    (hf : ∀ a, x = .ok a → Clean counted (f a)) : Clean counted (x >>= f) := by
  cases hxe : x with
  | error e => exact clean_error_iff.2 (hx e hxe)
  | ok a => exact hf a hxe

/-! ### Operations that refer to nothing -/

theorem clean_checkInt64 (n : Int) : Clean counted (checkInt64 n) := by
  unfold checkInt64
  split <;> simp [EvalError.Misrefers]

theorem clean_divided (l r n : Int) : Clean counted (divided l r n) := by
  unfold divided
  repeat' split
  all_goals simp [EvalError.Misrefers]

theorem BinaryOp.clean_apply (op : BinaryOp) (l r : Int) : Clean counted (op.apply l r) := by
  cases op <;> simp only [apply, clean_ok, clean_checkInt64, clean_divided]

theorem UnaryOp.clean_apply (op : UnaryOp) (n : Int) : Clean counted (op.apply n) := by
  cases op <;> simp only [apply, clean_ok, clean_checkInt64]

theorem Board.clean_get (b : Board) (t : Tile) : Clean counted (b.get t) := by
  unfold get
  split <;> simp [EvalError.Misrefers]

theorem Board.clean_set (b : Board) (t : Tile) (p : Option PieceId) : Clean counted (b.set t p) := by
  unfold set
  split <;> simp [EvalError.Misrefers]

theorem Value.clean_asInt (name : String) (v : Value) : Clean counted (v.asInt name) := by
  cases v <;> simp [asInt, EvalError.Misrefers]

theorem Value.clean_read (name : String) (v : Value) (path : List Int) :
    Clean counted (v.read name path) := by
  fun_induction Value.read name v path with
  | case1 => exact clean_ok _
  | case2 => simp [EvalError.Misrefers]
  | case3 => simp [EvalError.Misrefers]
  | case4 => assumption

theorem Value.clean_store (name : String) (v : Value) (path : List Int) (n : Int) :
    Clean counted (v.store name path n) := by
  induction path generalizing v with
  | nil => cases v <;> exact clean_ok _
  | cons k path ih =>
    cases v with
    | int _ => simp [store, EvalError.Misrefers]
    | map es => exact (ih _).bind fun _ _ => clean_ok _

theorem Definitions.clean_pieceOfCode (d : Definitions) (code : Int) :
    Clean counted (d.pieceOfCode code) := by
  unfold pieceOfCode
  repeat' split
  all_goals simp [EvalError.Misrefers]

namespace Env
variable {env : Env}

theorem clean_here (name : String) : Clean counted (env.here name) := by
  unfold here
  split
  · simp [EvalError.Misrefers]
  · simp [EvalError.Misrefers]
  · simp [EvalError.Misrefers]
  · exact (Board.clean_get _ _).bind fun _ _ => clean_ok _

theorem clean_builtin (name : String) : Clean counted (env.builtin name) := by
  unfold builtin
  split
  · exact (clean_here _).bind fun _ _ => clean_ok _
  · exact (clean_here _).bind fun _ _ => clean_ok _
  · exact clean_ok _

theorem clean_field (name key : String) : Clean counted (env.field name key) := by
  unfold field
  split
  · cases env.focus.tile <;> simp [EvalError.Misrefers]
  · cases env.focus.tile <;> simp [EvalError.Misrefers]
  · cases env.focus.player <;> simp [EvalError.Misrefers]
  · simp [EvalError.Misrefers]

theorem clean_indexed (name : String) (indices : List Int) :
    Clean counted (env.indexed name indices) := by
  unfold indexed
  split
  · split
    · exact (Board.clean_get _ _).bind fun _ _ => clean_ok _
    · simp [EvalError.Misrefers]
    · simp [EvalError.Misrefers]
  · split
    · simp [EvalError.Misrefers]
    · exact (Value.clean_read _ _ _).bind fun _ _ => Value.clean_asInt _ _

end Env
end

/-! ### Expressions that fit a program -/

/-- The calls in an expression have declarations, and if `counted` no bare name in it that is not bound
means a predicate with parameters. -/
structure Expr.Fits (p : Program) (counted : Bool) (bound : List String) (e : Expr) : Prop where
  calls : ∀ c ∈ e.calls, p.Callable c
  names : counted = true → ∀ x ∈ e.bareNames, x ∉ bound → ∀ n, p.Takes .predicate x n → n = 0

/-- The names that are bound wherever the expressions of a declaration are evaluated: its parameters,
and the variables unless the first value of one may depend on it. -/
def Declaration.bound (vars : List String) : Declaration → List String
  | .predicate q => q.params
  | .var _ => []
  | d => d.params ++ vars

/-- A well-formed program with expressions that fit. -/
structure Program.Fitting (p : Program) (counted : Bool) : Prop where
  wellFormed : p.WellFormed
  exprs : ∀ d ∈ p.declarations, ∀ e ∈ d.value.exprs,
    e.Fits p counted (d.value.bound (p.declared .var))

/-- A name is bound: it stands for an argument or a variable. -/
def Env.Binds (env : Env) (scope : Scope) (x : String) : Prop :=
  (scope.lookup x).isSome ∨ (SortedMap.find? x env.vars).isSome

variable {p : Program} {counted : Bool} {bound : List String} {e : Expr} {es : List Expr}
  {scope : Scope}

theorem Program.WellFormed.not_takes_builtin (hp : p.WellFormed) {name : String}
    (hname : name ∈ builtinNames) (n : Nat) : ¬ p.Takes .predicate name n := by
  intro h
  have hfree := (hp.predicates_free name (h.mem_declared .predicate (by simp) (by simp))).1
  exact hfree (by simp only [builtinNames, reservedNames, List.mem_cons, List.not_mem_nil] at *; tauto)

namespace Program.Fitting

theorem body (hp : p.Fitting counted) {q : Predicate} (hq : q ∈ p.predicates) :
    q.body.Fits p counted q.params := by
  obtain ⟨d, hd, hv⟩ := exists_of_mem_predicates hq
  have h := hp.exprs d hd q.body (by simp [hv, Declaration.exprs])
  rwa [hv] at h

theorem assignment (hp : p.Fitting counted) {f : Effect} (hf : f ∈ p.effects) {a : Assignment}
    (ha : a ∈ f.assignments) (he : e ∈ a.indices ++ [a.value]) :
    e.Fits p counted (f.params ++ p.declared .var) := by
  obtain ⟨d, hd, hv⟩ := exists_of_mem_effects hf
  have hmem : e ∈ d.value.exprs := by
    rw [hv]
    exact List.mem_flatMap.2 ⟨a, ha, he⟩
  have h := hp.exprs d hd e hmem
  rwa [hv] at h

theorem variableDecl (hp : p.Fitting counted) {v : VariableDecl} (h : v ∈ p.variableDecls) :
    v.value.Fits p counted [] := by
  obtain ⟨d, hd, hv⟩ := exists_of_mem_variableDecls h
  have h := hp.exprs d hd v.value (by simp [hv, Declaration.exprs])
  rwa [hv] at h

theorem victory (hp : p.Fitting counted) {v : Victory} (h : v ∈ p.victories) :
    v.condition.Fits p counted (p.declared .var) := by
  obtain ⟨d, hd, hv⟩ := exists_of_mem_victories h
  have h := hp.exprs d hd v.condition (by simp [hv, Declaration.exprs])
  rwa [hv] at h

end Program.Fitting

namespace Env
variable {env : Env} {run : Invoke}

/-- What `run` makes of a predicate is clean, if it has as many arguments as it takes. -/
def CleanCalls (env : Env) (counted : Bool) (run : Invoke) : Prop :=
  ∀ x q args scope, env.definitions.predicate? x = some q →
    (counted = true → q.params.length = args.length) → Clean counted (run q args scope)

theorem clean_bareName (hd : p.Defines env.definitions) (hrun : env.CleanCalls counted run)
    {x : String} (hx : counted = true → ¬ env.Binds scope x → ∀ n, p.Takes .predicate x n → n = 0) :
    Clean counted (env.bareName run scope x) := by
  unfold bareName
  split
  · exact clean_ok _
  rename_i hscope
  split
  · exact clean_ok _
  split
  · exact clean_builtin _
  split
  · exact (clean_here _).bind fun _ _ => clean_ok _
  split
  · exact Value.clean_asInt _ _
  rename_i hvars
  split
  · rename_i q hq
    refine hrun x q [] scope hq fun hcounted => ?_
    obtain ⟨hmem, hname⟩ := hd.mem_predicates hq
    exact hx hcounted (by simp [Binds, hscope, hvars]) _
      (Program.takes_predicate_iff.2 ⟨q, hmem, hname, rfl⟩)
  · simp [EvalError.Misrefers]

theorem clean_call (hp : p.Fitting counted) (hd : p.Defines env.definitions)
    (hrun : env.CleanCalls counted run) {name : String} (hc : p.Callable ⟨name, es⟩)
    (hes : Clean counted (env.evalAllWith run scope es)) :
    Clean counted (env.evalWith run scope (.call name es)) := by
  rw [evalWith]
  split
  · rename_i hbuiltin
    rcases hc with ⟨-, hnil⟩ | htakes
    · obtain rfl : es = [] := hnil
      exact clean_builtin _
    · exact absurd htakes (hp.wellFormed.not_takes_builtin hbuiltin _)
  · rename_i hbuiltin
    rcases hc with ⟨hname, -⟩ | htakes
    · exact absurd hname hbuiltin
    obtain ⟨q, -, hq, hlen⟩ := hd.exists_predicate hp.wellFormed htakes
    rw [hq]
    exact hes.bind fun args hargs => hrun name q args scope hq fun _ => by
      rw [length_of_evalAllWith hargs]
      exact hlen

mutual

theorem clean_evalWith (hp : p.Fitting counted) (hd : p.Defines env.definitions)
    (hrun : env.CleanCalls counted run) : ∀ e : Expr, (∀ c ∈ e.calls, p.Callable c) →
    (counted = true → ∀ x ∈ e.bareNames, ¬ env.Binds scope x → ∀ n, p.Takes .predicate x n → n = 0) →
    Clean counted (env.evalWith run scope e)
  | .literal _, _, _ => clean_ok _
  | .field _ _, _, _ => clean_field _ _
  | .var x, _, hn => clean_bareName hd hrun fun hcounted => hn hcounted x (List.mem_singleton_self x)
  | .index _ indices, hc, hn =>
    (clean_evalAllWith hp hd hrun indices hc hn).bind fun _ _ => clean_indexed _ _
  | .unary op a, hc, hn => (clean_evalWith hp hd hrun a hc hn).bind fun _ _ => op.clean_apply _
  | .binary op l r, hc, hn => by
    have hl := clean_evalWith hp hd hrun l (fun c h => hc c (List.mem_append_left _ h))
      fun hcounted x hx => hn hcounted x (List.mem_append_left _ hx)
    have hr := clean_evalWith hp hd hrun r (fun c h => hc c (List.mem_append_right _ h))
      fun hcounted x hx => hn hcounted x (List.mem_append_right _ hx)
    cases op with
    | and | or =>
      refine hl.bind fun _ _ => ?_
      split
      · exact clean_ok _
      · exact hr.bind fun _ _ => clean_ok _
    | _ => exact hl.bind fun _ _ => hr.bind fun _ _ => BinaryOp.clean_apply _ _ _
  | .call _ args, hc, hn => clean_call hp hd hrun (hc _ (List.mem_cons_self ..))
    (clean_evalAllWith hp hd hrun args (fun c h => hc c (List.mem_cons_of_mem _ h)) hn)

theorem clean_evalAllWith (hp : p.Fitting counted) (hd : p.Defines env.definitions)
    (hrun : env.CleanCalls counted run) : ∀ es : List Expr, (∀ c ∈ Expr.callsAll es, p.Callable c) →
    (counted = true → ∀ x ∈ Expr.bareNamesAll es, ¬ env.Binds scope x →
      ∀ n, p.Takes .predicate x n → n = 0) →
    Clean counted (env.evalAllWith run scope es)
  | [], _, _ => clean_ok _
  | e :: es, hc, hn =>
    (clean_evalWith hp hd hrun e (fun c h => hc c (List.mem_append_left _ h))
      fun hcounted x hx => hn hcounted x (List.mem_append_left _ hx)).bind fun _ _ =>
    (clean_evalAllWith hp hd hrun es (fun c h => hc c (List.mem_append_right _ h))
      fun hcounted x hx => hn hcounted x (List.mem_append_right _ hx)).bind fun _ _ => clean_ok _

end

/-! ### Predicates -/

theorem cleanCalls_invokeWithin (hp : p.Fitting counted) (hd : p.Defines env.definitions)
    (depth : Nat) : env.CleanCalls counted (env.invokeWithin depth) := by
  induction depth with
  | zero =>
    intro x q args scope _ _
    simp [invokeWithin, EvalError.Misrefers]
  | succ depth ih =>
    intro x q args scope hq hcount
    rw [invokeWithin]
    split
    · rename_i hlen
      have hbody := hp.body (hd.mem_predicates hq).1
      refine clean_evalWith hp hd ih q.body hbody.calls fun hcounted x hx hbinds => ?_
      exact hbody.names hcounted x hx fun hparam => hbinds (.inl (isSome_lookup_bind hlen hparam))
    · rename_i hlen
      simpa [EvalError.Misrefers] using mt hcount hlen

end Env

namespace Expr.Fits
variable {env : Env}

/-- An expression that fits is clean where what it takes for bound is bound. -/
theorem clean_eval (he : e.Fits p counted bound) (hp : p.Fitting counted) (hd : p.Defines env.definitions)
    (hbound : ∀ x ∈ bound, env.Binds scope x) : Clean counted (env.eval scope e) :=
  Env.clean_evalWith hp hd (Env.cleanCalls_invokeWithin hp hd _) e he.calls
    fun hcounted x hx hbinds => he.names hcounted x hx fun h => hbinds (hbound x h)

theorem clean_evalAll (hes : ∀ e ∈ es, e.Fits p counted bound) (hp : p.Fitting counted)
    (hd : p.Defines env.definitions) (hbound : ∀ x ∈ bound, env.Binds scope x) :
    Clean counted (env.evalAll scope es) := by
  induction es with
  | nil => exact clean_ok _
  | cons e es ih =>
    exact ((hes e (List.mem_cons_self ..)).clean_eval hp hd hbound).bind fun _ _ =>
      (ih fun e he => hes e (List.mem_cons_of_mem _ he)).bind fun _ _ => clean_ok _

theorem clean_holds (he : e.Fits p counted bound) (hp : p.Fitting counted) (hd : p.Defines env.definitions)
    (hbound : ∀ x ∈ bound, env.Binds scope x) : Clean counted (env.holds scope e) :=
  (he.clean_eval hp hd hbound).bind fun _ _ => clean_ok _

end Expr.Fits

/-! ### Effects -/

/-- The variables are bound. -/
def World.Binds (w : World) (names : List String) : Prop :=
  ∀ x ∈ names, (SortedMap.find? x w.vars).isSome

section
variable {env : Env} {w w' : World} {d : Definitions} {focus : Focus} {vars : List String}

theorem Env.clean_write {a : Assignment} (ha : ∀ e ∈ a.indices ++ [a.value], e.Fits p counted bound)
    (hp : p.Fitting counted) (hd : p.Defines env.definitions)
    (hbound : ∀ x ∈ bound, env.Binds scope x) : Clean counted (env.write scope a) := by
  have hindices := Expr.Fits.clean_evalAll (fun e he => ha e (List.mem_append_left _ he)) hp hd hbound
  have hvalue := (ha a.value (by simp)).clean_eval hp hd hbound
  have hcode : Clean counted (env.eval scope a.value >>= env.definitions.pieceOfCode) :=
    hvalue.bind fun _ _ => Definitions.clean_pieceOfCode _ _
  have hpiece : Clean counted (env.pieceValue scope a.value) := by
    unfold pieceValue
    split
    · split
      · exact hcode
      split
      · exact clean_ok _
      split
      · exact clean_ok _
      · exact hcode
    · exact hcode
  refine hindices.bind fun indices _ => ?_
  split
  · split
    · exact hpiece.bind fun _ _ => clean_ok _
    · simp [EvalError.Misrefers]
  · exact hvalue.bind fun _ _ => clean_ok _

theorem Write.clean_apply (x : Write) : Clean counted (x.apply w) := by
  cases x with
  | tile t piece => exact (Board.clean_set _ _ _).bind fun _ _ => clean_ok _
  | var name path n => exact (Value.clean_store _ _ _ _).bind fun _ _ => clean_ok _

/-- A write binds a name or none, and takes no name away. -/
theorem World.Binds.apply {x : Write} (hw : w.Binds vars) (h : x.apply w = .ok w') : w'.Binds vars := by
  cases x with
  | tile t piece =>
    obtain ⟨b, -, hb⟩ := bind_eq_ok_iff.1 h
    obtain rfl := Except.ok.inj hb
    exact hw
  | var name path n =>
    obtain ⟨v, -, hv⟩ := bind_eq_ok_iff.1 h
    obtain rfl := Except.ok.inj hv
    intro x hx
    by_cases hname : x = name
    · simp [hname, SortedMap.find?_insert_self]
    · rw [SortedMap.find?_insert_ne hname]
      exact hw x hx

theorem World.clean_assign {as : List Assignment}
    (has : ∀ a ∈ as, ∀ e ∈ a.indices ++ [a.value], e.Fits p counted (bound ++ vars))
    (hp : p.Fitting counted) (hd : p.Defines d)
    (hbound : ∀ x ∈ bound, (scope.lookup x).isSome) (hw : w.Binds vars) :
    Clean counted (w.assign d focus scope as).1 := by
  induction as generalizing w with
  | nil => exact clean_ok _
  | cons a as ih =>
    have hall : ∀ x ∈ bound ++ vars, (w.env d focus).Binds scope x := by
      intro x hx
      rcases List.mem_append.1 hx with hx | hx
      · exact .inl (hbound x hx)
      · exact .inr (hw x hx)
    have hwrite : Clean counted ((w.env d focus).write scope a >>= Write.apply w) :=
      (Env.clean_write (has a (List.mem_cons_self ..)) hp hd hall).bind fun x _ => x.clean_apply
    rw [assign]
    split
    · rename_i err h
      rw [h] at hwrite
      exact clean_error_iff.2 (clean_error_iff.1 hwrite)
    · rename_i w' h
      obtain ⟨x, -, hx⟩ := bind_eq_ok_iff.1 h
      exact ih (fun a ha => has a (List.mem_cons_of_mem _ ha)) (hw.apply hx)

/-- An effect with as many arguments as it takes is clean. -/
theorem World.clean_perform {c : Call} (hc : p.Takes .effect c.name c.args.length)
    (hargs : ∀ e ∈ c.args, e.Fits p counted (p.declared .var)) (hp : p.Fitting counted)
    (hd : p.Defines d) (hw : w.Binds (p.declared .var)) : Clean counted (w.perform d focus c).1 := by
  obtain ⟨f, hf, hfind, hlen⟩ := hd.exists_effect hp.wellFormed hc
  have heval : Clean counted ((w.env d focus).evalAll [] c.args) :=
    Expr.Fits.clean_evalAll hargs hp hd fun x hx => .inr (hw x hx)
  rw [perform, hfind]
  dsimp only
  rw [if_pos hlen]
  split
  · rename_i err h
    rw [h] at heval
    exact clean_error_iff.2 (clean_error_iff.1 heval)
  · rename_i args h
    refine clean_assign (fun a ha e => hp.assignment hf ha) hp hd (fun x hx => ?_) hw
    exact Env.isSome_lookup_bind (hlen.trans (Env.length_of_evalAllWith h).symm) hx

end
end BoardGame
