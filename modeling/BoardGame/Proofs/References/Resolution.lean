import BoardGame.Proofs.Automaton.Letters
import BoardGame.Proofs.Board
import BoardGame.Proofs.References.Evaluation

/-!
# References of rules

What a letter of a well-formed movement resolves to is a step that fits the program (`Step.Fits`): folding
keeps the calls with their numbers of arguments and leaves no name that the scope binds
(`folded_fold`), so the letters that macros expand to fit wherever they stand (`resolves_resolve`).
-/

namespace BoardGame
variable {p : Program} {counted : Bool} {bound vars : List String} {e e' : Expr} {es es' : List Expr}
  {scope : Scope}

/-! ### Folding -/

/-- What is left of some calls and bare names by folding: the calls have the names and the numbers of
arguments that they had, and no name is left that the scope binds. -/
structure Folded (scope : Scope) (cs' : List Call) (xs' : List String) (cs : List Call)
    (xs : List String) : Prop where
  calls : ∀ c' ∈ cs', ∃ c ∈ cs, c.name = c'.name ∧ c.args.length = c'.args.length
  names : ∀ x ∈ xs', x ∈ xs ∧ scope.lookup x = none

namespace Folded
variable {cs cs₁ cs₂ cs' cs₁' cs₂' : List Call} {xs xs₁ xs₂ xs' xs₁' xs₂' : List String}

theorem nil : Folded scope [] [] cs xs := ⟨by simp, by simp⟩

theorem append (h₁ : Folded scope cs₁' xs₁' cs₁ xs₁) (h₂ : Folded scope cs₂' xs₂' cs₂ xs₂) :
    Folded scope (cs₁' ++ cs₂') (xs₁' ++ xs₂') (cs₁ ++ cs₂) (xs₁ ++ xs₂) where
  calls := fun c' hc' => by
    rcases List.mem_append.1 hc' with hc' | hc'
    · obtain ⟨c, hc, h⟩ := h₁.calls c' hc'
      exact ⟨c, List.mem_append_left _ hc, h⟩
    · obtain ⟨c, hc, h⟩ := h₂.calls c' hc'
      exact ⟨c, List.mem_append_right _ hc, h⟩
  names := fun x hx => by
    rcases List.mem_append.1 hx with hx | hx
    · exact ⟨List.mem_append_left _ (h₁.names x hx).1, (h₁.names x hx).2⟩
    · exact ⟨List.mem_append_right _ (h₂.names x hx).1, (h₂.names x hx).2⟩

theorem call {name : String} (hlen : es'.length = es.length)
    (h : Folded scope (Expr.callsAll es') xs' (Expr.callsAll es) xs) :
    Folded scope (⟨name, es'⟩ :: Expr.callsAll es') xs' (⟨name, es⟩ :: Expr.callsAll es) xs where
  calls := fun c' hc' => by
    rcases List.mem_cons.1 hc' with rfl | hc'
    · exact ⟨_, List.mem_cons_self .., rfl, hlen.symm⟩
    · obtain ⟨c, hc, h⟩ := h.calls c' hc'
      exact ⟨c, List.mem_cons_of_mem _ hc, h⟩
  names := h.names

end Folded

theorem clean_foldBinary (op : BinaryOp) (l r : Expr) : Clean counted (Expr.foldBinary op l r) := by
  unfold Expr.foldBinary
  split
  · exact (op.clean_apply _ _).bind fun _ _ => clean_ok _
  · exact clean_ok _

theorem clean_foldUnary (op : UnaryOp) (a : Expr) : Clean counted (Expr.foldUnary op a) := by
  unfold Expr.foldUnary
  split
  · exact (op.clean_apply _).bind fun _ _ => clean_ok _
  · exact clean_ok _

mutual

/-- Folding looks nothing up, and fails of operators only. -/
theorem Expr.clean_fold : ∀ e : Expr, Clean counted (e.fold scope)
  | .literal _ | .field _ _ => clean_ok _
  | .var name => by
    rw [fold]
    split <;> exact clean_ok _
  | .index _ indices => (clean_foldAll indices).bind fun _ _ => clean_ok _
  | .unary op a => (clean_fold a).bind fun _ _ => clean_foldUnary op _
  | .binary op l r => (clean_fold l).bind fun l' _ => by
    split
    · exact clean_ok _
    · exact (clean_fold r).bind fun _ _ => clean_foldBinary op _ _
  | .call _ args => (clean_foldAll args).bind fun _ _ => clean_ok _

theorem Expr.clean_foldAll : ∀ es : List Expr, Clean counted (Expr.foldAll scope es)
  | [] => clean_ok _
  | e :: es => (clean_fold e).bind fun _ _ => (clean_foldAll es).bind fun _ _ => clean_ok _

end

theorem folded_foldBinary {op : BinaryOp} {l l' r r' : Expr} (h : Expr.foldBinary op l' r' = .ok e')
    (hl : Folded scope l'.calls l'.bareNames l.calls l.bareNames)
    (hr : Folded scope r'.calls r'.bareNames r.calls r.bareNames) :
    Folded scope e'.calls e'.bareNames (l.calls ++ r.calls) (l.bareNames ++ r.bareNames) := by
  unfold Expr.foldBinary at h
  split at h
  · obtain ⟨n, -, h⟩ := bind_eq_ok_iff.1 h
    obtain rfl := Except.ok.inj h
    exact .nil
  · obtain rfl := Except.ok.inj h
    exact hl.append hr

theorem folded_foldUnary {op : UnaryOp} {a a' : Expr} (h : Expr.foldUnary op a' = .ok e')
    (ha : Folded scope a'.calls a'.bareNames a.calls a.bareNames) :
    Folded scope e'.calls e'.bareNames a.calls a.bareNames := by
  unfold Expr.foldUnary at h
  split at h
  · obtain ⟨n, -, h⟩ := bind_eq_ok_iff.1 h
    obtain rfl := Except.ok.inj h
    exact .nil
  · obtain rfl := Except.ok.inj h
    exact ha

mutual

theorem folded_fold : ∀ e e' : Expr, e.fold scope = .ok e' →
    Folded scope e'.calls e'.bareNames e.calls e.bareNames
  | .literal _, _, h | .field _ _, _, h => by
    obtain rfl := Except.ok.inj h
    exact .nil
  | .var name, e', h => by
    rw [Expr.fold] at h
    split at h
    · obtain rfl := Except.ok.inj h
      exact .nil
    · rename_i hnone
      obtain rfl := Except.ok.inj h
      exact ⟨by simp [Expr.calls], fun x hx => ⟨hx, by rwa [List.mem_singleton.1 hx]⟩⟩
  | .index name indices, e', h => by
    obtain ⟨indices', hindices, h⟩ := bind_eq_ok_iff.1 h
    obtain rfl := Except.ok.inj h
    exact folded_foldAll indices indices' hindices
  | .unary op a, e', h => by
    obtain ⟨a', ha, h⟩ := bind_eq_ok_iff.1 h
    exact folded_foldUnary h (folded_fold a a' ha)
  | .binary op l r, e', h => by
    obtain ⟨l', hl, h⟩ := bind_eq_ok_iff.1 h
    split at h
    · obtain rfl := Except.ok.inj h
      exact .nil
    · obtain ⟨r', hr, h⟩ := bind_eq_ok_iff.1 h
      exact folded_foldBinary h (folded_fold l l' hl) (folded_fold r r' hr)
  | .call name args, e', h => by
    obtain ⟨args', hargs, h⟩ := bind_eq_ok_iff.1 h
    obtain rfl := Except.ok.inj h
    exact (folded_foldAll args args' hargs).call (Env.length_foldAll hargs)

theorem folded_foldAll : ∀ es es' : List Expr, Expr.foldAll scope es = .ok es' →
    Folded scope (Expr.callsAll es') (Expr.bareNamesAll es') (Expr.callsAll es) (Expr.bareNamesAll es)
  | [], es', h => by
    obtain rfl := Except.ok.inj h
    exact .nil
  | e :: es, es', h => by
    obtain ⟨f, hf, h⟩ := bind_eq_ok_iff.1 h
    obtain ⟨fs, hfs, h⟩ := bind_eq_ok_iff.1 h
    obtain rfl := Except.ok.inj h
    exact (folded_fold e f hf).append (folded_foldAll es fs hfs)

end

/-- A call of another predicate with as many arguments has a declaration, too. -/
theorem Program.Callable.of_length {c c' : Call} (h : p.Callable c) (hname : c.name = c'.name)
    (hlen : c.args.length = c'.args.length) : p.Callable c' := by
  rw [Callable, ← hname, ← hlen, ← List.length_eq_zero_iff, ← hlen, List.length_eq_zero_iff]
  exact h

/-- Folded where the parameters are bound, an expression takes only the variables for bound. -/
theorem Expr.Fits.fold (he : e.Fits p counted (bound ++ vars))
    (hscope : ∀ x ∈ bound, (scope.lookup x).isSome) (h : e.fold scope = .ok e') :
    e'.Fits p counted vars where
  calls := fun c' hc' => by
    obtain ⟨c, hc, hname, hlen⟩ := (folded_fold e e' h).calls c' hc'
    exact (he.calls c hc).of_length hname hlen
  names := fun hcounted x hx hvars => by
    obtain ⟨hx, hnone⟩ := (folded_fold e e' h).names x hx
    refine he.names hcounted x hx fun hmem => ?_
    rcases List.mem_append.1 hmem with hbound | hmem
    · have := hscope x hbound
      rw [hnone] at this
      cases this
    · exact hvars hmem

theorem Expr.Fits.foldAll (hes : ∀ e ∈ es, e.Fits p counted (bound ++ vars))
    (hscope : ∀ x ∈ bound, (scope.lookup x).isSome) (h : Expr.foldAll scope es = .ok es') :
    ∀ e' ∈ es', e'.Fits p counted vars := by
  induction es generalizing es' with
  | nil =>
    obtain rfl := Except.ok.inj h
    simp
  | cons e es ih =>
    obtain ⟨f, hf, h⟩ := bind_eq_ok_iff.1 h
    obtain ⟨fs, hfs, h⟩ := bind_eq_ok_iff.1 h
    obtain rfl := Except.ok.inj h
    refine List.forall_mem_cons.2 ⟨(hes e (List.mem_cons_self ..)).fold hscope hf, ?_⟩
    exact ih (fun e he => hes e (List.mem_cons_of_mem _ he)) hfs

/-! ### Letters and macros -/

/-- The condition of the step fits the program where the variables are bound, and so does its effect. -/
structure Step.Fits (p : Program) (counted : Bool) (vars : List String) (s : Step) : Prop where
  condition : s.condition.Fits p counted vars
  takes : ∀ c ∈ s.effect, p.Takes .effect c.name c.args.length
  args : ∀ c ∈ s.effect, ∀ e ∈ c.args, e.Fits p counted vars

/-- The movement is well-formed, and its expressions fit where its parameters and `vars` are bound. -/
structure Movement.Fits (p : Program) (counted : Bool) (params vars : List String) (m : Movement) :
    Prop where
  wellFormed : p.WellFormedMovement params m
  exprs : ∀ e ∈ m.exprs, e.Fits p counted (params ++ vars)

namespace Program.Fitting

theorem movement (hp : p.Fitting counted) {d : Spanned Declaration} (hd : d ∈ p.declarations)
    {m : Movement} (hm : d.value.movement? = some m) (hexprs : d.value.exprs = m.exprs)
    (hbound : d.value.bound (p.declared .var) = d.value.params ++ p.declared .var) :
    m.Fits p counted d.value.params (p.declared .var) where
  wellFormed := (hp.wellFormed.declarations d hd).movement m hm
  exprs := fun e he => hbound ▸ hp.exprs d hd e (hexprs ▸ he)

theorem rule (hp : p.Fitting counted) {r : PieceRule} (hr : r ∈ p.rules) :
    r.movement.Fits p counted [] (p.declared .var) := by
  obtain ⟨d, hd, hv⟩ := exists_of_mem_rules hr
  have h := hp.movement hd (m := r.movement) (by rw [hv]; rfl) (by rw [hv]; rfl) (by rw [hv]; rfl)
  rwa [hv] at h

theorem moveMacro (hp : p.Fitting counted) {m : MoveMacro} (hm : m ∈ p.macros) :
    m.body.Fits p counted m.params (p.declared .var) := by
  obtain ⟨d, hd, hv⟩ := exists_of_mem_macros hm
  have h := hp.movement hd (m := m.body) (by rw [hv]; rfl) (by rw [hv]; rfl) (by rw [hv]; rfl)
  rwa [hv] at h

end Program.Fitting

namespace Movement.Fits
variable {params : List String} {l r i : Movement}

theorem of_mem {m m' : Movement} (h : m.Fits p counted params vars)
    (hletters : ∀ l ∈ m'.letters, l ∈ m.letters) (hexpansions : ∀ c ∈ m'.expansions, c ∈ m.expansions) :
    m'.Fits p counted params vars where
  wellFormed := {
    expansions := fun c hc => h.wellFormed.expansions c (hexpansions c hc)
    effects := fun l hl => h.wellFormed.effects l (hletters l hl)
    conditions := fun l hl => h.wellFormed.conditions l (hletters l hl) }
  exprs := fun e he => h.exprs e <| by
    rcases List.mem_append.1 he with he | he
    · obtain ⟨l, hl, he⟩ := List.mem_flatMap.1 he
      exact List.mem_append_left _ (List.mem_flatMap.2 ⟨l, hletters l hl, he⟩)
    · obtain ⟨c, hc, he⟩ := List.mem_flatMap.1 he
      exact List.mem_append_right _ (List.mem_flatMap.2 ⟨c, hexpansions c hc, he⟩)

end Movement.Fits

/-- The result is clean, and if it is a pattern its steps fit. -/
def Resolves (p : Program) (counted : Bool) (vars : List String) (r : Except EvalError Pattern) : Prop :=
  Clean counted r ∧ ∀ pattern, r = .ok pattern → ∀ s ∈ pattern.steps, s.Fits p counted vars

theorem Resolves.bind {r : Except EvalError Pattern} {f : Pattern → Except EvalError Pattern}
    (hr : Resolves p counted vars r)
    (hf : ∀ pattern, (∀ s ∈ pattern.steps, s.Fits p counted vars) → Resolves p counted vars (f pattern)) :
    Resolves p counted vars (r >>= f) := by
  refine ⟨hr.1.bind fun pattern hpattern => (hf pattern (hr.2 pattern hpattern)).1, fun _ h => ?_⟩
  obtain ⟨pattern, hpattern, h⟩ := bind_eq_ok_iff.1 h
  exact (hf pattern (hr.2 pattern hpattern)).2 _ h

theorem resolves_ok {pattern : Pattern} (h : ∀ s ∈ pattern.steps, s.Fits p counted vars) :
    Resolves p counted vars (.ok pattern) :=
  ⟨clean_ok _, fun _ h' => Except.ok.inj h' ▸ h⟩

/-- What a bare condition may name fits, even if it also is the name of a predicate with parameters. -/
theorem Program.Meaningful.fits (hp : p.WellFormed) {d : Definitions} (hd : p.Defines d)
    {params : List String} {name : String} (h : p.Meaningful params name) :
    (Expr.var name).Fits p counted (params ++ p.declared .var) where
  calls := by simp [Expr.calls]
  names := by
    intro _ x hx hbound n hn
    obtain rfl := List.mem_singleton.1 hx
    rw [List.mem_append, not_or] at hbound
    rcases h with h | h | h | h | h
    · exact absurd h hbound.1
    · exact absurd hn (hp.not_takes_builtin h n)
    · exact absurd h (hp.predicates_free x (hn.mem_declared .predicate (by simp) (by simp))).2
    · exact absurd h hbound.2
    · obtain ⟨q, -, hq, hlen⟩ := hd.exists_predicate hp hn
      obtain ⟨q', -, hq', hlen'⟩ := hd.exists_predicate hp h
      obtain rfl := Option.some.inj (hq.symm.trans hq')
      omega

/-- What `expand` makes of a call with as many arguments as the macro takes resolves, if the arguments
are clean. -/
def Env.ExpandsCleanly (env : Env) (p : Program) (counted : Bool) (expand : Expand) : Prop :=
  ∀ scope c, p.Takes .moveMacro c.name c.args.length → Clean counted (env.evalAll scope c.args) →
    Resolves p counted (p.declared .var) (expand scope c)

namespace Env
variable {env : Env} {params : List String}

section
variable (hp : p.Fitting counted) (hd : p.Defines env.definitions)
  (hvars : ∀ x ∈ p.declared .var, (SortedMap.find? x env.vars).isSome)
include hp hd hvars

theorem clean_step {l : Letter} (hl : (Movement.letter l).Fits p counted params (p.declared .var))
    (hscope : ∀ x ∈ params, (scope.lookup x).isSome) :
    Clean counted (env.step scope l) ∧
      ∀ s, env.step scope l = .ok s → s.Fits p counted (p.declared .var) := by
  have hbound : ∀ x ∈ params ++ p.declared .var, env.Binds scope x := fun x hx =>
    (List.mem_append.1 hx).imp (hscope x) (hvars x)
  have hexprs : ∀ e ∈ l.exprs, e.Fits p counted (params ++ p.declared .var) := fun e he =>
    hl.exprs e (by simpa [Movement.exprs, Movement.letters, Movement.expansions] using he)
  have hcondition : l.condition.toExpr.Fits p counted (params ++ p.declared .var) := by
    cases hc : l.condition with
    | named name =>
      exact (hl.wellFormed.conditions l (List.mem_singleton_self l) name
        (by simp [hc, Condition.bareName?])).fits hp.wellFormed hd
    | call c => exact hexprs _ (by simp [Letter.exprs, hc, Condition.exprs, Condition.toExpr])
  have hargs : ∀ c, l.effect = some c → ∀ e ∈ c.args, e.Fits p counted (params ++ p.declared .var) :=
    fun c hc e he => hexprs e (by simp [Letter.exprs, hc, he])
  have hdx : Clean counted (env.eval scope l.dx) :=
    (hexprs _ (by simp [Letter.exprs])).clean_eval hp hd hbound
  have hdy : Clean counted (env.eval scope l.dy) :=
    (hexprs _ (by simp [Letter.exprs])).clean_eval hp hd hbound
  constructor
  · refine hdx.bind fun _ _ => hdy.bind fun _ _ => (Expr.clean_fold _).bind fun _ _ => ?_
    dsimp only
    split
    · exact clean_ok _
    · refine Clean.bind ?_ fun _ _ => clean_ok _
      exact ((Expr.clean_foldAll _).bind fun _ _ => clean_ok _).bind fun _ _ => clean_ok _
  · intro s hs
    obtain ⟨dx, -, hs⟩ := bind_eq_ok_iff.1 hs
    obtain ⟨dy, -, hs⟩ := bind_eq_ok_iff.1 hs
    obtain ⟨condition, hfold, hs⟩ := bind_eq_ok_iff.1 hs
    cases hc : l.effect with
    | none =>
      rw [hc] at hs
      obtain rfl := Except.ok.inj hs
      exact ⟨hcondition.fold hscope hfold, by simp, by simp⟩
    | some c =>
      simp only [hc] at hs
      obtain ⟨effect, heffect, hs⟩ := bind_eq_ok_iff.1 hs
      obtain rfl := Except.ok.inj hs
      obtain ⟨c', hc', heffect⟩ := bind_eq_ok_iff.1 heffect
      obtain rfl := Except.ok.inj heffect
      obtain ⟨args, hfoldAll, hc'⟩ := bind_eq_ok_iff.1 hc'
      obtain rfl := Except.ok.inj hc'
      refine ⟨hcondition.fold hscope hfold, ?_, ?_⟩
      · rintro _ ⟨⟩
        have htakes := hl.wellFormed.effects l (List.mem_singleton_self l) c hc
        rwa [← length_foldAll hfoldAll] at htakes
      · rintro _ ⟨⟩
        exact Expr.Fits.foldAll (hargs c hc) hscope hfoldAll

theorem resolves_resolveWith {expand : Expand} (hexpand : env.ExpandsCleanly p counted expand)
    (hscope : ∀ x ∈ params, (scope.lookup x).isSome) {m : Movement}
    (hm : m.Fits p counted params (p.declared .var)) :
    Resolves p counted (p.declared .var) (env.resolveWith expand scope m) := by
  have hbound : ∀ x ∈ params ++ p.declared .var, env.Binds scope x := fun x hx =>
    (List.mem_append.1 hx).imp (hscope x) (hvars x)
  induction m with
  | letter l =>
    obtain ⟨hclean, hfits⟩ := clean_step hp hd hvars hm hscope
    refine ⟨hclean.bind fun _ _ => clean_ok _, fun pattern h => ?_⟩
    obtain ⟨s, hs, h⟩ := bind_eq_ok_iff.1 h
    obtain rfl := Except.ok.inj h
    exact List.forall_mem_singleton.2 (hfits s hs)
  | concat l r ihl ihr | union l r ihl ihr =>
    have hl : l.Fits p counted params (p.declared .var) :=
      hm.of_mem (fun _ => List.mem_append_left _) fun _ => List.mem_append_left _
    have hr : r.Fits p counted params (p.declared .var) :=
      hm.of_mem (fun _ => List.mem_append_right _) fun _ => List.mem_append_right _
    refine (ihl hl).bind fun l' hl' => (ihr hr).bind fun r' hr' => resolves_ok ?_
    exact List.forall_mem_append.2 ⟨hl', hr'⟩
  | star i ih | plus i ih | optional i ih =>
    exact (ih (hm.of_mem (fun _ h => h) fun _ h => h)).bind fun i' hi' => resolves_ok hi'
  | expand c =>
    refine hexpand scope c (hm.wellFormed.expansions c (List.mem_singleton_self c)) ?_
    refine Expr.Fits.clean_evalAll (fun e he => hm.exprs e ?_) hp hd hbound
    simpa [Movement.exprs, Movement.letters, Movement.expansions] using he

theorem expandsCleanly_expandWithin (depth : Nat) :
    env.ExpandsCleanly p counted (env.expandWithin depth) := by
  induction depth with
  | zero => exact fun _ _ _ _ => ⟨by simp [expandWithin, EvalError.Misrefers], fun _ h => by cases h⟩
  | succ depth ih =>
    intro scope c hc hargs
    obtain ⟨m, hm, hfind, hlen⟩ := hd.exists_moveMacro hp.wellFormed hc
    have hbody : ∀ args, env.evalAll scope c.args = .ok args → Resolves p counted (p.declared .var)
        (env.resolveWith (env.expandWithin depth) (scope.bind m.params args) m.body) := by
      intro args h
      refine resolves_resolveWith hp hd hvars ih (fun x hx => ?_) (hp.moveMacro hm)
      exact isSome_lookup_bind (hlen.trans (length_of_evalAllWith h).symm) hx
    simp only [expandWithin, hfind, hlen, if_true]
    refine ⟨hargs.bind fun args h => (hbody args h).1, fun pattern h => ?_⟩
    obtain ⟨args, hargs, h⟩ := bind_eq_ok_iff.1 h
    exact (hbody args hargs).2 pattern h

/-- A movement that fits resolves to steps that fit. -/
theorem resolves_resolve {m : Movement} (hm : m.Fits p counted [] (p.declared .var)) :
    Resolves p counted (p.declared .var) (env.resolve [] m) :=
  resolves_resolveWith hp hd hvars (expandsCleanly_expandWithin hp hd hvars _) (by simp) hm

end
end Env

end BoardGame
