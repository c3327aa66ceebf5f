import BoardGame.Proofs.Evaluation.Unlimited
import BoardGame.Proofs.Folding
import BoardGame.Proofs.Macros.Nesting

/-!
# Evaluation ends

A predicate is run by a call, and by its bare name where that means nothing else. If no predicate comes back
to itself in this way, each call leaves fewer predicates to come to, so every evaluation ends, and with the
outcome of the evaluator (`Env.comesTo_eval`): its limit is never reached. If no macro calls itself
either, every movement is resolved, too (`Env.ends_of_nest`).
-/

namespace BoardGame
open Relation

/-! ### Predicates that nest -/

/-- An expression calls `name` or mentions it as a bare name. -/
def Expr.Mentions (e : Expr) (name : String) : Prop := name ∈ e.bareNames ∨ ∃ c ∈ e.calls, c.name = name

/-- One of the expressions calls `name` or mentions it as a bare name. -/
def Expr.MentionsAll (es : List Expr) (name : String) : Prop :=
  name ∈ Expr.bareNamesAll es ∨ ∃ c ∈ Expr.callsAll es, c.name = name

namespace Expr
variable {e l r : Expr} {es : List Expr} {name : String}

theorem Mentions.left (h : l.Mentions name) (op : BinaryOp) (r : Expr) : (binary op l r).Mentions name :=
  h.imp (List.mem_append_left _) fun ⟨c, hc, hname⟩ => ⟨c, List.mem_append_left _ hc, hname⟩

theorem Mentions.right (h : r.Mentions name) (op : BinaryOp) (l : Expr) : (binary op l r).Mentions name :=
  h.imp (List.mem_append_right _) fun ⟨c, hc, hname⟩ => ⟨c, List.mem_append_right _ hc, hname⟩

theorem Mentions.head (h : e.Mentions name) (es : List Expr) : MentionsAll (e :: es) name :=
  h.imp (List.mem_append_left _) fun ⟨c, hc, hname⟩ => ⟨c, List.mem_append_left _ hc, hname⟩

theorem MentionsAll.tail (h : MentionsAll es name) (e : Expr) : MentionsAll (e :: es) name :=
  h.imp (List.mem_append_right _) fun ⟨c, hc, hname⟩ => ⟨c, List.mem_append_right _ hc, hname⟩

theorem MentionsAll.args (h : MentionsAll es name) (callee : String) : (call callee es).Mentions name :=
  h.imp_right fun ⟨c, hc, hname⟩ => ⟨c, List.mem_cons_of_mem _ hc, hname⟩

theorem mentions_call (name : String) (args : List Expr) : (call name args).Mentions name :=
  .inr ⟨_, List.mem_cons_self .., rfl⟩

end Expr

namespace Definitions

/-- The body of the predicate `a` calls `b` or mentions it as a bare name. -/
def Invokes (d : Definitions) (a b : String) : Prop := ∃ p, d.predicate? a = some p ∧ p.body.Mentions b

/-- No predicate comes back to itself, through others or not. -/
def PredicatesNest (d : Definitions) : Prop := ∀ name, ¬ TransGen d.Invokes name name

def predicateNames (d : Definitions) : Finset String := (d.predicates.map (·.name)).toFinset

/-- How many predicates a call of `name` can come to. -/
noncomputable def predicatesReached (d : Definitions) (name : String) : Nat :=
  (reached d.Invokes d.predicateNames name).card

section
variable {d : Definitions} {name : String} {p : Predicate}

theorem mem_predicateNames (h : d.predicate? name = some p) : name ∈ d.predicateNames := by
  have hname : p.name = name := by simpa using List.find?_some h
  exact List.mem_toFinset.2 (List.mem_map.2 ⟨p, List.mem_of_find?_eq_some h, hname⟩)

theorem predicatesReached_lt (hd : d.PredicatesNest) (hp : d.predicate? name = some p) {callee : String}
    (h : p.body.Mentions callee) : d.predicatesReached callee < d.predicatesReached name :=
  card_reached_lt (hd name) (mem_predicateNames hp) ⟨p, hp, h⟩

theorem predicatesReached_le (d : Definitions) (name : String) :
    d.predicatesReached name ≤ d.predicates.length := by
  have hnames : d.predicateNames.card ≤ (d.predicates.map (·.name)).length := List.toFinset_card_le _
  rw [List.length_map] at hnames
  exact (Finset.card_le_card fun x hx => (mem_reached.1 hx).1).trans hnames

end

end Definitions

namespace Env
variable {env : Env} {run : Invoke} {expand : Expand} {scope : Scope}

/-! ### Expressions -/

/-- Run in `scope`, the predicates of these names end, and come to what `run` says. -/
def EndsAs (env : Env) (run : Invoke) (scope : Scope) (names : String → Prop) : Prop :=
  ∀ name, names name → ∀ p, env.definitions.predicate? name = some p →
    ∀ args, ComesTo (fun n => runBody (env.evalFueled n) p args scope) (run p args scope)

theorem EndsAs.mono {names names' : String → Prop} (h : env.EndsAs run scope names)
    (hnames : ∀ name, names' name → names name) : env.EndsAs run scope names' :=
  fun name hname => h name (hnames name hname)

theorem comesTo_nameFueled {name : String} (h : env.EndsAs run scope (Expr.var name).Mentions) :
    ComesTo (fun n => env.nameFueled (env.evalFueled n) scope name) (env.bareName run scope name) := by
  unfold nameFueled bareName
  cases scope.lookup name with
  | some k => exact .pure k
  | none =>
    dsimp only
    split
    · exact .pure 0
    split
    · exact .result _
    cases env.definitions.pieceId? name with
    | some p => exact (ComesTo.result _).bind fun _ _ => .pure _
    | none =>
      dsimp only
      cases SortedMap.find? name env.vars with
      | some v => exact .result _
      | none =>
        cases hp : env.definitions.predicate? name with
        | some p => exact h name (.inl (List.mem_singleton_self name)) p hp []
        | none => exact .result _

theorem comesTo_binary (op : BinaryOp) {l r : Expr}
    (hl : ComesTo (env.evalFueled · scope l) (env.evalWith run scope l))
    (hr : ComesTo (env.evalFueled · scope r) (env.evalWith run scope r)) :
    ComesTo (env.evalFueled · scope (.binary op l r)) (env.evalWith run scope (.binary op l r)) := by
  refine .of_succ ?_
  cases op with
  | and | or =>
    rw [evalWith]
    refine hl.bind fun m _ => ?_
    split
    · exact .pure _
    · exact hr.bind fun k _ => .pure _
  | _ =>
    simp only [evalWith]
    exact hl.bind fun m _ => hr.bind fun k _ => .result _

mutual

/-- An expression comes to its value if the predicates that it mentions do. -/
theorem comesTo_evalWith : ∀ e : Expr, env.EndsAs run scope e.Mentions →
    ComesTo (env.evalFueled · scope e) (env.evalWith run scope e)
  | .literal n, _ => by
    rw [evalWith]
    exact .of_succ (.pure n)
  | .field name key, _ => by
    rw [evalWith]
    exact .of_succ (.result _)
  | .var name, h => by
    rw [evalWith]
    exact .of_succ (comesTo_nameFueled h)
  | .index name indices, h => by
    rw [evalWith]
    exact .of_succ ((comesTo_evalAllWith indices h).bind fun ns _ => .result _)
  | .unary op a, h => by
    rw [evalWith]
    exact .of_succ ((comesTo_evalWith a h).bind fun k _ => .result _)
  | .binary op l r, h =>
    comesTo_binary op (comesTo_evalWith l (h.mono fun _ hname => hname.left op r))
      (comesTo_evalWith r (h.mono fun _ hname => hname.right op l))
  | .call name args, h => by
    refine .of_succ ?_
    simp only [evalFueled]
    rw [evalWith]
    split
    · exact .result _
    cases hp : env.definitions.predicate? name with
    | none => exact .result _
    | some p =>
      exact (comesTo_evalAllWith args (h.mono fun _ hname => hname.args name)).bind fun ns _ =>
        h name (Expr.mentions_call name args) p hp ns

theorem comesTo_evalAllWith : ∀ es : List Expr, env.EndsAs run scope (Expr.MentionsAll es) →
    ComesTo (fun n => evalEach (env.evalFueled n scope) es) (env.evalAllWith run scope es)
  | [], _ => by
    rw [evalAllWith]
    exact .pure []
  | e :: es, h => by
    rw [evalAllWith]
    exact (comesTo_evalWith e (h.mono fun _ hname => hname.head es)).bind fun k _ =>
      (comesTo_evalAllWith es (h.mono fun _ hname => hname.tail e)).bind fun ks _ => .pure _

end

/-- A call ends within a depth that is more than the predicates that it can come to. -/
theorem endsAs_invokeWithin (hd : env.definitions.PredicatesNest) (depth : Nat) (scope : Scope) :
    env.EndsAs (env.invokeWithin depth) scope
      fun name => env.definitions.predicatesReached name < depth := by
  induction depth generalizing scope with
  | zero => exact fun name h => absurd h (Nat.not_lt_zero _)
  | succ depth ih =>
    intro name hname p hp args
    unfold runBody invokeWithin
    split
    · refine comesTo_evalWith p.body ((ih _).mono fun callee hcallee => ?_)
      have := Definitions.predicatesReached_lt hd hp hcallee
      omega
    · exact .result _

theorem endsAs_invoke (hd : env.definitions.PredicatesNest) (scope : Scope) :
    env.EndsAs env.invoke scope fun _ => True :=
  (endsAs_invokeWithin hd env.callDepth scope).mono fun name _ => by
    have := env.definitions.predicatesReached_le name
    unfold callDepth nestingLimit
    omega

theorem comesTo_eval (hd : env.definitions.PredicatesNest) (scope : Scope) (e : Expr) :
    ComesTo (env.evalFueled · scope e) (env.eval scope e) :=
  comesTo_evalWith e ((endsAs_invoke hd scope).mono fun _ _ => trivial)

theorem comesTo_evalAll (hd : env.definitions.PredicatesNest) (scope : Scope) (es : List Expr) :
    ComesTo (fun n => evalEach (env.evalFueled n scope) es) (env.evalAll scope es) :=
  comesTo_evalAllWith es ((endsAs_invoke hd scope).mono fun _ _ => trivial)

/-! ### Movements -/

theorem comesTo_step (hd : env.definitions.PredicatesNest) (scope : Scope) (l : Letter) :
    ComesTo (env.stepFueled · scope l) (env.step scope l) := by
  refine (comesTo_eval hd scope l.dx).bind fun dx _ => (comesTo_eval hd scope l.dy).bind fun dy _ =>
    (ComesTo.result _).bind fun condition _ => ?_
  cases l.effect with
  | none => exact .pure _
  | some c => exact (ComesTo.result _).bind fun effect _ => .pure _

/-- A movement is resolved if the macros that it calls are expanded. -/
theorem comesTo_resolveWith (hd : env.definitions.PredicatesNest) {m : Movement}
    (h : ∀ c ∈ m.expansions, ComesTo (env.resolveFueled · scope (.expand c)) (expand scope c)) :
    ComesTo (env.resolveFueled · scope m) (env.resolveWith expand scope m) := by
  induction m with
  | letter l =>
    rw [resolveWith]
    exact .of_succ ((comesTo_step hd scope l).bind fun s _ => .pure _)
  | concat left right ihl ihr | union left right ihl ihr =>
    rw [resolveWith]
    exact .of_succ ((ihl fun c hc => h c (List.mem_append_left _ hc)).bind fun _ _ =>
      (ihr fun c hc => h c (List.mem_append_right _ hc)).bind fun _ _ => .pure _)
  | star inner ih | plus inner ih | optional inner ih =>
    rw [resolveWith]
    exact .of_succ ((ih h).bind fun _ _ => .pure _)
  | expand c =>
    rw [resolveWith]
    exact h c (List.mem_singleton_self c)

/-- A macro is expanded within a depth that is more than the macros that it can lead to. -/
theorem comesTo_expandWithin (hd : env.definitions.PredicatesNest) (hm : env.definitions.MacrosNest)
    {depth : Nat} {c : Call} (hc : env.definitions.macrosReached c.name < depth) :
    ComesTo (env.resolveFueled · scope (.expand c)) (env.expandWithin depth scope c) := by
  induction depth generalizing scope c with
  | zero => exact absurd hc (Nat.not_lt_zero _)
  | succ depth ih =>
    refine .of_succ ?_
    simp only [resolveFueled]
    rw [expandWithin]
    cases hfound : env.definitions.moveMacro? c.name with
    | none => exact .result _
    | some m =>
      dsimp only
      split
      · refine (comesTo_evalAll hd scope c.args).bind fun args _ =>
          comesTo_resolveWith hd fun c' hc' => ih ?_
        have := Definitions.macrosReached_lt hm hfound hc'
        omega
      · exact .result _

/-- Where no predicate comes back to itself, every evaluation ends, and where no macro does either, every
movement is resolved, both with the outcomes that they have here. -/
theorem ends_of_nest (hd : env.definitions.PredicatesNest) :
    (∀ scope e, ComesTo (env.evalFueled · scope e) (env.eval scope e)) ∧
    (env.definitions.MacrosNest →
      ∀ scope m, ComesTo (env.resolveFueled · scope m) (env.resolve scope m)) := by
  refine ⟨comesTo_eval hd, fun hm scope m =>
    comesTo_resolveWith hd fun c _ => comesTo_expandWithin hd hm ?_⟩
  have := env.definitions.macrosReached_le c.name
  unfold expansionDepth nestingLimit
  omega

/-- What is within `range` is near, and `range` is one more than the variable `base`. A run is a step and then
longer ones, upwards as far as they are near. -/
def relay : Env where
  definitions := {
    predicates := [⟨"near", ["d"], .binary .le (.var "d") (.var "range")⟩,
      ⟨"range", [], .binary .add (.var "base") (.literal 1)⟩]
    macros := [⟨"Step", ["d"], .letter ⟨.var "d", .call "near" [.var "d"], .named "true", none⟩⟩,
      ⟨"Run", ["d"], .concat (.expand ⟨"Step", [.var "d"]⟩)
        (.star (.expand ⟨"Step", [.binary .add (.var "d") (.literal 1)]⟩))⟩] }
  vars := [("base", .int 1)]

theorem predicatesNest_relay : relay.definitions.PredicatesNest := by
  refine not_transGen_of_rank
    (fun name => if name = "near" then 2 else if name = "range" then 1 else 0) ?_
  rintro a b ⟨p, hp, hb⟩
  have hmem := List.mem_of_find?_eq_some hp
  obtain rfl : p.name = a := by simpa using List.find?_some hp
  simp only [relay, List.mem_cons, List.not_mem_nil, or_false] at hmem
  rcases hmem with rfl | rfl
  · have hb : b = "d" ∨ b = "range" := by
      simpa [Expr.Mentions, Expr.bareNames, Expr.calls] using hb
    rcases hb with rfl | rfl <;> decide
  · obtain rfl : b = "base" := by simpa [Expr.Mentions, Expr.bareNames, Expr.calls] using hb
    decide

theorem macrosNest_relay : relay.definitions.MacrosNest := by
  refine not_transGen_of_rank (fun name => if name = "Run" then 1 else 0) ?_
  rintro a b ⟨m, hm, c, hc, rfl⟩
  have hmem := List.mem_of_find?_eq_some hm
  obtain rfl := Definitions.name_of_moveMacro? hm
  simp only [relay, List.mem_cons, List.not_mem_nil, or_false] at hmem
  rcases hmem with rfl | rfl
  · cases hc
  · have hname : c.name = "Step" := by
      simp only [Movement.expansions, List.mem_append, List.mem_singleton] at hc
      rcases hc with rfl | rfl <;> rfl
    rw [hname]
    decide

/-- `near(2)` comes to `range` by its bare name, and `Run(1)` to `Step` with `near` in its offset. -/
theorem ends_of_nest_relay : relay.definitions.PredicatesNest ∧ relay.definitions.MacrosNest ∧
    ComesTo (relay.evalFueled · [] (.call "near" [.literal 2])) (.ok 1) ∧
    ComesTo (relay.resolveFueled · [] (.expand ⟨"Run", [.literal 1]⟩))
      (.ok (.concat (.step ⟨1, 1, .var "true", none⟩) (.star (.step ⟨2, 1, .var "true", none⟩)))) := by
  obtain ⟨heval, hresolve⟩ := ends_of_nest predicatesNest_relay
  exact ⟨predicatesNest_relay, macrosNest_relay, heval [] (.call "near" [.literal 2]),
    hresolve macrosNest_relay [] (.expand ⟨"Run", [.literal 1]⟩)⟩

end Env
end BoardGame
