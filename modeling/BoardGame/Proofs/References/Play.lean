import BoardGame.Proofs.Game.Reachable
import BoardGame.Proofs.References.Building

/-!
# References in play

Wherever play has led, the declared variables are bound (`Game.Reachable.binds`): effects take no
variable away, and taking back leads to an earlier position. So in a fitting program no step, no walk of
a piece and no condition for victory fails of a reference (`Program.Fitting.spares`). A checked program
is fitting as far as calls are concerned, and altogether if its bare names fit.
-/

namespace BoardGame
variable {p : Program} {rules : Rules} {options : Options} {counted : Bool} {vars : List String}
  {d : Definitions} {w w' : World} {t : Tile} {s : Step} {ss : List Step} {focus : Focus} {g : Game}

/-! ### Steps -/

/-- The result is no failure of a reference. -/
def CleanPlay {α : Type} (counted : Bool) (r : Except GameError α) : Prop :=
  ∀ e, r = .error (.eval e) → ¬ e.Misrefers counted

@[simp] theorem cleanPlay_ok {α : Type} (a : α) : CleanPlay counted (.ok a) := fun _ h => by cases h

@[simp] theorem cleanPlay_error_iff {α : Type} {e : GameError} :
    CleanPlay counted (.error e : Except GameError α) ↔ ∀ err, e = .eval err → ¬ err.Misrefers counted :=
  ⟨fun h err he => h err (congrArg _ he), fun h err he => h err (Except.error.inj he)⟩

theorem cleanPlay_eval {α : Type} {e : EvalError} (h : ¬ e.Misrefers counted) :
    CleanPlay counted (.error (.eval e) : Except GameError α) := fun _ he =>
  GameError.eval.inj (Except.error.inj he) ▸ h

namespace World
variable {target : Tile} {piece : PieceId} {effect : Option Call}

theorem Binds.carry (hw : w.Binds vars) (h : w.carry t target piece = .ok w') : w'.Binds vars := by
  rwa [Binds, vars_carry h]

/-- Play takes no variable away. -/
theorem Binds.leads (hw : w.Binds vars) (h : w.Leads d w') : w'.Binds vars := by
  induction h with
  | refl => exact hw
  | carry _ _ hcarry ih => exact ih.carry hcarry
  | write _ _ happly ih => exact ih.apply happly

theorem Binds.step (hw : w.Binds vars) (h : w.step d t s = .ok w') : w'.Binds vars :=
  hw.leads (leads_step h)

section
variable (hp : p.Fitting counted) (hd : p.Defines d)
include hp hd

theorem clean_act (hs : s.Fits p counted (p.declared .var)) (hw : w.Binds (p.declared .var)) :
    Clean counted (w.act d focus s.effect) := by
  cases heffect : s.effect with
  | none => exact clean_ok _
  | some c =>
    have hperform : Clean counted (w.perform d focus c).1 :=
      clean_perform (hs.takes c heffect) (hs.args c heffect) hp hd hw
    rw [World.act]
    split
    · rename_i e _ h
      rw [h] at hperform
      exact clean_error_iff.2 (clean_error_iff.1 hperform)
    · exact clean_ok _

/-- A step that fits fails of no reference. -/
theorem clean_step (hs : s.Fits p counted (p.declared .var)) (hw : w.Binds (p.declared .var)) :
    CleanPlay counted (w.step d t s) := by
  unfold World.step
  split
  · rename_i e h
    exact cleanPlay_eval (Board.clean_get _ _ e h)
  · exact fun _ h => by cases h
  rename_i piece _
  have hclean : Clean counted (w.carry t (s.target t) piece >>= fun w =>
      w.act d { tile := some (s.target t), player := some (d.owner piece) } s.effect) := by
    refine Clean.bind ?_ fun w₁ hcarry => clean_act hp hd hs (hw.carry hcarry)
    exact (Board.clean_set _ _ _).bind fun _ _ => (Board.clean_set _ _ _).bind fun _ _ => clean_ok _
  dsimp only
  split
  · rename_i e h
    exact cleanPlay_eval (hclean e h)
  · exact cleanPlay_ok _

theorem clean_steps (hss : ∀ s ∈ ss, s.Fits p counted (p.declared .var))
    (hw : w.Binds (p.declared .var)) : CleanPlay counted (w.steps d t ss) := by
  induction ss generalizing w t with
  | nil => exact cleanPlay_ok _
  | cons s ss ih =>
    have hstep : CleanPlay counted (w.step d t s) :=
      clean_step hp hd (hss s (List.mem_cons_self ..)) hw
    rw [World.steps]
    cases h : w.step d t s with
    | error e => exact fun err he => hstep err (h.trans he)
    | ok w₁ => exact ih (fun s hs => hss s (List.mem_cons_of_mem _ hs)) (hw.step h)

end
end World

/-! ### Positions -/

/-- Wherever play has led, the declared variables are bound. -/
theorem Game.Reachable.binds (h : p.build = .ok rules) (hg : Reachable rules options g) :
    g.world.Binds (p.declared .var) := by
  have hfirst : World.Binds ⟨rules.vars, rules.board⟩ (p.declared .var) := Program.binds_build h
  exact hfirst.leads (hg.leads h)

/-! ### Walks -/

theorem Explores.eq_of_ok {q : Play (List Move)} {found : Move → Prop} {stumbles : Prop} {ms : List Move}
    {g' : Game} (h : Explores q g found stumbles) (hq : q g = (.ok ms, g')) : g' = g := by
  rcases h with ⟨-, ms', hms, -⟩ | ⟨-, e, w, cs, he, -⟩
  · rw [hms] at hq
    exact (Prod.mk.inj hq).2.symm
  · rw [he] at hq
    cases hq

namespace Play
variable {α β : Type} {dfa : Dfa} {start : Tile} {k : Nat} {q : StateId} {path : List Step}
  {piece : PieceId}

theorem cleanPlay_check {r : Except EvalError α} (hr : Clean counted r) :
    CleanPlay counted (check r g).1 := by
  cases r with
  | ok a => exact cleanPlay_ok a
  | error e => exact cleanPlay_eval (hr e rfl)

theorem cleanPlay_collect {f : α → Play (List β)} {as : List α}
    (hkeep : ∀ a ∈ as, ∀ bs g', f a g = (.ok bs, g') → g' = g)
    (hf : ∀ a ∈ as, CleanPlay counted (f a g).1) : CleanPlay counted (collect f as g).1 := by
  induction as with
  | nil => exact cleanPlay_ok _
  | cons a as ih =>
    have ha := hf a (List.mem_cons_self ..)
    have hrest := ih (fun a h => hkeep a (List.mem_cons_of_mem _ h)) fun a h =>
      hf a (List.mem_cons_of_mem _ h)
    rw [collect, bind_apply]
    cases hfa : f a g with
    | mk r g' =>
      rw [hfa] at ha
      cases r with
      | error e => exact fun err he => ha err he
      | ok bs =>
        obtain rfl := hkeep a (List.mem_cons_self ..) bs g' hfa
        simp only [bind_apply]
        cases hcollect : collect f as g' with
        | mk r g'' =>
          rw [hcollect] at hrest
          cases r with
          | error e => exact fun err he => hrest err he
          | ok bs' => exact cleanPlay_ok _

section
variable (hp : p.Fitting counted) (hd : p.Defines g.definitions)
include hp hd

theorem cleanPlay_permitted (hs : s.Fits p counted (p.declared .var)) (hw : g.world.Binds (p.declared .var))
    (target : Tile) (player : PlayerId) : CleanPlay counted (permitted s target player g).1 := by
  have hcondition : Clean counted
      ((g.env { tile := some target, player := some player }).holds [] s.condition) :=
    hs.condition.clean_holds hp hd fun x hx => .inr (hw x hx)
  rw [permitted, bind_apply, game_apply]
  dsimp only
  split
  · exact cleanPlay_check hcondition
  · exact cleanPlay_ok _

theorem cleanPlay_follow (hs : s.Fits p counted (p.declared .var))
    (hdet : dfa.Deterministic) (hg : g.world.board.Complete) (hw : g.world.Binds (p.declared .var))
    (ht : g.world.board.get t = .ok (some piece))
    (hwalk : ∀ g' : Game, g'.definitions = g.definitions → g'.world.board.Complete →
      g'.world.Binds (p.declared .var) → ∀ q t path, g'.world.board.contains t = true →
        CleanPlay counted (walk dfa start k q t path g').1) :
    CleanPlay counted
      (follow dfa start (walk dfa start k) t path (g.definitions.owner piece) (s, q) g).1 := by
  have hpermitted := cleanPlay_permitted hp hd hs hw (s.target t) (g.definitions.owner piece)
  have hstep : CleanPlay counted (g.world.step g.definitions t s) := World.clean_step hp hd hs hw
  unfold follow
  rcases permitted_cases ht s with ⟨-, -, hper⟩ | ⟨-, e, hper⟩ | ⟨ha, -, hper⟩
  · simp [hper]
  · rw [hper] at hpermitted
    simpa [hper] using hpermitted
  rcases makeStep_spec hg t s with ⟨e, hs, hmake⟩ | ⟨w₁, c, hs, hc, hmake⟩
  · rw [hs] at hstep
    simpa [hper, hmake] using hstep
  have hg₁ : w₁.board.Complete := World.complete_step hg hs
  have hin : w₁.board.contains (s.target t) = true := by
    rw [World.contains_step hs]
    exact ha.choose_spec.2.1
  have hclean := hwalk { g with world := w₁, changes := c :: g.changes } rfl hg₁ (hw.step hs) q
    (s.target t) (s :: path) hin
  cases hres : walk dfa start k q (s.target t) (s :: path)
      { g with world := w₁, changes := c :: g.changes } with
  | mk r g' =>
    rw [hres] at hclean
    cases r with
    | error e => simpa [hper, hmake, hres] using hclean
    | ok ms =>
      obtain rfl : g' = { g with world := w₁, changes := c :: g.changes } :=
        (walk_explores hdet hg₁ hin k q (s :: path)).eq_of_ok hres
      have hundo : undoStep { g with world := w₁, changes := c :: g.changes } = (.ok (), g) :=
        undoStep_of_revert rfl hc
      simp [hper, hmake, hres, hundo]

end

/-- The walk of a piece whose automaton reads steps that fit fails of no reference. -/
theorem cleanPlay_walk (hp : p.Fitting counted) (hd : p.Defines g.definitions)
    (hdfa : ∀ q s r, (s, r) ∈ dfa.transitions q → s.Fits p counted (p.declared .var))
    (hdet : dfa.Deterministic) (hg : g.world.board.Complete) (hw : g.world.Binds (p.declared .var))
    (ht : g.world.board.contains t = true) (k : Nat) (q : StateId) (path : List Step) :
    CleanPlay counted (walk dfa start k q t path g).1 := by
  induction k generalizing g q t path with
  | zero =>
    obtain ⟨occupant, hget⟩ := Board.exists_get_of_contains ht
    simp [walk, pieceAt_of_ok hget]
  | succ k ih =>
    obtain ⟨occupant, hget⟩ := Board.exists_get_of_contains ht
    cases occupant with
    | none => simp [walk, pieceAt_of_ok hget]
    | some piece =>
      have hwalk : walk dfa start (k + 1) q t path g = collect
          (follow dfa start (walk dfa start k) t path (g.definitions.owner piece))
          (dfa.transitions q) g := by
        simp [walk, pieceAt_of_ok hget]
      rw [hwalk]
      refine cleanPlay_collect (fun transition _ ms g' h => ?_) ?_
      · exact (follow_explores (fun g' hd hg' q t path ht => hd ▸ walk_explores hdet hg' ht k q path)
          (not_finds_nil g.definitions dfa k) hg hget transition).eq_of_ok h
      · rintro ⟨s, r⟩ hmem
        exact cleanPlay_follow hp hd (hdfa q s r hmem) hdet hg hw hget
          fun g' hd' hg' hw' q t path ht => ih (hd' ▸ hd) hg' hw' ht q path

/-! ### Victory -/

theorem cleanPlay_winnersFrom (hp : p.Fitting counted) (hd : p.Defines g.definitions)
    (hw : g.world.Binds (p.declared .var)) {conditions : List (Option Expr)}
    (hconditions : ∀ e, some e ∈ conditions → e.Fits p counted (p.declared .var)) (player : PlayerId) :
    CleanPlay counted (winnersFrom player conditions g).1 := by
  induction conditions generalizing player with
  | nil => exact cleanPlay_ok _
  | cons condition conditions ih =>
    have hrest := ih (fun e he => hconditions e (List.mem_cons_of_mem _ he)) (player + 1)
    cases condition with
    | none => exact hrest
    | some e =>
      have hcondition : Clean counted ((g.env { player := some player }).holds [] e) :=
        (hconditions e (List.mem_cons_self ..)).clean_holds hp hd fun x hx => .inr (hw x hx)
      rw [winnersFrom, bind_apply, game_apply]
      cases hholds : (g.env { player := some player }).holds [] e with
      | error err => simpa [hholds] using hcondition err hholds
      | ok won =>
        cases hres : winnersFrom (player + 1) conditions g with
        | mk r g' =>
          rw [hres] at hrest
          cases r with
          | error err => simpa [hholds, hres] using hrest
          | ok others => simp [hholds, hres]

theorem cleanPlay_outcome (hp : p.Fitting counted) (h : p.build = .ok rules) (hg : g.Sound rules)
    (hw : g.world.Binds (p.declared .var)) : CleanPlay counted (outcome g).1 := by
  have hd : p.Defines g.definitions := by
    rw [Game.definitions, hg.rules_eq]
    exact Program.defines_definitions (Program.build_eq_ok_iff.1 h).1
  have hconditions : ∀ e, some e ∈ g.definitions.victories → e.Fits p counted (p.declared .var) := by
    intro e he
    obtain ⟨v, hv, rfl⟩ := hd.victories e he
    exact hp.victory hv
  have hwinners := cleanPlay_winnersFrom hp hd hw hconditions 0
  obtain ⟨r, log, -, hr⟩ := exists_winnersFrom_gives 0 g.definitions.victories g
  rw [hr] at hwinners
  rw [outcome, bind_apply, game_apply]
  simp only [bind_apply, hr]
  rcases r with e | (_ | ⟨winner, _ | ⟨_, _⟩⟩)
  · simpa using hwinners
  · obtain ⟨ms, log', -, hgen⟩ := exists_generateMoves_gives (g := { g with log := log }) h
      ⟨hg.rules_eq, hg.complete, hg.turn_lt⟩
    simp only [bind_apply, hgen]
    exact cleanPlay_ok _
  · exact cleanPlay_ok _
  · exact cleanPlay_ok _

/-- A move whose steps fit fails of no reference. -/
theorem cleanPlay_makeMove (hp : p.Fitting counted) (hd : p.Defines g.definitions)
    (hg : g.world.board.Complete) (hw : g.world.Binds (p.declared .var)) {m : Move}
    (hm : ∀ s ∈ m.steps, s.Fits p counted (p.declared .var)) : CleanPlay counted (makeMove m g).1 := by
  rcases makeMove_spec hg m with ⟨e, hsteps, hmake⟩ | ⟨w, cs, log, -, -, -, -, -, hmake⟩
  · rw [hmake]
    exact cleanPlay_error_iff.2 fun err he => World.clean_steps hp hd hm hw err (he ▸ hsteps)
  · rw [hmake]
    exact cleanPlay_ok _

end Play

/-! ### Programs -/

/-- Nothing that is asked of the game or done to it fails of an evaluation with a `bad` error: neither
whether somebody has won, nor a move that is generated here or in another position, nor the walk of a
piece on the board, whatever was logged before it. -/
structure Game.Spares (g : Game) (bad : EvalError → Prop) : Prop where
  outcome : ∀ err, (Play.outcome g).1 = .error (.eval err) → ¬ bad err
  move : ∀ g₀, Reachable g.rules g.options g₀ → ∀ ms, (Play.generateMoves g₀).1 = .ok ms → ∀ m ∈ ms,
    ∀ err, (Play.makeMove m g).1 = .error (.eval err) → ¬ bad err
  walk : ∀ t piece, g.board.get t = .ok (some piece) → ∀ bp, g.rules.pieces[piece]? = some bp →
    ∀ log err, (Play.walk bp.dfa t g.options.maxMoveLength bp.dfa.start t [] { g with log := log }).1 =
      .error (.eval err) → ¬ bad err

/-- Neither building the rules nor playing by them meets a `bad` error, wherever play leads. -/
structure Program.Spares (p : Program) (bad : EvalError → Prop) : Prop where
  build : ∀ e, p.build = .error e → ∀ err ∈ e.source?, ¬ bad err
  play : ∀ rules, p.build = .ok rules → ∀ options g, Game.Reachable rules options g → g.Spares bad

namespace Program

theorem Spares.mono {bad bad' : EvalError → Prop} (h : p.Spares bad) (hbad : ∀ err, bad' err → bad err) :
    p.Spares bad' where
  build := fun e he err herr => mt (hbad err) (h.build e he err herr)
  play := fun rules hrules options g hg => {
    outcome := fun err he => mt (hbad err) ((h.play rules hrules options g hg).outcome err he)
    move := fun g₀ hg₀ ms hms m hm err he =>
      mt (hbad err) ((h.play rules hrules options g hg).move g₀ hg₀ ms hms m hm err he)
    walk := fun t piece ht bp hbp log err he =>
      mt (hbad err) ((h.play rules hrules options g hg).walk t piece ht bp hbp log err he) }

namespace Fitting
variable {piece : PieceId} {word : List Step}

/-- The words of a piece consist of steps that fit. -/
theorem fits_of_mem_language (hp : p.Fitting counted) (h : p.build = .ok rules)
    (hword : word ∈ p.language rules piece) : ∀ s ∈ word, s.Fits p counted (p.declared .var) := by
  cases hbp : rules.pieces[piece]? with
  | none =>
    rw [language_of_none h hbp] at hword
    exact hword.elim
  | some bp =>
    obtain ⟨r, hpath, -⟩ := ((reads_piece h hbp).accepts_iff word).2 hword
    intro s hs
    obtain ⟨q, r, hr⟩ := hpath.exists_mem_transitions hs
    exact hp.fits_of_mem_transitions h (List.mem_of_getElem? hbp) hr

theorem game_spares (hp : p.Fitting counted) (h : p.build = .ok rules)
    (hg : Game.Reachable rules options g) : g.Spares (EvalError.Misrefers counted) := by
  have hw := hg.binds h
  obtain ⟨s, hs⟩ := hg.represents h
  have hd : p.Defines g.definitions := by
    rw [Game.definitions, hs.rules_eq]
    exact defines_definitions (build_eq_ok_iff.1 h).1
  refine ⟨Play.cleanPlay_outcome hp h hs.sound hw, fun g₀ hg₀ ms hms m hm => ?_,
    fun t piece ht bp hbp log => ?_⟩
  · rw [hs.rules_eq, hs.options_eq] at hg₀
    obtain ⟨s₀, hs₀⟩ := hg₀.represents h
    obtain ⟨ms', log, -, hgen, -, hlegal⟩ := Play.generateMoves_legal h hs₀.sound
    rw [hgen] at hms
    obtain rfl := Except.ok.inj hms
    obtain ⟨piece, -, -, -, -, -, hword, -⟩ := (hlegal m).1 hm
    exact Play.cleanPlay_makeMove hp hd hs.complete hw (hp.fits_of_mem_language h hword)
  · rw [hs.rules_eq] at hbp
    exact Play.cleanPlay_walk (g := { g with log := log }) hp hd
      (fun q s r hr => hp.fits_of_mem_transitions h (List.mem_of_getElem? hbp) hr)
      (reads_piece h hbp).deterministic hs.complete hw (Board.contains_of_get ht) _ _ _

/-- Nowhere does a fitting program fail of a reference. -/
theorem spares (hp : p.Fitting counted) : p.Spares (EvalError.Misrefers counted) where
  build := hp.cleanBuild_build
  play := fun _ h _ _ hg => hp.game_spares h hg

end Fitting

/-! ### Checked programs -/

/-- Where a bare name in an expression is not bound, it is not the name of a predicate with
parameters. -/
def NamesFit (p : Program) : Prop :=
  ∀ d ∈ p.declarations, ∀ e ∈ d.value.exprs, ∀ x ∈ e.bareNames,
    x ∉ d.value.bound (p.declared .var) → ∀ q ∈ p.predicates, q.name = x → q.params = []

instance (p : Program) : Decidable p.NamesFit :=
  inferInstanceAs (Decidable (∀ d ∈ p.declarations, ∀ e ∈ d.value.exprs, ∀ x ∈ e.bareNames,
    x ∉ d.value.bound (p.declared .var) → ∀ q ∈ p.predicates, q.name = x → q.params = []))

theorem fitting_of_check (h : p.check = .ok ()) (hnames : counted = true → p.NamesFit) :
    p.Fitting counted where
  wellFormed := check_eq_ok_iff.1 h
  exprs := fun d hd e he => {
    calls := ((check_eq_ok_iff.1 h).declarations d hd).calls e he
    names := fun hcounted x hx hbound n hn => by
      obtain ⟨q, hq, hname, rfl⟩ := takes_predicate_iff.1 hn
      rw [hnames hcounted d hd e he x hx hbound q hq hname]
      rfl }

/-- A checked program never meets a name that is not declared for its use. -/
theorem spares_undefined_of_check (h : p.check = .ok ()) : p.Spares fun err =>
    ∃ kind name, err = .undefined kind name ∨ err = .notAnExpression kind name := by
  have hp : p.Fitting false := fitting_of_check h (by simp)
  refine hp.spares.mono ?_
  rintro _ ⟨kind, name, rfl | rfl⟩ <;> trivial

/-- A program with a pawn that goes on to the right as long as the score, which each step raises, is
below two. -/
def harvest : Program where
  players := [⟨"White", 0, 0⟩]
  pieces := [⟨⟨"Pawn", "White"⟩, 0, 0⟩]
  declarations := [
    ⟨.var ⟨"score", .literal 0⟩, 0, 0⟩,
    ⟨.predicate ⟨"below", ["n"], .binary .lt (.var "score") (.var "n")⟩, 0, 0⟩,
    ⟨.effect ⟨"gain", ["n"], [⟨"score", [], .binary .add (.var "score") (.var "n")⟩]⟩, 0, 0⟩,
    ⟨.moveMacro ⟨"run", ["d"], .letter ⟨.var "d", .literal 0, .call ⟨"below", [.literal 2]⟩,
      some ⟨"gain", [.var "d"]⟩⟩⟩, 0, 0⟩,
    ⟨.rule ⟨"Pawn", .plus (.expand ⟨"run", [.literal 1]⟩)⟩, 0, 0⟩,
    ⟨.victory ⟨"White", .binary .eq (.var "score") (.literal 2)⟩, 0, 0⟩]
  board := ⟨⟨3, 1, [⟨.piece "Pawn" none, 0, 0⟩, ⟨.empty, 0, 0⟩, ⟨.empty, 0, 0⟩]⟩, 0, 0⟩

def harvestStep : Step := ⟨1, 0, .call "below" [.literal 2], some ⟨"gain", [.literal 1]⟩⟩

def harvestRules : Rules where
  definitions := {
    players := ["White"], pieces := [⟨"Pawn", 0⟩]
    macros := harvest.macros, predicates := harvest.predicates, effects := harvest.effects
    victories := [some (.binary .eq (.var "score") (.literal 2))] }
  pieces := [⟨"Pawn", 0, ⟨#[⟨[(harvestStep, 1)], false⟩, ⟨[(harvestStep, 1)], true⟩], 0⟩, some 3⟩]
  vars := [("score", .int 0)]
  board := ⟨3, 1, #[some 0, none, none]⟩

theorem spares_undefined_of_check_harvest : harvest.check = .ok () ∧
    harvest.build = .ok harvestRules ∧ (Game.new harvestRules {}).Spares fun err =>
      ∃ kind name, err = .undefined kind name ∨ err = .notAnExpression kind name :=
  ⟨rfl, rfl, (spares_undefined_of_check (p := harvest) rfl).play harvestRules rfl {} _ .new⟩

/-- A checked program whose bare names fit never meets a wrong number of arguments. -/
theorem spares_arity_of_check (h : p.check = .ok ()) (hnames : p.NamesFit) :
    p.Spares fun err => ∃ name expected found, err = .arity name expected found := by
  have hp : p.Fitting true := fitting_of_check h fun _ => hnames
  refine hp.spares.mono ?_
  rintro _ ⟨name, expected, found, rfl⟩
  rfl

theorem spares_arity_of_check_harvest : harvest.check = .ok () ∧ harvest.NamesFit ∧
    harvest.build = .ok harvestRules ∧ (Game.new harvestRules {}).Spares fun err =>
      ∃ name expected found, err = .arity name expected found := by
  have hnames : harvest.NamesFit := by decide
  exact ⟨rfl, hnames, rfl, (spares_arity_of_check rfl hnames).play harvestRules rfl {} _ .new⟩

/-- A program whose variable starts with the value of a predicate that takes an argument. -/
def misnamed : Program where
  players := [⟨"White", 0, 0⟩]
  pieces := [⟨⟨"Pawn", "White"⟩, 0, 0⟩]
  declarations := [
    ⟨.predicate ⟨"above", ["n"], .binary .lt (.literal 0) (.var "n")⟩, 0, 0⟩,
    ⟨.var ⟨"level", .var "above"⟩, 0, 0⟩]
  board := ⟨⟨1, 1, [⟨.piece "Pawn" none, 0, 0⟩]⟩, 0, 0⟩

/-- The checks do not look at bare names in expressions: this program passes, and its rules cannot be
built for want of an argument. -/
theorem check_misnamed : misnamed.check = .ok () ∧
    misnamed.build = .error (.var "level" (.arity "above" 1 0)) ∧
    ¬ misnamed.Spares fun err => ∃ name expected found, err = .arity name expected found := by
  have hbuild : misnamed.build = .error (.var "level" (.arity "above" 1 0)) := rfl
  exact ⟨rfl, hbuild, fun h => h.build _ hbuild _ rfl ⟨_, _, _, rfl⟩⟩

end Program
end BoardGame
