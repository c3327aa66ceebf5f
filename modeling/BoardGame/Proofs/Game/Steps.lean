import BoardGame.Game.History
import BoardGame.Proofs.Board

/-!
# Making and taking back steps

`World.step` is a step as a function of worlds, with no history. What carrying a piece and a single write
of an effect keep holds of every world that comes up (`World.Leads`). `Play.makeStep` does a step on the
world of a game and keeps a change from which the world before can be had back (`makeStep_spec`);
where it fails the game stays what it was. `Reverts cs w w₀`: taking back the changes `cs` leads from
`w` to `w₀`.
-/

namespace BoardGame

/-! ### Steps of worlds -/

namespace World
variable {d : Definitions} {w w' : World} {origin : Tile} {s : Step}

/-- Moves a piece from one tile to another one. -/
def carry (w : World) (origin target : Tile) (piece : PieceId) : Except EvalError World := do
  let b ← w.board.set origin none
  let b ← b.set target (some piece)
  return { w with board := b }

/-- Does the effect of a step, if it has one. -/
def act (d : Definitions) (focus : Focus) (w : World) : Option Call → Except EvalError World
  | none => .ok w
  | some c =>
    match w.perform d focus c with
    | (.error e, _) => .error e
    | (.ok _, w') => .ok w'

/-- The world after the piece on `origin` has made a step. -/
def step (d : Definitions) (w : World) (origin : Tile) (s : Step) : Except GameError World :=
  match w.board.get origin with
  | .error e => .error (.eval e)
  | .ok none => .error (.emptyTile origin)
  | .ok (some piece) =>
    let focus : Focus := { tile := some (s.target origin), player := some (d.owner piece) }
    match w.carry origin (s.target origin) piece >>= fun w => w.act d focus s.effect with
    | .error e => .error (.eval e)
    | .ok w' => .ok w'

/-- The world after some steps, one after the other. -/
def steps (d : Definitions) : World → Tile → List Step → Except GameError World
  | w, _, [] => .ok w
  | w, origin, s :: ss => do steps d (← w.step d origin s) (s.target origin) ss

/-! ### Worlds that come up -/

/-- `w` leads to a world by carrying pieces from one tile to another one and by writing what the
assignments of effects write. So it leads to every world in which something is evaluated while steps are
made, also if they fail. -/
inductive Leads (d : Definitions) (w : World) : World → Prop
  | refl : Leads d w w
  | carry {w₁ w₂ : World} {origin target : Tile} {piece : PieceId} (h : Leads d w w₁)
      (hget : w₁.board.get origin = .ok (some piece))
      (hcarry : w₁.carry origin target piece = .ok w₂) : Leads d w w₂
  | write {w₁ w₂ : World} {focus : Focus} {scope : Scope} {a : Assignment} {x : Write}
      (h : Leads d w w₁) (hwrite : (w₁.env d focus).write scope a = .ok x)
      (happly : x.apply w₁ = .ok w₂) : Leads d w w₂

section
variable {focus : Focus} {scope : Scope} {w₁ : World}

theorem Leads.trans (h : w.Leads d w₁) (h' : w₁.Leads d w') : w.Leads d w' := by
  induction h' with
  | refl => exact h
  | carry _ hget hcarry ih => exact ih.carry hget hcarry
  | write _ hwrite happly ih => exact ih.write hwrite happly

/-- An effect leads from write to write, and stays where it fails. -/
theorem leads_assign (as : List Assignment) : w.Leads d (w.assign d focus scope as).2 := by
  induction as generalizing w with
  | nil => exact .refl
  | cons a as ih =>
    rw [assign]
    split
    · exact .refl
    · rename_i w₁ h
      obtain ⟨x, hwrite, happly⟩ := bind_eq_ok_iff.1 h
      exact (Leads.write .refl hwrite happly).trans ih

theorem leads_perform (c : Call) : w.Leads d (w.perform d focus c).2 := by
  unfold perform
  split
  · exact .refl
  split
  · split
    · exact .refl
    · exact leads_assign _
  · exact .refl

theorem leads_act {effect : Option Call} (h : w.act d focus effect = .ok w') : w.Leads d w' := by
  cases effect with
  | none =>
    obtain rfl := Except.ok.inj h
    exact .refl
  | some c =>
    have hperform : w.Leads d (w.perform d focus c).2 := leads_perform c
    rw [act] at h
    split at h
    · cases h
    · rename_i hresult
      obtain rfl := Except.ok.inj h
      rwa [hresult] at hperform

end

theorem leads_step (h : w.step d origin s = .ok w') : w.Leads d w' := by
  unfold step at h
  split at h
  · cases h
  · cases h
  rename_i piece hget
  dsimp only at h
  split at h
  · cases h
  rename_i hstep
  obtain rfl := Except.ok.inj h
  obtain ⟨w₁, hcarry, hact⟩ := bind_eq_ok_iff.1 hstep
  exact (Leads.carry .refl hget hcarry).trans (leads_act hact)

theorem leads_steps {ss : List Step} (h : w.steps d origin ss = .ok w') : w.Leads d w' := by
  induction ss generalizing w origin with
  | nil =>
    obtain rfl := Except.ok.inj h
    exact .refl
  | cons s ss ih =>
    obtain ⟨w₁, hstep, h⟩ := bind_eq_ok_iff.1 h
    exact (leads_step hstep).trans (ih h)

theorem vars_carry {target : Tile} {piece : PieceId} (h : w.carry origin target piece = .ok w') :
    w'.vars = w.vars := by
  obtain ⟨b₁, -, h⟩ := bind_eq_ok_iff.1 h
  obtain ⟨b₂, -, h⟩ := bind_eq_ok_iff.1 h
  exact Except.ok.inj h ▸ rfl

/-- What putting pieces on a board keeps, play keeps. -/
theorem Leads.board {P : Board → Prop} (hP : ∀ b t p b', P b → b.set t p = .ok b' → P b')
    (h : w.Leads d w') (hw : P w.board) : P w'.board := by
  induction h with
  | refl => exact hw
  | carry _ _ hcarry ih =>
    obtain ⟨b₁, h₁, hcarry⟩ := bind_eq_ok_iff.1 hcarry
    obtain ⟨b₂, h₂, hcarry⟩ := bind_eq_ok_iff.1 hcarry
    obtain rfl := Except.ok.inj hcarry
    exact hP _ _ _ _ (hP _ _ _ _ ih h₁) h₂
  | write _ _ happly ih =>
    rename_i x _ _
    cases x with
    | tile t p =>
      obtain ⟨b, hset, happly⟩ := bind_eq_ok_iff.1 happly
      obtain rfl := Except.ok.inj happly
      exact hP _ _ _ _ ih hset
    | var name path n =>
      obtain ⟨v, -, happly⟩ := bind_eq_ok_iff.1 happly
      obtain rfl := Except.ok.inj happly
      exact ih

theorem complete_step (hw : w.board.Complete) (h : w.step d origin s = .ok w') :
    w'.board.Complete :=
  (leads_step h).board (fun _ _ _ _ => Board.Complete.set) hw

theorem contains_step (h : w.step d origin s = .ok w') (t : Tile) :
    w'.board.contains t = w.board.contains t := by
  refine (leads_step h).board (P := fun b => b.contains t = w.board.contains t) ?_ rfl
  intro b t' p b' hb hs
  rw [← hb, Board.contains, Board.contains, Board.index?_set hs]

end World

/-- Takes a change back. -/
def Change.revert (c : Change) (w : World) : Except EvalError World := do
  let w := c.snapshot.getD w
  let piece ← w.board.get (c.step.target c.origin)
  let b ← w.board.set (c.step.target c.origin) c.displaced
  let b ← b.set c.origin piece
  return { w with board := b }

/-- Taking back changes, the newest first, leads from one world to another one. -/
inductive Reverts : List Change → World → World → Prop
  | nil (w : World) : Reverts [] w w
  | cons {c : Change} {cs : List Change} {w w₁ w₀ : World} (hc : c.revert w = .ok w₁)
      (h : Reverts cs w₁ w₀) : Reverts (c :: cs) w w₀

theorem Reverts.append {cs cs' : List Change} {w w₁ w₀ : World} (h : Reverts cs w w₁)
    (h' : Reverts cs' w₁ w₀) : Reverts (cs ++ cs') w w₀ := by
  induction h with
  | nil => exact h'
  | cons hc _ ih => exact .cons hc (ih h')

/-! ### The log -/

/-- `log'` is `log` with events in front of it, none of which reports a step that could not be taken
back. -/
def LogExtends (log log' : List Event) : Prop :=
  ∃ events, log' = events ++ log ∧ ∀ message, Event.undoFailed message ∉ events

namespace LogExtends
variable {log log' log'' : List Event}

theorem refl (log : List Event) : LogExtends log log := ⟨[], rfl, fun _ => List.not_mem_nil⟩

theorem trans (h : LogExtends log log') (h' : LogExtends log' log'') : LogExtends log log'' := by
  obtain ⟨events, rfl, hno⟩ := h
  obtain ⟨events', rfl, hno'⟩ := h'
  refine ⟨events' ++ events, (List.append_assoc ..).symm, fun message hm => ?_⟩
  rcases List.mem_append.1 hm with hm | hm
  · exact hno' message hm
  · exact hno message hm

theorem cons {e : Event} (he : ∀ message, Event.undoFailed message ≠ e) (log : List Event) :
    LogExtends log (e :: log) :=
  ⟨[e], rfl, fun message hm => he message (List.mem_singleton.1 hm)⟩

theorem undoFailed_notMem (h : LogExtends log log') {message : String}
    (hlog : Event.undoFailed message ∉ log) : Event.undoFailed message ∉ log' := by
  obtain ⟨events, rfl, hno⟩ := h
  intro hm
  rcases List.mem_append.1 hm with hm | hm
  · exact hno message hm
  · exact hlog hm

end LogExtends

/-! ### Actions -/

namespace Play
variable {α β : Type} {g : Game}

@[simp] theorem pure_apply (a : α) (g : Game) : (pure a : Play α) g = (.ok a, g) := rfl

@[simp] theorem bind_apply (p : Play α) (f : α → Play β) (g : Game) : (p >>= f) g =
    match p g with
    | (.ok a, g') => f a g'
    | (.error e, g') => (.error e, g') := rfl

@[simp] theorem game_apply (g : Game) : game g = (.ok g, g) := rfl

@[simp] theorem update_apply (f : Game → Game) (g : Game) : update f g = (.ok (), f g) := rfl

@[simp] theorem fail_apply (e : GameError) (g : Game) : (fail e : Play α) g = (.error e, g) := rfl

@[simp] theorem check_ok (a : α) : check (.ok a) = (pure a : Play α) := rfl

@[simp] theorem check_error (e : EvalError) : (check (.error e) : Play α) = fail (.eval e) := rfl

@[simp] theorem attempt_apply (p : Play α) (g : Game) : attempt p g = (.ok (p g).1, (p g).2) := rfl

@[simp] theorem setWorld_apply (w : World) (g : Game) :
    setWorld w g = (.ok (), { g with world := w }) := rfl

theorem pieceAt_of_ok {t : Tile} {p : Option PieceId} (h : g.world.board.get t = .ok p) :
    pieceAt t g = (.ok p, g) := by
  simp [pieceAt, Game.board, h]

theorem pieceAt_of_error {t : Tile} {e : EvalError} (h : g.world.board.get t = .error e) :
    pieceAt t g = (.error (.eval e), g) := by
  simp [pieceAt, Game.board, h]

theorem setTile_of_ok {t : Tile} {p : Option PieceId} {b : Board}
    (h : g.world.board.set t p = .ok b) :
    setTile t p g = (.ok (), { g with world := { g.world with board := b } }) := by
  simp [setTile, Game.board, h]

end Play

/-! ### Making a step -/

namespace Play
variable {g : Game} {origin : Tile} {s : Step}

/-- A step either fails and changes nothing, or leads to the world of `World.step` and adds a change
that leads back. -/
theorem makeStep_spec (hg : g.world.board.Complete) (origin : Tile) (s : Step) :
    (∃ e, g.world.step g.definitions origin s = .error e ∧ makeStep origin s g = (.error e, g)) ∨
    ∃ w c, g.world.step g.definitions origin s = .ok w ∧ c.revert w = .ok g.world ∧
      makeStep origin s g =
        (.ok (s.target origin), { g with world := w, changes := c :: g.changes }) := by
  unfold World.step makeStep
  cases ho : g.world.board.get origin with
  | error e => exact .inl ⟨_, rfl, by simp [pieceAt_of_error ho]⟩
  | ok occupant =>
  cases occupant with
  | none => exact .inl ⟨_, rfl, by simp [pieceAt_of_ok ho]⟩
  | some piece =>
  obtain ⟨b₁, h₁⟩ := Board.exists_set_of_get ho none
  cases ht : g.world.board.get (s.target origin) with
  | error e =>
    refine .inl ⟨.eval e, ?_, by simp [pieceAt_of_ok ho, pieceAt_of_error ht]⟩
    simp only [World.carry, h₁, (Board.set_eq_error_iff h₁).2 ht, bind, Except.bind]
  | ok displaced =>
  obtain ⟨b₂, h₂⟩ := Board.exists_set_of_set h₁ (Board.contains_of_get ht) (some piece)
  obtain ⟨b₃, h₃, h₄⟩ := Board.restore hg ho ht h₁ h₂
  have hcarry : g.world.carry origin (s.target origin) piece = .ok { g.world with board := b₂ } := by
    simp only [World.carry, h₁, h₂, bind, Except.bind, pure, Except.pure]
  have hget : b₂.get (s.target origin) = .ok (some piece) := Board.get_set (hg.set h₁) h₂
  have hrevert : ∀ {w : World} {c : Change}, c = ⟨s, origin, displaced, c.snapshot⟩ →
      c.snapshot.getD w = { g.world with board := b₂ } → c.revert w = .ok g.world := by
    rintro w c hc hw
    rw [Change.revert, hw, hc]
    simp only [hget, h₃, h₄, bind, Except.bind, pure, Except.pure]
  cases he : s.effect with
  | none =>
    refine .inr ⟨_, ⟨s, origin, displaced, none⟩, ?_, hrevert rfl rfl, ?_⟩
    · simp only [hcarry, World.act, bind, Except.bind]
    · simp [pieceAt_of_ok ho, pieceAt_of_ok ht, setTile_of_ok h₁, setTile_of_ok, h₂]
  | some c =>
    cases hp : ({ g.world with board := b₂ } : World).perform g.rules.definitions
      { tile := some (s.target origin), player := some (g.rules.definitions.owner piece) } c with
    | mk result w' =>
    cases result with
    | error e =>
      refine .inl ⟨.eval e, ?_, ?_⟩
      · simp only [hcarry, World.act, bind, Except.bind, Game.definitions, hp]
      · simp [pieceAt_of_ok ho, pieceAt_of_ok ht, setTile_of_ok h₁, setTile_of_ok, h₂, h₃, h₄,
          Game.definitions, hp]
    | ok _ =>
      refine .inr ⟨w', ⟨s, origin, displaced, some { g.world with board := b₂ }⟩, ?_,
        hrevert rfl rfl, ?_⟩
      · simp only [hcarry, World.act, bind, Except.bind, Game.definitions, hp]
      · simp [pieceAt_of_ok ho, pieceAt_of_ok ht, setTile_of_ok h₁, setTile_of_ok, h₂,
          Game.definitions, hp]

/-! ### Taking steps back -/

variable {c : Change} {cs rest : List Change} {w w₀ : World}

theorem undoStep_of_revert (hc : g.changes = c :: rest) (h : c.revert g.world = .ok w) :
    undoStep g = (.ok (), { g with world := w, changes := rest }) := by
  unfold Change.revert at h
  cases hw : c.snapshot.getD g.world with
  | mk vars board =>
  simp only [hw] at h
  cases ht : board.get (c.step.target c.origin) with
  | error e => simp only [ht, bind, Except.bind] at h; cases h
  | ok piece =>
  cases h₁ : board.set (c.step.target c.origin) c.displaced with
  | error e => simp only [ht, h₁, bind, Except.bind] at h; cases h
  | ok b₁ =>
  cases h₂ : b₁.set c.origin piece with
  | error e => simp only [ht, h₁, h₂, bind, Except.bind] at h; cases h
  | ok b₂ =>
  simp only [ht, h₁, h₂, bind, Except.bind] at h
  cases h
  cases hs : c.snapshot with
  | none =>
    rw [hs, Option.getD_none] at hw
    simp [undoStep, hc, hs, pieceAt_of_ok, setTile_of_ok, hw, ht, h₁, h₂]
  | some w =>
    rw [hs, Option.getD_some] at hw
    simp [undoStep, hc, hs, pieceAt_of_ok, setTile_of_ok, hw, ht, h₁, h₂]

theorem undoSteps_of_reverts (h : Reverts cs w w₀) (hw : g.world = w) (hc : g.changes = cs ++ rest) :
    undoSteps cs.length g = (.ok (), { g with world := w₀, changes := rest }) := by
  induction h generalizing g with
  | nil =>
    subst hw
    rw [List.nil_append] at hc
    subst hc
    rfl
  | cons hr _ ih =>
    subst hw
    rw [List.length_cons, undoSteps, bind_apply, undoStep_of_revert hc hr]
    exact ih rfl rfl

theorem rewindBy_of_reverts (h : Reverts cs w w₀) (hw : g.world = w)
    (hc : g.changes = cs ++ rest) :
    rewindBy cs.length g = (.ok (), { g with world := w₀, changes := rest }) := by
  induction h generalizing g with
  | nil =>
    subst hw
    rw [List.nil_append] at hc
    subst hc
    rfl
  | cons hr _ ih =>
    subst hw
    rw [List.length_cons, rewindBy, bind_apply, attempt_apply, undoStep_of_revert hc hr]
    exact ih rfl rfl

theorem rewind_of_reverts (h : Reverts cs g.world w₀) (hc : g.changes = cs ++ rest) :
    rewind rest.length g = (.ok (), { g with world := w₀, changes := rest }) := by
  rw [rewind, bind_apply, game_apply]
  dsimp only
  rw [hc, List.length_append, Nat.add_sub_cancel]
  exact rewindBy_of_reverts h rfl hc

/-! ### Moves -/

/-- The steps of a move lead to the world of `World.steps`, or fail where that does. Taking back the
changes they leave leads back in both cases. -/
theorem makeSteps_spec (hg : g.world.board.Complete) (origin : Tile) (ss : List Step) :
    ∃ w cs, w.board.Complete ∧ Reverts cs w g.world ∧
      ((∃ e, g.world.steps g.definitions origin ss = .error e ∧
        makeSteps origin ss g = (.error e, { g with world := w, changes := cs ++ g.changes })) ∨
      (g.world.steps g.definitions origin ss = .ok w ∧ cs.length = ss.length ∧
        makeSteps origin ss g = (.ok (), { g with world := w, changes := cs ++ g.changes }))) := by
  induction ss generalizing g origin with
  | nil => exact ⟨g.world, [], hg, .nil _, .inr ⟨rfl, rfl, rfl⟩⟩
  | cons s ss ih =>
    rw [World.steps, makeSteps, bind_apply]
    rcases makeStep_spec hg origin s with ⟨e, hstep, hmake⟩ | ⟨w₁, c, hstep, hc, hmake⟩
    · refine ⟨g.world, [], hg, .nil _, .inl ⟨e, ?_, ?_⟩⟩
      · rw [hstep]; rfl
      · rw [hmake]; rfl
    rw [hstep, hmake]
    have hw₁ : w₁.board.Complete := World.complete_step hg hstep
    obtain ⟨w, cs, hw, hcs, h⟩ :=
      ih (g := { g with world := w₁, changes := c :: g.changes }) hw₁ (s.target origin)
    refine ⟨w, cs ++ [c], hw, hcs.append (.cons hc (.nil _)), ?_⟩
    rw [List.append_assoc, List.singleton_append]
    rcases h with ⟨e, hsteps, hplay⟩ | ⟨hsteps, hlen, hplay⟩
    · exact .inl ⟨e, hsteps, hplay⟩
    · exact .inr ⟨hsteps, by simp [hlen], hplay⟩

theorem leads_makeSteps (hg : g.world.board.Complete) (origin : Tile) (ss : List Step) :
    g.world.Leads g.definitions (makeSteps origin ss g).2.world := by
  induction ss generalizing g origin with
  | nil => exact .refl
  | cons s ss ih =>
    rw [makeSteps, bind_apply]
    rcases makeStep_spec hg origin s with ⟨e, -, hmake⟩ | ⟨w, c, hstep, -, hmake⟩
    · rw [hmake]
      exact .refl
    · rw [hmake]
      have hw : w.board.Complete := World.complete_step hg hstep
      exact (World.leads_step hstep).trans
        (ih (g := { g with world := w, changes := c :: g.changes }) hw _)

theorem makeMove_spec (hg : g.world.board.Complete) (m : Move) :
    (∃ e, g.world.steps g.definitions m.start m.steps = .error e ∧ makeMove m g = (.error e, g)) ∨
    ∃ w cs log, g.world.steps g.definitions m.start m.steps = .ok w ∧ w.board.Complete ∧
      Reverts cs w g.world ∧ cs.length = m.steps.length ∧ LogExtends g.log log ∧
      makeMove m g = (.ok (), { g with
        world := w, changes := cs ++ g.changes, moves := m.steps.length :: g.moves
        turn := (g.turn + 1) % max 1 g.players.length, log := log }) := by
  obtain ⟨w, cs, hw, hcs, ⟨e, hsteps, hplay⟩ | ⟨hsteps, hlen, hplay⟩⟩ :=
    makeSteps_spec hg m.start m.steps
  · refine .inl ⟨e, hsteps, ?_⟩
    simp only [makeMove, bind_apply, game_apply, attempt_apply, hplay]
    have hrewind := rewind_of_reverts (g := { g with world := w, changes := cs ++ g.changes }) hcs rfl
    rw [hrewind]
    rfl
  · by_cases htrace : g.options.trace = true
    · refine .inr ⟨w, cs, .applied (g.playerName g.turn) m.render :: g.log, hsteps, hw, hcs, hlen,
        .cons (by simp) _, ?_⟩
      simp only [makeMove, bind_apply, game_apply, attempt_apply, hplay, update_apply, htrace, if_true,
        report]
      rfl
    · refine .inr ⟨w, cs, g.log, hsteps, hw, hcs, hlen, .refl _, ?_⟩
      simp only [makeMove, bind_apply, game_apply, attempt_apply, hplay, update_apply, htrace]
      rfl

theorem leads_makeMove (hg : g.world.board.Complete) (m : Move) :
    g.world.Leads g.definitions (makeMove m g).2.world := by
  rcases makeMove_spec hg m with ⟨e, -, hmake⟩ | ⟨w, cs, log, hsteps, -, -, -, -, hmake⟩
  · rw [hmake]
    exact .refl
  · rw [hmake]
    exact World.leads_steps hsteps

theorem undoMove_of_nil (h : g.moves = []) : undoMove g = (.error .noMove, g) := by
  simp [undoMove, h]

theorem undoMove_of_reverts {moves : List Nat} (hm : g.moves = cs.length :: moves)
    (hc : g.changes = cs ++ rest) (h : Reverts cs g.world w₀) :
    ∃ log, LogExtends g.log log ∧ undoMove g = (.ok (), { g with
      world := w₀, changes := rest, moves := moves, log := log
      turn := (g.turn + max 1 g.players.length - 1) % max 1 g.players.length }) := by
  have hundo := undoSteps_of_reverts (g := { g with moves := moves }) h rfl hc
  by_cases htrace : g.options.trace = true
  · refine ⟨.undone (g.playerName ((g.turn + max 1 g.players.length - 1) % max 1 g.players.length))
      cs.length :: g.log, .cons (by simp) _, ?_⟩
    simp only [undoMove, bind_apply, game_apply, hm, update_apply, hundo, htrace, if_true, report]
    rfl
  · refine ⟨g.log, .refl _, ?_⟩
    simp only [undoMove, bind_apply, game_apply, hm, update_apply, hundo, htrace]
    rfl

/-! ### What taking back reports -/

/-- At every game the action extends the log. -/
def Logs (p : Play α) : Prop := ∀ g, LogExtends g.log (p g).2.log

theorem logs_pure (a : α) : Logs (pure a) := fun g => .refl g.log

theorem logs_game : Logs game := fun g => .refl g.log

theorem logs_fail (e : GameError) : Logs (fail e : Play α) := fun g => .refl g.log

theorem logs_check (x : Except EvalError α) : Logs (check x) := by
  cases x with
  | ok a => exact logs_pure a
  | error e => exact logs_fail _

theorem logs_update {f : Game → Game} (hf : ∀ g, (f g).log = g.log) : Logs (update f) := by
  intro g
  rw [update_apply, hf]
  exact .refl g.log

theorem logs_report {e : Event} (he : ∀ message, Event.undoFailed message ≠ e) : Logs (report e) :=
  fun g => .cons he g.log

theorem Logs.bind {p : Play α} {f : α → Play β} (hp : Logs p) (hf : ∀ a, Logs (f a)) :
    Logs (p >>= f) := by
  intro g
  have h := hp g
  rw [bind_apply]
  match hpg : p g with
  | (.ok a, g') =>
    rw [hpg] at h
    exact h.trans (hf a g')
  | (.error e, g') =>
    rw [hpg] at h
    exact h

theorem logs_pieceAt (t : Tile) : Logs (pieceAt t) := logs_game.bind fun _ => logs_check _

theorem logs_setTile (t : Tile) (p : Option PieceId) : Logs (setTile t p) :=
  logs_game.bind fun _ => (logs_check _).bind fun _ => logs_update fun _ => rfl

theorem logs_undoStep : Logs undoStep := by
  refine logs_game.bind fun g => ?_
  split
  · exact logs_fail _
  rename_i c changes _
  have hback : ∀ t t' : Tile, Logs (do
      let piece ← pieceAt t
      setTile t c.displaced
      setTile t' piece) :=
    fun t t' => (logs_pieceAt t).bind fun _ => (logs_setTile t _).bind fun _ => logs_setTile t' _
  refine Logs.bind (logs_update ?_) fun _ => ?_
  · exact fun _ => rfl
  cases c.snapshot with
  | none => exact hback _ _
  | some w =>
    refine Logs.bind (logs_update ?_) fun _ => hback _ _
    exact fun _ => rfl

theorem logs_undoSteps (n : Nat) : Logs (undoSteps n) := by
  induction n with
  | zero => exact logs_pure ()
  | succ n ih => exact logs_undoStep.bind fun _ => ih

theorem logs_undoMove : Logs undoMove := by
  refine logs_game.bind fun g => ?_
  split
  · exact logs_fail _
  refine Logs.bind (logs_update ?_) fun _ => (logs_undoSteps _).bind fun _ =>
    Logs.bind (logs_update ?_) fun _ => logs_game.bind fun g' => ?_
  · exact fun _ => rfl
  · exact fun _ => rfl
  split
  · exact logs_report (by simp)
  · exact logs_pure _

theorem logs_undoMoves (n : Nat) : Logs (undoMoves n) := by
  induction n with
  | zero => exact logs_pure ()
  | succ n ih => exact logs_undoMove.bind fun _ => ih

theorem logs_reset : Logs reset := logs_game.bind fun _ => logs_undoMoves _

/-- Taking back the steps of a move that fails succeeds, so nothing else is reported either. -/
theorem logExtends_makeMove (hg : g.world.board.Complete) (m : Move) :
    LogExtends g.log (makeMove m g).2.log := by
  rcases makeMove_spec hg m with ⟨e, -, hmake⟩ | ⟨w, cs, log, -, -, -, -, hlog, hmake⟩
  · rw [hmake]
    exact .refl _
  · rw [hmake]
    exact hlog

end Play
end BoardGame
