import BoardGame.Proofs.Game.Steps

/-!
# The history as a stack of snapshots

A game keeps changes, from which earlier positions are worked out. `Timeline` keeps the positions
themselves: making a move pushes one, taking it back pops one. `Represents rules options g s`: the
changes of `g` lead back through the positions of `s`. Every action keeps this (`Represents.act`), so
a game and its snapshots agree after any of them.
-/

namespace BoardGame

/-! ### Timeline -/

/-- The board and the variables, and whose turn it is. -/
structure Snapshot where
  world : World
  turn : PlayerId
deriving DecidableEq

def Game.snapshot (g : Game) : Snapshot := ⟨g.world, g.turn⟩

/-- The position after a move. -/
def Snapshot.make (d : Definitions) (m : Move) (p : Snapshot) : Except GameError Snapshot := do
  return ⟨← p.world.steps d m.start m.steps, (p.turn + 1) % max 1 d.players.length⟩

/-- What changes a position. -/
inductive Action where
  | make (move : Move)
  | undo
  | reset

def Action.play : Action → Play Unit
  | make m => Play.makeMove m
  | undo => Play.undoMove
  | reset => Play.reset

/-- The game after some actions, those that fail included. -/
def Game.after (g : Game) (actions : List Action) : Game := actions.foldl (fun g a => (a.play g).2) g

/-- A stack of positions with `first` at its bottom and the newest at the head of `later`. -/
structure Timeline where
  first : Snapshot
  later : List Snapshot

namespace Timeline
variable {d : Definitions} {s : Timeline}

def top (s : Timeline) : Snapshot := s.later.headD s.first

def push (s : Timeline) (p : Snapshot) : Timeline := { s with later := p :: s.later }

/-- Does an action on the stack. -/
def act (d : Definitions) (s : Timeline) : Action → Except GameError Unit × Timeline
  | .make m =>
    match s.top.make d m with
    | .ok p => (.ok (), s.push p)
    | .error e => (.error e, s)
  | .undo =>
    match s.later with
    | [] => (.error .noMove, s)
    | _ :: ps => (.ok (), { s with later := ps })
  | .reset => (.ok (), { s with later := [] })

/-- The stack after some actions. -/
def after (d : Definitions) (s : Timeline) (actions : List Action) : Timeline :=
  actions.foldl (fun s a => (s.act d a).2) s

theorem first_act (a : Action) : (s.act d a).2.first = s.first := by
  cases a with
  | make m =>
    simp only [act]
    split <;> rfl
  | undo =>
    simp only [act]
    split <;> rfl
  | reset => rfl

theorem top_mem (s : Timeline) : s.top ∈ s.first :: s.later := by
  obtain ⟨first, later⟩ := s
  cases later with
  | nil => exact List.mem_singleton_self _
  | cons p ps => exact List.mem_cons_of_mem _ (List.mem_cons_self ..)

/-- The positions after an action are such as those before it lead to. -/
theorem leads_act {w : World} (h : ∀ q ∈ s.first :: s.later, w.Leads d q.world) (a : Action) :
    ∀ q ∈ (s.act d a).2.first :: (s.act d a).2.later, w.Leads d q.world := by
  cases a with
  | make m =>
    rw [act]
    split
    · rename_i q hq
      obtain ⟨w', hw', hq⟩ := bind_eq_ok_iff.1 hq
      obtain rfl := Except.ok.inj hq
      refine List.forall_mem_cons.2 ⟨h _ (List.mem_cons_self ..), List.forall_mem_cons.2 ⟨?_, ?_⟩⟩
      · exact (h _ (top_mem s)).trans (World.leads_steps hw')
      · exact fun q hq => h q (List.mem_cons_of_mem _ hq)
    · exact h
  | undo =>
    rw [act]
    split
    · exact h
    · rename_i hlater
      intro q hq
      refine h q ?_
      rw [hlater]
      exact (List.mem_cons.1 hq).elim (· ▸ List.mem_cons_self ..) fun hq =>
        List.mem_cons_of_mem _ (List.mem_cons_of_mem _ hq)
  | reset => exact fun q hq => h q ((List.mem_singleton.1 hq) ▸ List.mem_cons_self ..)

theorem first_after (actions : List Action) : (s.after d actions).first = s.first := by
  induction actions generalizing s with
  | nil => rfl
  | cons a actions ih => exact ih.trans (first_act a)

end Timeline

/-! ### Games that represent snapshots -/

/-- The changes and the lengths of the moves lead back from the newest of the positions to `first`.
With `n` players, the turn before a player's is found modulo `n`. -/
inductive Recorded (n : Nat) (first : Snapshot) : List Snapshot → List Change → List Nat → Prop
  | start : Recorded n first [] [] []
  | move {later : List Snapshot} {p : Snapshot} {changes cs : List Change} {moves : List Nat}
      (h : Recorded n first later changes moves)
      (hcs : Reverts cs p.world (later.headD first).world)
      (hturn : (p.turn + n - 1) % n = (later.headD first).turn) :
      Recorded n first (p :: later) (cs ++ changes) (cs.length :: moves)

theorem Recorded.length_eq {n : Nat} {first : Snapshot} {later : List Snapshot}
    {changes : List Change} {moves : List Nat} (h : Recorded n first later changes moves) :
    moves.length = later.length := by
  induction h with
  | start => rfl
  | move _ _ _ ih => rw [List.length_cons, List.length_cons, ih]

/-- A position that the game can be in. -/
structure Snapshot.Valid (d : Definitions) (p : Snapshot) : Prop where
  complete : p.world.board.Complete
  turn_lt : p.turn < max 1 d.players.length

/-- The game stands at the top of the stack and its history leads down the stack. -/
structure Represents (rules : Rules) (options : Options) (g : Game) (s : Timeline) : Prop where
  rules_eq : g.rules = rules
  options_eq : g.options = options
  snapshot_eq : g.snapshot = s.top
  valid : ∀ p ∈ s.first :: s.later, p.Valid rules.definitions
  recorded : Recorded (max 1 rules.definitions.players.length) s.first s.later g.changes g.moves

theorem represents_new {p : Program} {rules : Rules} (h : p.build = .ok rules) (options : Options) :
    Represents rules options (Game.new rules options) ⟨(Game.new rules options).snapshot, []⟩ where
  rules_eq := rfl
  options_eq := rfl
  snapshot_eq := rfl
  valid := by
    intro p hp
    obtain rfl := List.mem_singleton.1 hp
    exact ⟨Program.complete_build h, Nat.le_max_left 1 _⟩
  recorded := .start

theorem mod_pred_mod_succ {t n : Nat} (h : t < n) : ((t + 1) % n + n - 1) % n = t := by
  by_cases hn : t + 1 = n
  · rw [hn, Nat.mod_self, Nat.zero_add, Nat.mod_eq_of_lt (by omega)]
    omega
  · have hlt : t + 1 < n := by omega
    rw [Nat.mod_eq_of_lt hlt, show t + 1 + n - 1 = t + n by omega, Nat.add_mod_right,
      Nat.mod_eq_of_lt h]

namespace Represents
variable {rules : Rules} {options : Options} {g : Game} {s : Timeline}

theorem complete (h : Represents rules options g s) : g.world.board.Complete := by
  have hv := (h.valid _ (Timeline.top_mem s)).complete
  rwa [← h.snapshot_eq] at hv

theorem turn_lt (h : Represents rules options g s) :
    g.turn < max 1 rules.definitions.players.length := by
  have hv := (h.valid _ (Timeline.top_mem s)).turn_lt
  rwa [← h.snapshot_eq] at hv

/-- A move pushes the position it leads to, or fails and changes nothing. -/
theorem makeMove (h : Represents rules options g s) (m : Move) :
    (∃ g', Play.makeMove m g = (.ok (), g') ∧
      s.act rules.definitions (.make m) = (.ok (), s.push g'.snapshot) ∧
      Represents rules options g' (s.push g'.snapshot)) ∨
    ∃ e, Play.makeMove m g = (.error e, g) ∧
      s.act rules.definitions (.make m) = (.error e, s) := by
  obtain rfl := h.rules_eq
  have hact : s.act g.rules.definitions (.make m) =
      match g.snapshot.make g.definitions m with
      | .ok p => (.ok (), s.push p)
      | .error e => (.error e, s) := by
    rw [h.snapshot_eq]
    rfl
  rw [hact, Snapshot.make]
  rcases Play.makeMove_spec h.complete m with ⟨e, hsteps, hmake⟩ |
    ⟨w, cs, log, hsteps, hw, hcs, hlen, -, hmake⟩
  · refine .inr ⟨e, hmake, ?_⟩
    simp only [Game.snapshot, hsteps, bind, Except.bind]
  · refine .inl ⟨_, hmake, ?_, ?_⟩
    · simp only [Game.snapshot, hsteps, bind, Except.bind]
      rfl
    exact {
      rules_eq := rfl
      options_eq := h.options_eq
      snapshot_eq := rfl
      valid := by
        intro p hp
        rcases List.mem_cons.1 hp with rfl | hp
        · exact h.valid _ (List.mem_cons_self ..)
        rcases List.mem_cons.1 hp with rfl | hp
        · exact ⟨hw, Nat.mod_lt _ (by omega)⟩
        · exact h.valid p (List.mem_cons_of_mem _ hp)
      recorded := by
        have htop : (s.later.headD s.first) = ⟨g.world, g.turn⟩ := h.snapshot_eq.symm
        show Recorded _ _ _ _ (m.steps.length :: g.moves)
        rw [← hlen]
        refine h.recorded.move ?_ ?_
        · rw [htop]
          exact hcs
        · rw [htop]
          exact mod_pred_mod_succ h.turn_lt }

theorem undoMove_of_nil (h : Represents rules options g s) (hs : s.later = []) :
    Play.undoMove g = (.error .noMove, g) := by
  refine Play.undoMove_of_nil (List.length_eq_zero_iff.1 ?_)
  rw [h.recorded.length_eq, hs]
  rfl

theorem undoMove (h : Represents rules options g s) {p : Snapshot} {ps : List Snapshot}
    (hs : s.later = p :: ps) :
    ∃ g', Play.undoMove g = (.ok (), g') ∧ Represents rules options g' { s with later := ps } := by
  obtain rfl := h.rules_eq
  obtain ⟨first, later⟩ := s
  obtain rfl : later = p :: ps := hs
  have hrec := h.recorded
  generalize hchanges : g.changes = changes at hrec
  generalize hmoves : g.moves = moves at hrec
  cases hrec with
  | move hrest hcs hturn =>
    have hpos : g.snapshot = p := h.snapshot_eq
    rw [← hpos] at hcs
    obtain ⟨log, -, hundo⟩ := Play.undoMove_of_reverts hmoves hchanges hcs
    refine ⟨_, hundo, rfl, h.options_eq, ?_, ?_, hrest⟩
    · rw [← hpos] at hturn
      exact congrArg (Snapshot.mk _) hturn
    · intro q hq
      refine h.valid q ?_
      rcases List.mem_cons.1 hq with rfl | hq
      · exact List.mem_cons_self ..
      · exact List.mem_cons_of_mem _ (List.mem_cons_of_mem _ hq)

theorem undoMoves (h : Represents rules options g s) :
    ∃ g', Play.undoMoves s.later.length g = (.ok (), g') ∧
      Represents rules options g' { s with later := [] } := by
  obtain ⟨first, later⟩ := s
  induction later generalizing g with
  | nil => exact ⟨g, rfl, h⟩
  | cons p ps ih =>
    obtain ⟨g₁, hundo, h₁⟩ := h.undoMove rfl
    obtain ⟨g', hundo', h'⟩ := ih h₁
    refine ⟨g', ?_, h'⟩
    rw [List.length_cons, Play.undoMoves, Play.bind_apply, hundo]
    exact hundo'

theorem reset (h : Represents rules options g s) :
    ∃ g', Play.reset g = (.ok (), g') ∧ Represents rules options g' { s with later := [] } := by
  obtain ⟨g', hundo, h'⟩ := h.undoMoves
  refine ⟨g', ?_, h'⟩
  rw [Play.reset, Play.bind_apply, Play.game_apply]
  dsimp only
  rw [h.recorded.length_eq]
  exact hundo

/-- An action gives the same result on the game and on the stack, and they agree after it. -/
theorem act (h : Represents rules options g s) (a : Action) :
    (a.play g).1 = (s.act rules.definitions a).1 ∧
      Represents rules options (a.play g).2 (s.act rules.definitions a).2 := by
  cases a with
  | make m =>
    rcases h.makeMove m with ⟨g', hplay, hact, h'⟩ | ⟨e, hplay, hact⟩
    · rw [Action.play, hplay, hact]
      exact ⟨rfl, h'⟩
    · rw [Action.play, hplay, hact]
      exact ⟨rfl, h⟩
  | undo =>
    rw [Action.play, Timeline.act]
    cases hs : s.later with
    | nil =>
      rw [h.undoMove_of_nil hs]
      exact ⟨rfl, h⟩
    | cons p ps =>
      obtain ⟨g', hplay, h'⟩ := h.undoMove hs
      rw [hplay]
      exact ⟨rfl, h'⟩
  | reset =>
    obtain ⟨g', hplay, h'⟩ := h.reset
    rw [Action.play, hplay]
    exact ⟨rfl, h'⟩

theorem after (h : Represents rules options g s) (actions : List Action) :
    Represents rules options (g.after actions) (s.after rules.definitions actions) := by
  induction actions generalizing g s with
  | nil => exact h
  | cons a actions ih => exact ih (h.act a).2

end Represents

/-! ### The theorem -/

/-- A rider crosses empty tiles and gains speed with each of them. Once it is fast enough it may strike
an enemy in front of it, which stops it and sets a guard where the board begins. -/
def skirmish : Program where
  players := [⟨"White", 0, 0⟩, ⟨"Black", 0, 0⟩]
  pieces := [⟨⟨"Rider", "White"⟩, 0, 0⟩, ⟨⟨"Guard", "Black"⟩, 0, 0⟩]
  declarations := [⟨.var ⟨"speed", .literal 0⟩, 0, 0⟩,
    ⟨.predicate ⟨"reached", ["n"],
      .binary .and (.var "enemy") (.binary .le (.var "n") (.var "speed"))⟩, 0, 0⟩,
    ⟨.effect ⟨"gallop", ["n"], [⟨"speed", [], .binary .add (.var "speed") (.var "n")⟩]⟩, 0, 0⟩,
    ⟨.effect ⟨"strike", [], [⟨"Board", [.literal 0, .literal 0], .var "Guard"⟩,
      ⟨"speed", [], .literal 0⟩]⟩, 0, 0⟩,
    ⟨.rule ⟨"Rider", .concat
      (.plus (.letter ⟨.literal 1, .literal 0, .named "empty", some ⟨"gallop", [.literal 1]⟩⟩))
      (.optional (.letter ⟨.literal 1, .literal 0, .call ⟨"reached", [.literal 2]⟩,
        some ⟨"strike", []⟩⟩))⟩, 0, 0⟩,
    ⟨.rule ⟨"Guard", .union (.letter ⟨.literal (-1), .literal 0, .named "empty", none⟩)
      (.letter ⟨.literal 1, .literal 0, .named "empty", none⟩)⟩, 0, 0⟩]
  board := ⟨⟨4, 1, [⟨.piece "Rider" none, 0, 0⟩, ⟨.empty, 0, 0⟩, ⟨.empty, 0, 0⟩,
    ⟨.piece "Guard" none, 0, 0⟩]⟩, 0, 0⟩

def gallop : Step := ⟨1, 0, .var "empty", some ⟨"gallop", [.literal 1]⟩⟩

def strike : Step := ⟨1, 0, .call "reached" [.literal 2], some ⟨"strike", []⟩⟩

def patrol (dx : Int) : Step := ⟨dx, 0, .var "empty", none⟩

def skirmishRules : Rules where
  definitions := {
    players := ["White", "Black"], pieces := [⟨"Rider", 0⟩, ⟨"Guard", 1⟩]
    predicates := skirmish.predicates, effects := skirmish.effects.reverse, victories := [none, none] }
  pieces := [
    ⟨"Rider", 0, ⟨#[⟨[(gallop, 1)], false⟩, ⟨[(gallop, 1), (strike, 2)], true⟩, ⟨[], true⟩], 0⟩, some 4⟩,
    ⟨"Guard", 1, ⟨#[⟨[(patrol (-1), 1), (patrol 1, 1)], false⟩, ⟨[], true⟩], 0⟩, some 4⟩]
  vars := [("speed", .int 0)]
  board := ⟨4, 1, #[some 0, none, none, some 1]⟩

theorem build_skirmish : skirmish.build = .ok skirmishRules := rfl

/-- Takes the guard. -/
def charge : Move := ⟨(0, 0), [gallop, gallop, strike]⟩

/-- After any actions a game stands at the top of its timeline. A move that is made pushes what it
leads to, and one that fails leaves the whole game as it was; taking back pops, or fails and leaves
the game as it was where there is no move; a reset leads to the bottom. -/
theorem game_refines_timeline {p : Program} {rules : Rules} (h : p.build = .ok rules)
    (options : Options) (actions : List Action) :
    let start := Game.new rules options
    let g := start.after actions
    let s := Timeline.after rules.definitions ⟨start.snapshot, []⟩ actions
    g.snapshot = s.top ∧
    (∀ m, (∃ g', Play.makeMove m g = (.ok (), g') ∧
        s.act rules.definitions (.make m) = (.ok (), s.push g'.snapshot)) ∨
      ∃ e, Play.makeMove m g = (.error e, g) ∧
        s.act rules.definitions (.make m) = (.error e, s)) ∧
    (s.later = [] ∧ Play.undoMove g = (.error .noMove, g) ∨
      ∃ g' q ps, s.later = q :: ps ∧ Play.undoMove g = (.ok (), g') ∧
        g'.snapshot = ps.headD start.snapshot) ∧
    ∃ g', Play.reset g = (.ok (), g') ∧ g'.snapshot = start.snapshot := by
  intro start g s
  have hs : s.first = start.snapshot := Timeline.first_after actions
  have hr : Represents rules options g s := (represents_new h options).after actions
  refine ⟨hr.snapshot_eq, fun m => ?_, ?_, ?_⟩
  · rcases hr.makeMove m with ⟨g', hplay, hact, -⟩ | hfail
    · exact .inl ⟨g', hplay, hact⟩
    · exact .inr hfail
  · cases hl : s.later with
    | nil => exact .inl ⟨rfl, hr.undoMove_of_nil hl⟩
    | cons q ps =>
      obtain ⟨g', hplay, h'⟩ := hr.undoMove hl
      exact .inr ⟨g', q, ps, rfl, hplay, hs ▸ h'.snapshot_eq⟩
  · obtain ⟨g', hplay, h'⟩ := hr.reset
    exact ⟨g', hplay, h'.snapshot_eq.trans hs⟩

/-- The rider has taken the guard, and the guard that its strike has set has moved and is back. A move
that leaves the board after its effect has raised the speed changes nothing in this game, and what is
taken back next is the charge, with all that its effects have done. -/
theorem game_refines_timeline_skirmish : skirmish.build = .ok skirmishRules ∧
    let start := Game.new skirmishRules {}
    let g := start.after [.make charge, .make ⟨(0, 0), [patrol 1]⟩, .undo]
    g.snapshot = ⟨⟨[("speed", .int 0)], ⟨4, 1, #[some 1, none, none, some 0]⟩⟩, 1⟩ ∧
    (∃ e, Play.makeMove ⟨(0, 0), [gallop, patrol (-2)]⟩ g = (.error e, g)) ∧
    ∃ g', Play.undoMove g = (.ok (), g') ∧ g'.snapshot = start.snapshot := by
  refine ⟨build_skirmish, ?_⟩
  intro start g
  let actions : List Action := [.make charge, .make ⟨(0, 0), [patrol 1]⟩, .undo]
  let s := Timeline.after skirmishRules.definitions ⟨start.snapshot, []⟩ actions
  have hlater : s.later = [⟨⟨[("speed", .int 0)], ⟨4, 1, #[some 1, none, none, some 0]⟩⟩, 1⟩] := by
    decide +kernel
  have hstumbles : (s.act skirmishRules.definitions (.make ⟨(0, 0), [gallop, patrol (-2)]⟩)).1 ≠
      .ok () := by decide +kernel
  obtain ⟨htop, hmake, hundo, -⟩ := game_refines_timeline build_skirmish {} actions
  refine ⟨?_, ?_, ?_⟩
  · rw [htop]
    exact congrArg (List.headD · start.snapshot) hlater
  · rcases hmake ⟨(0, 0), [gallop, patrol (-2)]⟩ with ⟨g', -, hact⟩ | ⟨e, hplay, -⟩
    · exact absurd (congrArg Prod.fst hact) hstumbles
    · exact ⟨e, hplay⟩
  · rcases hundo with ⟨hnil, -⟩ | ⟨g', q, ps, hcons, hplay, hback⟩
    · cases hlater.symm.trans hnil
    · cases hlater.symm.trans hcons
      exact ⟨g', hplay, hback⟩

end BoardGame
