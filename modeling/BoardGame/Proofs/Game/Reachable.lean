import BoardGame.Proofs.Game.Queries

/-!
# Reachable games

The games that making and taking back moves, asking and emptying the log lead to from the first
position. Each of them represents a timeline (`Reachable.represents`), so what holds of those games
holds wherever play has led.
-/

namespace BoardGame
variable {p : Program} {rules : Rules} {options : Options} {g : Game}

inductive Game.Reachable (rules : Rules) (options : Options) : Game → Prop
  | new : Reachable rules options (.new rules options)
  | act {g : Game} (hg : Reachable rules options g) (a : Action) : Reachable rules options (a.play g).2
  | ask {g : Game} (hg : Reachable rules options g) (q : Query) : Reachable rules options (q.after g)
  | takeLog {g : Game} (hg : Reachable rules options g) : Reachable rules options g.takeLog.2

namespace Represents
variable {s : Timeline}

theorem sound (h : Represents rules options g s) : g.Sound rules := ⟨h.rules_eq, h.complete, h.turn_lt⟩

theorem log (h : Represents rules options g s) (log : List Event) :
    Represents rules options { g with log := log } s :=
  ⟨h.rules_eq, h.options_eq, h.snapshot_eq, h.valid, h.recorded⟩

end Represents

/-- A program with a piece that goes one tile to the right and then asks for a variable that nobody
declares. -/
def pitfall : Program where
  players := [⟨"White", 0, 0⟩]
  pieces := [⟨⟨"Pawn", "White"⟩, 0, 0⟩]
  declarations := [⟨.rule ⟨"Pawn", .concat (.letter ⟨.literal 1, .literal 0, .named "true", none⟩)
    (.letter ⟨.literal 1, .literal 0, .named "gate", none⟩)⟩, 0, 0⟩]
  board := ⟨⟨3, 1, [⟨.piece "Pawn" none, 0, 0⟩, ⟨.empty, 0, 0⟩, ⟨.empty, 0, 0⟩]⟩, 0, 0⟩

def pitfallRules : Rules where
  definitions := { players := ["White"], pieces := [⟨"Pawn", 0⟩], victories := [none] }
  pieces := [⟨"Pawn", 0, ⟨#[⟨[(⟨1, 0, .var "true", none⟩, 1)], false⟩,
    ⟨[(⟨1, 0, .var "gate", none⟩, 2)], false⟩, ⟨[], true⟩], 0⟩, some 3⟩]
  vars := []
  board := ⟨3, 1, #[some 0, none, none]⟩

namespace Game.Reachable

/-- What holds of the first stack and is kept by every action holds of a stack that the game stands for. -/
theorem exists_represents {P : Timeline → Prop} (h : p.build = .ok rules)
    (hnew : P ⟨(Game.new rules options).snapshot, []⟩)
    (hact : ∀ s a, P s → P (s.act rules.definitions a).2) (hg : Reachable rules options g) :
    ∃ s, Represents rules options g s ∧ P s := by
  induction hg with
  | new => exact ⟨_, represents_new h options, hnew⟩
  | act hg a ih =>
    obtain ⟨s, hs, hP⟩ := ih
    exact ⟨_, (hs.act a).2, hact s a hP⟩
  | ask hg q ih =>
    obtain ⟨s, hs, hP⟩ := ih
    obtain ⟨log, -, hq⟩ := q.exists_after_eq h hs.sound
    rw [hq]
    exact ⟨s, hs.log log, hP⟩
  | takeLog hg ih =>
    obtain ⟨s, hs, hP⟩ := ih
    exact ⟨s, hs.log [], hP⟩

/-- Wherever play has led, the first world leads there. -/
theorem leads (h : p.build = .ok rules) (hg : Reachable rules options g) :
    World.Leads rules.definitions ⟨rules.vars, rules.board⟩ g.world := by
  have hfirst : ∀ q ∈ [(Game.new rules options).snapshot],
      World.Leads rules.definitions ⟨rules.vars, rules.board⟩ q.world := fun q hq => by
    obtain rfl := List.mem_singleton.1 hq
    exact .refl
  obtain ⟨s, hs, hleads⟩ := hg.exists_represents (P := fun s => ∀ q ∈ s.first :: s.later,
    World.Leads rules.definitions ⟨rules.vars, rules.board⟩ q.world) h hfirst
    fun s a hleads => Timeline.leads_act hleads a
  have htop := hleads _ (Timeline.top_mem s)
  rwa [← hs.snapshot_eq] at htop

theorem represents (h : p.build = .ok rules) (hg : Reachable rules options g) :
    ∃ s, Represents rules options g s := by
  obtain ⟨s, hs, -⟩ := exists_represents (P := fun _ => True) h trivial (fun _ _ _ => trivial) hg
  exact ⟨s, hs⟩

theorem complete (h : p.build = .ok rules) (hg : Reachable rules options g) :
    g.world.board.Complete := by
  obtain ⟨s, hs⟩ := hg.represents h
  exact hs.complete

/-- Wherever play has led, every step that was to be taken back has been. -/
theorem undoFailed_notMem (h : p.build = .ok rules) (hg : Reachable rules options g)
    (message : String) : Event.undoFailed message ∉ g.log := by
  induction hg with
  | new => exact List.not_mem_nil
  | act hg a ih =>
    cases a with
    | make m => exact (Play.logExtends_makeMove (complete h hg) m).undoFailed_notMem ih
    | undo => exact (Play.logs_undoMove _).undoFailed_notMem ih
    | reset => exact (Play.logs_reset _).undoFailed_notMem ih
  | ask hg q ih =>
    obtain ⟨s, hs⟩ := represents h hg
    obtain ⟨log, hlog, hq⟩ := q.exists_after_eq h hs.sound
    rw [hq]
    exact hlog.undoFailed_notMem ih
  | takeLog => exact List.not_mem_nil

/-- A query leaves the whole game but its log as it was, whether it succeeds, fails or gives pieces up.
Neither the query nor any action before it had a step that could not be taken back. -/
theorem query_changes_only_log (h : p.build = .ok rules) (hg : Reachable rules options g) :
    (∀ message, Event.undoFailed message ∉ g.log) ∧
    ∀ q : Query, ∃ events, q.after g = { g with log := events ++ g.log } ∧
      ∀ message, Event.undoFailed message ∉ events := by
  refine ⟨undoFailed_notMem h hg, fun q => ?_⟩
  obtain ⟨s, hs⟩ := represents h hg
  obtain ⟨log, ⟨events, rfl, hno⟩, hq⟩ := q.exists_after_eq h hs.sound
  exact ⟨events, hq, hno⟩

/-- The pawn of the pitfall is given up after its first step, and stands where it stood. -/
theorem query_changes_only_log_pitfall : pitfall.build = .ok pitfallRules ∧
    Reachable pitfallRules {} (.new pitfallRules {}) ∧
    Query.generate.after (.new pitfallRules {}) = { Game.new pitfallRules {} with
      log := [.aborted "Pawn" 0 0 (EvalError.unknownVariable "gate").message] } := by
  refine ⟨rfl, .new, ?_⟩
  obtain ⟨events, hafter, -⟩ :=
    (query_changes_only_log (p := pitfall) (g := .new pitfallRules {}) rfl .new).2 .generate
  have hlog : (Query.generate.after (.new pitfallRules {})).log =
      [.aborted "Pawn" 0 0 (EvalError.unknownVariable "gate").message] := by decide +kernel
  rw [hafter] at hlog ⊢
  exact congrArg (fun log => { Game.new pitfallRules {} with log := log }) hlog

/-- The generated moves are, by the tiles of the pieces of the player whose turn it is, the words of
the rules of the pieces that can be played within the limit. A piece of which some evaluation fails
has none. -/
theorem generateMoves_eq (h : p.build = .ok rules) (hg : Reachable rules options g) :
    ∃ tiles lists log,
      Play.generateMoves g = (.ok lists.flatten, { g with log := log }) ∧
      (tiles.map Prod.fst).Pairwise Board.Before ∧
      (∀ t piece, (t, piece) ∈ tiles ↔
        g.board.get t = .ok (some piece) ∧ rules.definitions.owner piece = g.currentPlayer) ∧
      List.Forall₂ (fun (tile : Tile × PieceId) moves => MovesOf rules.definitions
        (p.language rules tile.2) options.maxMoveLength g.world tile.1 moves) tiles lists := by
  obtain ⟨s, hs⟩ := represents h hg
  rw [← hs.options_eq]
  exact Play.generateMoves_spec h hs.rules_eq hs.complete

/-- The rider may cross one tile or both, and from the second it is fast enough to strike. The guard is
not asked. -/
theorem generateMoves_eq_skirmish : skirmish.build = .ok skirmishRules ∧
    Reachable skirmishRules {} (.new skirmishRules {}) ∧ ∃ tiles lists,
      lists.flatten = [⟨(0, 0), [gallop]⟩, ⟨(0, 0), [gallop, gallop]⟩, charge] ∧
      List.Forall₂ (fun (tile : Tile × PieceId) moves => MovesOf skirmishRules.definitions
        (skirmish.language skirmishRules tile.2) 256
        ⟨[("speed", .int 0)], ⟨4, 1, #[some 0, none, none, some 1]⟩⟩ tile.1 moves) tiles lists := by
  refine ⟨build_skirmish, .new, ?_⟩
  obtain ⟨tiles, lists, log, hgen, -, -, hlists⟩ :=
    generateMoves_eq (g := .new skirmishRules {}) build_skirmish .new
  have heval : (Play.generateMoves (.new skirmishRules {})).1 =
      .ok [⟨(0, 0), [gallop]⟩, ⟨(0, 0), [gallop, gallop]⟩, charge] := by decide +kernel
  rw [hgen] at heval
  exact ⟨tiles, lists, Except.ok.inj heval, hlists⟩

/-- Every generated move can be made in the position in which it is generated. So counting never
fails, and gives the number of sequences of moves each of which is generated in the position that
those before it lead to. -/
theorem perft_eq_card_lines (h : p.build = .ok rules) (hg : Reachable rules options g) :
    (∃ ms log, Play.generateMoves g = (.ok ms, { g with log := log }) ∧ ∀ m ∈ ms,
      (Play.makeMove m g).1 = .ok () ∧ (Play.makeMove m { g with log := log }).1 = .ok ()) ∧
    ∀ depth, ∃ (n : Nat) (log : List Event), Play.perft depth g = (.ok n, { g with log := log }) ∧
      {line | line.length = depth ∧ g.Line line}.encard = n := by
  obtain ⟨s, hs⟩ := represents h hg
  have hsound := hs.sound
  constructor
  · obtain ⟨ms, log, -, hgen, -, hlegal⟩ := Play.generateMoves_legal h hsound
    refine ⟨ms, log, hgen, fun m hm => ?_⟩
    obtain ⟨s', hmake⟩ := ((hlegal m).1 hm).exists_make
    obtain ⟨g₁, h₁, -⟩ := hsound.exists_makeMove hmake
    obtain ⟨g₂, h₂, -⟩ := (hs.log log).sound.exists_makeMove hmake
    rw [h₁, h₂]
    exact ⟨rfl, rfl⟩
  · intro depth
    obtain ⟨n, ⟨log, -, hn⟩, hcard⟩ := Play.perft_gives h depth g hsound
    refine ⟨n, log, hn, ?_⟩
    rw [← hcard]
    exact congrArg Set.encard (Set.ext fun line => Game.line_iff h hsound)

/-- The rider has three first moves. One gallop leaves the guard a tile to go to, two leave it none, and
the charge sets another guard, which can go to the right. -/
theorem perft_eq_card_lines_skirmish : skirmish.build = .ok skirmishRules ∧
    Reachable skirmishRules {} (.new skirmishRules {}) ∧
    {line | line.length = 1 ∧ (Game.new skirmishRules {}).Line line}.encard = 3 ∧
    {line | line.length = 2 ∧ (Game.new skirmishRules {}).Line line}.encard = 2 := by
  obtain ⟨-, hperft⟩ := perft_eq_card_lines (g := .new skirmishRules {}) build_skirmish .new
  obtain ⟨n, _, hn, hone⟩ := hperft 1
  obtain ⟨k, _, hk, htwo⟩ := hperft 2
  have hn' : (Play.perft 1 (.new skirmishRules {})).1 = .ok 3 := by decide +kernel
  have hk' : (Play.perft 2 (.new skirmishRules {})).1 = .ok 2 := by decide +kernel
  rw [hn] at hn'
  rw [hk] at hk'
  obtain rfl := Except.ok.inj hn'
  obtain rfl := Except.ok.inj hk'
  exact ⟨build_skirmish, .new, hone, htwo⟩

end Game.Reachable
end BoardGame
