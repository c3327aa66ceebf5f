import BoardGame.Proofs.Game.Generation
import BoardGame.Proofs.Game.Snapshots
import Mathlib.Data.Set.Card

/-!
# Lines of play

Which moves are generated depends on the position alone (`Program.Legal`), and each of them can be
made. A line is a sequence of moves each of which is generated where those before it lead:
`Game.Line` says so of games, `Program.lines` of positions, and the two agree (`Game.line_iff`).
-/

namespace BoardGame

/-- A game that can be played on. -/
structure Game.Sound (rules : Rules) (g : Game) : Prop where
  rules_eq : g.rules = rules
  complete : g.world.board.Complete
  turn_lt : g.turn < max 1 rules.definitions.players.length

variable {p : Program} {rules : Rules} {limit depth : Nat} {s s' : Snapshot} {g g' : Game} {m : Move}
  {ms line : List Move}

/-! ### Legal moves -/

/-- The move starts at a piece of the player whose turn it is and is one of the words of that piece's
rule that can be played within the limit; nothing fails on the walk of the piece. -/
def Program.Legal (p : Program) (rules : Rules) (limit : Nat) (s : Snapshot) (m : Move) : Prop :=
  ∃ piece, s.world.board.get m.start = .ok (some piece) ∧
    rules.definitions.owner piece = s.turn ∧
    ¬ s.world.Aborts rules.definitions (p.language rules piece) limit m.start ∧
    1 ≤ m.steps.length ∧ m.steps.length ≤ limit ∧ m.steps ∈ p.language rules piece ∧
    ∃ w t, World.Plays rules.definitions s.world m.start m.steps w t

theorem Program.Legal.exists_make (h : p.Legal rules limit s m) :
    ∃ s', s.make rules.definitions m = .ok s' := by
  obtain ⟨_, _, _, _, _, _, _, w, t, hplays⟩ := h
  refine ⟨⟨w, (s.turn + 1) % max 1 rules.definitions.players.length⟩, ?_⟩
  rw [Snapshot.make, hplays.steps_eq_ok]
  rfl

section
variable {d : Definitions} {L : Language Step} {w : World} {t : Tile}

theorem MovesOf.mem_iff_and (h : MovesOf d L limit w t ms) :
    m ∈ ms ↔ m.start = t ∧ ¬ w.Aborts d L limit t ∧ 1 ≤ m.steps.length ∧ m.steps.length ≤ limit ∧
      m.steps ∈ L ∧ ∃ w' t', World.Plays d w t m.steps w' t' := by
  by_cases ha : w.Aborts d L limit t
  · simp [h.eq_nil ha, ha]
  · simp [h.mem_iff ha, ha]

/-- The moves of tiles that differ, joined. -/
theorem nodup_and_mem_flatten {Ls : PieceId → Language Step} {tiles : List (Tile × PieceId)}
    {lists : List (List Move)}
    (h : List.Forall₂ (fun (tile : Tile × PieceId) ms => MovesOf d (Ls tile.2) limit w tile.1 ms)
      tiles lists)
    (hne : (tiles.map Prod.fst).Nodup) : lists.flatten.Nodup ∧ ∀ m, m ∈ lists.flatten ↔
      ∃ piece, (m.start, piece) ∈ tiles ∧ ¬ w.Aborts d (Ls piece) limit m.start ∧
        1 ≤ m.steps.length ∧ m.steps.length ≤ limit ∧ m.steps ∈ Ls piece ∧
        ∃ w' t', World.Plays d w m.start m.steps w' t' := by
  induction h with
  | nil => simp
  | @cons tile ms tiles lists hms _ ih =>
    obtain ⟨t, piece₀⟩ := tile
    obtain ⟨hnew, hne⟩ := List.nodup_cons.1 hne
    obtain ⟨hnodup, hmem⟩ := ih hne
    refine ⟨List.nodup_append.2 ⟨hms.nodup, hnodup, ?_⟩, fun m => ?_⟩
    · rintro m hm _ hm' rfl
      obtain ⟨piece, hpiece, -⟩ := (hmem m).1 hm'
      refine hnew ?_
      rw [← (hms.mem_iff_and.1 hm).1]
      exact List.mem_map_of_mem hpiece
    · rw [List.flatten_cons, List.mem_append, hmem, hms.mem_iff_and]
      constructor
      · rintro (⟨rfl, h⟩ | ⟨piece, hpiece, h⟩)
        · exact ⟨piece₀, List.mem_cons_self .., h⟩
        · exact ⟨piece, List.mem_cons_of_mem _ hpiece, h⟩
      · rintro ⟨piece, hpiece, h⟩
        rcases List.mem_cons.1 hpiece with heq | hpiece
        · obtain ⟨rfl, rfl⟩ := Prod.mk.inj heq
          exact .inl ⟨rfl, h⟩
        · exact .inr ⟨piece, hpiece, h⟩

end

/-- The legal moves are generated, each once, and only the log changes. -/
theorem Play.generateMoves_legal (h : p.build = .ok rules) (hg : g.Sound rules) :
    ∃ ms log, LogExtends g.log log ∧ generateMoves g = (.ok ms, { g with log := log }) ∧ ms.Nodup ∧
      ∀ m, m ∈ ms ↔ p.Legal rules g.options.maxMoveLength g.snapshot m := by
  obtain ⟨tiles, lists, log, hlog, hgen, hsorted, htiles, hlists⟩ :=
    generateMoves_extends h hg.rules_eq hg.complete
  have hne : (tiles.map Prod.fst).Nodup := hsorted.imp fun {t t'} hlt heq => by
    subst heq
    simp [Board.Before] at hlt
  obtain ⟨hnodup, hmem⟩ := nodup_and_mem_flatten hlists hne
  refine ⟨lists.flatten, log, hlog, hgen, hnodup, fun m => (hmem m).trans ?_⟩
  simp only [htiles, and_assoc]
  rfl

/-! ### Lines -/

/-- Each move of the line is generated by the game that those before it lead to. -/
def Game.Line : Game → List Move → Prop
  | _, [] => True
  | g, m :: line => (∃ ms, (Play.generateMoves g).1 = .ok ms ∧ m ∈ ms) ∧
      Line (Play.makeMove m g).2 line

/-- The lines of some length that begin at a position. -/
def Program.lines (p : Program) (rules : Rules) (limit : Nat) : Nat → Snapshot → Set (List Move)
  | 0, _ => {[]}
  | depth + 1, s => {line | ∃ m s' rest, line = m :: rest ∧ p.Legal rules limit s m ∧
      s.make rules.definitions m = .ok s' ∧ rest ∈ lines p rules limit depth s'}

/-- The lines that begin with one of `ms` and go on with so many moves. -/
def Program.linesBy (p : Program) (rules : Rules) (limit depth : Nat) (s : Snapshot)
    (ms : List Move) : Set (List Move) :=
  {line | ∃ m ∈ ms, ∃ s' rest, line = m :: rest ∧ s.make rules.definitions m = .ok s' ∧
    rest ∈ p.lines rules limit depth s'}

theorem Program.lines_succ (hms : ∀ m, m ∈ ms ↔ p.Legal rules limit s m) :
    p.lines rules limit (depth + 1) s = p.linesBy rules limit depth s ms := by
  ext line
  constructor
  · rintro ⟨m, s', rest, rfl, hm, hmake, hrest⟩
    exact ⟨m, (hms m).2 hm, s', rest, rfl, hmake, hrest⟩
  · rintro ⟨m, hm, s', rest, rfl, hmake, hrest⟩
    exact ⟨m, s', rest, rfl, (hms m).1 hm, hmake, hrest⟩

@[simp] theorem Program.linesBy_nil : p.linesBy rules limit depth s [] = ∅ := by
  simp [linesBy]

/-- The lines that begin with a move are as many as those that go on from where it leads. -/
theorem Program.encard_linesBy_cons (hm : m ∉ ms) (hmake : s.make rules.definitions m = .ok s') :
    (p.linesBy rules limit depth s (m :: ms)).encard =
      (p.lines rules limit depth s').encard + (p.linesBy rules limit depth s ms).encard := by
  have hunion : p.linesBy rules limit depth s (m :: ms) =
      (m :: ·) '' p.lines rules limit depth s' ∪ p.linesBy rules limit depth s ms := by
    ext line
    constructor
    · rintro ⟨m', hm', s'', rest, rfl, hmake', hrest⟩
      rcases List.mem_cons.1 hm' with rfl | hm'
      · obtain rfl := Except.ok.inj (hmake.symm.trans hmake')
        exact .inl ⟨rest, hrest, rfl⟩
      · exact .inr ⟨m', hm', s'', rest, rfl, hmake', hrest⟩
    · rintro (⟨rest, hrest, rfl⟩ | ⟨m', hm', hrest⟩)
      · exact ⟨m, List.mem_cons_self .., s', rest, rfl, hmake, hrest⟩
      · exact ⟨m', List.mem_cons_of_mem _ hm', hrest⟩
  have hdisj : Disjoint ((m :: ·) '' p.lines rules limit depth s') (p.linesBy rules limit depth s ms) := by
    rw [Set.disjoint_left]
    rintro _ ⟨rest, -, rfl⟩ ⟨m', hm', _, _, heq, -⟩
    exact hm ((List.cons.inj heq).1 ▸ hm')
  rw [hunion, Set.encard_union_eq hdisj, (List.cons_injective).encard_image]

/-- A line of one move is a move. -/
theorem Program.encard_linesBy_zero (hms : ms.Nodup)
    (hmake : ∀ m ∈ ms, ∃ s', s.make rules.definitions m = .ok s') :
    (p.linesBy rules limit 0 s ms).encard = ms.length := by
  induction ms with
  | nil => simp
  | cons m ms ih =>
    obtain ⟨hm, hms⟩ := List.nodup_cons.1 hms
    obtain ⟨s', hs'⟩ := hmake m (List.mem_cons_self ..)
    rw [encard_linesBy_cons hm hs', ih hms fun m hm => hmake m (List.mem_cons_of_mem _ hm)]
    simp [lines, add_comm]

/-! ### Lines of games -/

/-- A move that is made leads to the position that it should. -/
theorem Game.Sound.makeMove (hg : g.Sound rules) (hmake : Play.makeMove m g = (.ok (), g')) :
    g.snapshot.make rules.definitions m = .ok g'.snapshot ∧ g'.Sound rules ∧
      g'.options = g.options := by
  obtain rfl := hg.rules_eq
  rcases Play.makeMove_spec hg.complete m with ⟨e, -, he⟩ | ⟨w, cs, log, hsteps, hw, -, -, -, hok⟩
  · rw [hmake] at he
    cases he
  · rw [hmake] at hok
    obtain rfl : g' = _ := (Prod.mk.inj hok).2
    refine ⟨?_, ⟨rfl, hw, Nat.mod_lt _ (by omega)⟩, rfl⟩
    have hsteps : g.snapshot.world.steps g.rules.definitions m.start m.steps = .ok w := hsteps
    rw [Snapshot.make, hsteps]
    rfl

/-- A move that leads somewhere is made. -/
theorem Game.Sound.exists_makeMove (hg : g.Sound rules)
    (hmake : g.snapshot.make rules.definitions m = .ok s) :
    ∃ g', Play.makeMove m g = (.ok (), g') ∧ g'.snapshot = s := by
  obtain rfl := hg.rules_eq
  rcases Play.makeMove_spec hg.complete m with ⟨e, hsteps, -⟩ | ⟨w, cs, log, -, -, -, -, -, hok⟩
  · have hsteps : g.snapshot.world.steps g.rules.definitions m.start m.steps = .error e := hsteps
    rw [Snapshot.make, hsteps] at hmake
    cases hmake
  · exact ⟨_, hok, Except.ok.inj ((hg.makeMove hok).1.symm.trans hmake)⟩

/-- A game and its position have the same lines. -/
theorem Game.line_iff (h : p.build = .ok rules) (hg : g.Sound rules) :
    line.length = depth ∧ g.Line line ↔
      line ∈ p.lines rules g.options.maxMoveLength depth g.snapshot := by
  induction line generalizing g depth with
  | nil => cases depth <;> simp [Game.Line, Program.lines]
  | cons m line ih =>
    cases depth with
    | zero => simp [Program.lines]
    | succ depth =>
      obtain ⟨ms, log, -, hgen, -, hmem⟩ := Play.generateMoves_legal h hg
      constructor
      · rintro ⟨hlen, ⟨ms', hms, hm⟩, hline⟩
        rw [hgen] at hms
        obtain rfl := Except.ok.inj hms
        have hlegal := (hmem m).1 hm
        obtain ⟨s, hs⟩ := hlegal.exists_make
        obtain ⟨g', hmake, -⟩ := hg.exists_makeMove hs
        obtain ⟨hs', hg', hoptions⟩ := hg.makeMove hmake
        rw [hmake] at hline
        refine ⟨m, _, line, rfl, hlegal, hs', ?_⟩
        rw [← hoptions]
        exact (ih hg').1 ⟨Nat.succ.inj hlen, hline⟩
      · rintro ⟨_, s, _, heq, hlegal, hs, hline⟩
        obtain ⟨rfl, rfl⟩ := List.cons.inj heq
        obtain ⟨g', hmake, rfl⟩ := hg.exists_makeMove hs
        obtain ⟨-, hg', hoptions⟩ := hg.makeMove hmake
        rw [← hoptions] at hline
        obtain ⟨hlen, hline⟩ := (ih hg').2 hline
        refine ⟨congrArg Nat.succ hlen, ⟨ms, by rw [hgen], (hmem m).2 hlegal⟩, ?_⟩
        rw [hmake]
        exact hline

end BoardGame
