import BoardGame.Game.Outcome
import BoardGame.Game.View
import BoardGame.Proofs.Game.Lines

/-!
# Queries

A query makes moves on the game it is about and takes them back. `p.Gives g r`: at `g` the action `p`
gives `r` and changes nothing but the log, which it extends. Every query does so at a game that can be
played on (`Query.exists_after_eq`), and counting gives the number of lines (`perft_gives`).
-/

namespace BoardGame
namespace Play
variable {α β : Type} {p : Play α} {f : α → Play β} {g : Game} {a : α} {e : GameError}

/-- At `g` the action gives `r` and changes only the log, where no step is reported that could not be
taken back. -/
def Gives (p : Play α) (g : Game) (r : Except GameError α) : Prop :=
  ∃ log, LogExtends g.log log ∧ p g = (r, { g with log := log })

theorem gives_pure (a : α) (g : Game) : (pure a : Play α).Gives g (.ok a) := ⟨g.log, .refl _, rfl⟩

theorem gives_check (x : Except EvalError α) (g : Game) : ∃ r, (check x).Gives g r := by
  cases x with
  | ok a => exact ⟨_, g.log, .refl _, rfl⟩
  | error e => exact ⟨_, g.log, .refl _, rfl⟩

theorem exists_gives_bind (hp : ∃ r, p.Gives g r)
    (hf : ∀ a log, ∃ r, (f a).Gives { g with log := log } r) : ∃ r, (p >>= f).Gives g r := by
  obtain ⟨e | a, log, hlog, hp⟩ := hp
  · exact ⟨.error e, log, hlog, by simp only [bind_apply, hp]⟩
  · obtain ⟨r, log', hlog', hf⟩ := hf a log
    exact ⟨r, log', hlog.trans hlog', by simp only [bind_apply, hp, hf]⟩

theorem exists_gives_game {f : Game → Play β} (h : ∃ r, (f g).Gives g r) :
    ∃ r, (game >>= f).Gives g r := h

/-! ### Moves taken back -/

variable {program : Program} {rules : Rules} {s : Snapshot} {m : Move} {ms : List Move}
  {count : Play Nat} {depth limit : Nat}

/-- Taking a move back leaves the game as it was, whatever was written to the log in between. -/
theorem exists_undoMove_makeMove (hg : g.Sound rules)
    (hm : g.snapshot.make rules.definitions m = .ok s) :
    ∃ g', makeMove m g = (.ok (), g') ∧ g'.snapshot = s ∧ g'.options = g.options ∧
      g'.Sound rules ∧ LogExtends g.log g'.log ∧
      ∀ log, ∃ log', LogExtends log log' ∧
        undoMove { g' with log := log } = (.ok (), { g with log := log' }) := by
  obtain ⟨g', hmake, hs⟩ := hg.exists_makeMove hm
  obtain ⟨-, hg', hoptions⟩ := hg.makeMove hmake
  obtain rfl := hg.rules_eq
  rcases makeMove_spec hg.complete m with ⟨e, -, he⟩ | ⟨w, cs, log₁, -, -, hcs, hlen, hlog₁, hok⟩
  · rw [hmake] at he
    cases he
  rw [hmake] at hok
  obtain rfl : g' = _ := (Prod.mk.inj hok).2
  refine ⟨_, hmake, hs, hoptions, hg', hlog₁, fun log => ?_⟩
  obtain ⟨log', hlog', hundo⟩ := undoMove_of_reverts (g := { g with
      world := w, changes := cs ++ g.changes, moves := m.steps.length :: g.moves
      turn := (g.turn + 1) % max 1 g.players.length, log := log }) (by rw [hlen]) rfl hcs
  refine ⟨log', hlog', hundo.trans ?_⟩
  have hturn := mod_pred_mod_succ hg.turn_lt
  simp only [Game.players, Game.definitions, hturn]

/-- If `count` gives the number of lines from every position, the sum over some moves is the number of
lines that begin with one of them. -/
theorem gives_sumAfter
    (hcount : ∀ g : Game, g.Sound rules → g.options.maxMoveLength = limit → ∃ n : Nat,
      count.Gives g (.ok n) ∧ (program.lines rules limit depth g.snapshot).encard = n)
    (hg : g.Sound rules) (hlimit : g.options.maxMoveLength = limit) (hnodup : ms.Nodup)
    (hms : ∀ m ∈ ms, ∃ s, g.snapshot.make rules.definitions m = .ok s) :
    ∃ n : Nat, (sumAfter count ms).Gives g (.ok n) ∧
      (program.linesBy rules limit depth g.snapshot ms).encard = n := by
  induction ms generalizing g with
  | nil => exact ⟨0, gives_pure 0 g, by simp⟩
  | cons m ms ih =>
    obtain ⟨hm, hnodup⟩ := List.nodup_cons.1 hnodup
    obtain ⟨s, hs⟩ := hms m (List.mem_cons_self ..)
    obtain ⟨g', hmake, rfl, hoptions, hg', hlog, hundo⟩ := exists_undoMove_makeMove hg hs
    obtain ⟨n, ⟨log₁, hlog₁, hn⟩, hcard⟩ := hcount g' hg' (by rw [hoptions, hlimit])
    obtain ⟨log', hlog', hundo⟩ := hundo log₁
    obtain ⟨k, ⟨log'', hlog'', hk⟩, hcards⟩ := ih (g := { g with log := log' })
      ⟨hg.rules_eq, hg.complete, hg.turn_lt⟩ hlimit hnodup fun m hm =>
        hms m (List.mem_cons_of_mem _ hm)
    refine ⟨n + k, ⟨log'', ((hlog.trans hlog₁).trans hlog').trans hlog'', ?_⟩, ?_⟩
    · simp only [sumAfter, bind_apply, hmake, hn, hundo, hk, pure_apply]
    · have hcards : (program.linesBy rules limit depth g.snapshot ms).encard = k := hcards
      rw [Program.encard_linesBy_cons hm hs, hcard, hcards, Nat.cast_add]

/-- Counting does not fail and gives the number of lines. -/
theorem perft_gives (h : program.build = .ok rules) (depth : Nat) :
    ∀ g : Game, g.Sound rules → ∃ n : Nat, (perft depth).Gives g (.ok n) ∧
      (program.lines rules g.options.maxMoveLength depth g.snapshot).encard = n := by
  induction depth with
  | zero => exact fun g _ => ⟨1, gives_pure 1 g, by simp [Program.lines]⟩
  | succ depth ih =>
    intro g hg
    obtain ⟨ms, log, hlog, hgen, hnodup, hlegal⟩ := generateMoves_legal h hg
    have hmake : ∀ m ∈ ms, ∃ s, g.snapshot.make rules.definitions m = .ok s :=
      fun m hm => ((hlegal m).1 hm).exists_make
    rw [Program.lines_succ hlegal]
    cases depth with
    | zero =>
      refine ⟨ms.length, ⟨log, hlog, by simp only [perft, bind_apply, hgen, pure_apply]⟩, ?_⟩
      exact Program.encard_linesBy_zero hnodup hmake
    | succ depth =>
      obtain ⟨n, ⟨log', hlog', hn⟩, hcard⟩ := gives_sumAfter (g := { g with log := log })
        (fun g hg hlimit => hlimit ▸ ih g hg) ⟨hg.rules_eq, hg.complete, hg.turn_lt⟩ rfl hnodup hmake
      exact ⟨n, ⟨log', hlog.trans hlog', by simp only [perft, bind_apply, hgen, hn]⟩, hcard⟩

/-! ### Outcome and view -/

theorem exists_winnersFrom_gives (player : PlayerId) (conditions : List (Option Expr)) (g : Game) :
    ∃ r, (winnersFrom player conditions).Gives g r := by
  induction conditions generalizing player g with
  | nil => exact ⟨_, gives_pure [] g⟩
  | cons condition conditions ih =>
    cases condition with
    | none => exact ih (player + 1) g
    | some e =>
      refine exists_gives_game (exists_gives_bind (gives_check _ g) fun won log => ?_)
      exact exists_gives_bind (ih (player + 1) _) fun others log' => ⟨_, gives_pure _ _⟩

theorem exists_generateMoves_gives (h : program.build = .ok rules) (hg : g.Sound rules) :
    ∃ ms, generateMoves.Gives g (.ok ms) := by
  obtain ⟨ms, log, hlog, hgen, -⟩ := generateMoves_legal h hg
  exact ⟨ms, log, hlog, hgen⟩

theorem exists_outcome_gives (h : program.build = .ok rules) (hg : g.Sound rules) :
    ∃ r, outcome.Gives g r := by
  refine exists_gives_game (exists_gives_bind (exists_winnersFrom_gives 0 _ g) fun winners log => ?_)
  match winners with
  | [winner] => exact ⟨_, gives_pure _ _⟩
  | [] =>
    obtain ⟨ms, hms⟩ := exists_generateMoves_gives (g := { g with log := log }) h
      ⟨hg.rules_eq, hg.complete, hg.turn_lt⟩
    exact exists_gives_bind ⟨_, hms⟩ fun ms log' => ⟨_, gives_pure _ _⟩
  | _ :: _ :: _ => exact ⟨_, gives_pure _ _⟩

end Play

/-! ### Queries -/

/-- What is asked of a game. -/
inductive Query where
  | generate
  | outcome
  | isOver
  | view
  | perft (depth : Nat)

/-- The game after a query, one that fails included. -/
def Query.after (g : Game) : Query → Game
  | generate => (Play.generateMoves g).2
  | outcome => (Play.outcome g).2
  | isOver => (Play.isOver g).2
  | view => (Play.view g).2
  | perft depth => (Play.perft depth g).2

/-- A query changes nothing but the log. -/
theorem Query.exists_after_eq {program : Program} {rules : Rules} {g : Game}
    (h : program.build = .ok rules) (hg : g.Sound rules) (q : Query) :
    ∃ log, LogExtends g.log log ∧ q.after g = { g with log := log } := by
  have hafter : ∀ {α : Type} {p : Play α}, (∃ r, p.Gives g r) →
      ∃ log, LogExtends g.log log ∧ (p g).2 = { g with log := log } := by
    rintro α p ⟨r, log, hlog, hp⟩
    exact ⟨log, hlog, congrArg Prod.snd hp⟩
  cases q with
  | generate =>
    obtain ⟨ms, hms⟩ := Play.exists_generateMoves_gives h hg
    exact hafter ⟨_, hms⟩
  | outcome => exact hafter (Play.exists_outcome_gives h hg)
  | isOver =>
    refine hafter (p := Play.isOver) ?_
    exact Play.exists_gives_bind (Play.exists_outcome_gives h hg) fun o log => ⟨_, Play.gives_pure _ _⟩
  | view =>
    obtain ⟨ms, log, hlog, hms⟩ := Play.exists_generateMoves_gives h hg
    exact hafter (p := Play.view) ⟨_, log, hlog, by simp only [Play.view, Play.bind_apply, hms]; rfl⟩
  | perft depth =>
    obtain ⟨n, hn, -⟩ := Play.perft_gives h depth g hg
    exact hafter ⟨_, hn⟩

end BoardGame
