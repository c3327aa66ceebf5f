import BoardGame.Proofs.Automaton.Determinization
import BoardGame.Proofs.Automaton.Fragment
import BoardGame.Proofs.Game.Walk

/-!
# Generated moves

The automaton of a piece reads the language of its rule (`Program.reads_piece`), so the walk of the
piece lists the words of the language that can be played (`pieceMoves_spec`), and the generated moves
are those of the pieces of the player, tile by tile (`generateMoves_spec`).
-/

namespace BoardGame

/-! ### Languages of pieces -/

/-- The automaton accepts the words of `L`, and what else it reads begins one. -/
structure Dfa.Reads (dfa : Dfa) (L : Language Step) : Prop where
  deterministic : dfa.Deterministic
  accepts_iff : ∀ w, dfa.Accepts w ↔ w ∈ L
  prefix_iff : ∀ u ≠ [], (∃ q, dfa.Path dfa.start u q) ↔ ∃ v, u ++ v ∈ L

theorem Dfa.reads_ofPattern (pattern : Pattern) :
    (Dfa.ofNfa (.ofPattern pattern)).Reads pattern.language := by
  obtain ⟨b, h⟩ := Dfa.exists_determinizes (.ofPattern pattern)
  refine ⟨h.deterministic, fun w => ?_, fun u _ => ?_⟩
  · exact (Dfa.accepts_ofNfa _ w).trans ((Nfa.grows_ofPattern pattern).path_iff w)
  · exact (Dfa.exists_path_ofNfa_iff _ u).trans (Nfa.exists_path_ofPattern_iff pattern u)

theorem Dfa.reads_empty : Dfa.empty.Reads 0 := by
  have htr : ∀ q, Dfa.empty.transitions q = [] := by
    intro q
    cases q <;> rfl
  have hpath : ∀ {p q u}, Dfa.empty.Path p u q → u = [] := by
    intro p q u h
    cases h with
    | nil => rfl
    | cons he => rw [htr] at he; cases he
  refine ⟨fun q => by rw [htr]; exact List.nodup_nil, fun w => ?_, fun u hu => ?_⟩
  · constructor
    · rintro ⟨q, -, hacc⟩
      cases q <;> cases hacc
    · exact False.elim
  · constructor
    · rintro ⟨q, hq⟩
      exact absurd (hpath hq) hu
    · rintro ⟨v, hv⟩
      cases hv

namespace Program
variable {p : Program} {rules : Rules} {piece : PieceId}

/-- The pattern of the rule of a piece, if it has one. -/
def pattern? (p : Program) (rules : Rules) (piece : PieceId) : Option Pattern := do
  let type ← rules.definitions.pieces[piece]?
  let rule ← p.rules.find? (·.piece = type.name)
  let env : Env := { definitions := rules.definitions, vars := rules.vars }
  (env.resolve [] rule.movement).toOption

/-- The words of the rule of a piece. A piece without a rule has none. -/
def language (p : Program) (rules : Rules) (piece : PieceId) : Language Step :=
  ((p.pattern? rules piece).map Pattern.language).getD 0

theorem reads_piece (h : p.build = .ok rules) {bp : BoardPiece}
    (hbp : rules.pieces[piece]? = some bp) : bp.dfa.Reads (p.language rules piece) := by
  have hpieces := forall₂_of_mapM (build_eq_ok_iff.1 h).2.2.1
  obtain ⟨hlt, rfl⟩ := List.getElem?_eq_some_iff.1 hbp
  have hlt' : piece < rules.definitions.pieces.length := hpieces.length_eq ▸ hlt
  have hc := hpieces.get hlt' hlt
  rw [language, pattern?, List.getElem?_eq_getElem hlt']
  simp only [List.get_eq_getElem] at hc
  rcases compilePiece_eq_ok_iff.1 hc with ⟨hfind, heq⟩ | ⟨rule, pattern, hfind, hresolve, heq⟩
  · rw [heq]
    simp only [Option.bind_eq_bind, Option.bind_some, hfind, Option.bind_none, Option.map_none,
      Option.getD_none]
    exact Dfa.reads_empty
  · rw [heq]
    simp only [Option.bind_eq_bind, Option.bind_some, hfind, hresolve, Except.toOption,
      Option.map_some, Option.getD_some]
    exact Dfa.reads_ofPattern pattern

theorem language_of_none (h : p.build = .ok rules) (hp : rules.pieces[piece]? = none) :
    p.language rules piece = 0 := by
  have hpieces := forall₂_of_mapM (build_eq_ok_iff.1 h).2.2.1
  have hle : rules.definitions.pieces.length ≤ piece := by
    rw [hpieces.length_eq]
    exact List.getElem?_eq_none_iff.1 hp
  rw [language, pattern?, List.getElem?_eq_none hle]
  rfl

end Program

/-! ### Moves of pieces -/

/-- Some evaluation fails after at most `limit` steps of a word of `L`: the steps before the last one
can be played, and the last one faults. -/
def World.Aborts (d : Definitions) (L : Language Step) (limit : Nat) (w : World) (t : Tile) : Prop :=
  ∃ u s v w' t', u.length < limit ∧ u ++ s :: v ∈ L ∧ World.Plays d w t u w' t' ∧ w'.Faults d t' s

/-- `moves` are the words of `L` with at most `limit` steps that can be played from `t`, each listed
once, or none if an evaluation fails. -/
structure MovesOf (d : Definitions) (L : Language Step) (limit : Nat) (w : World) (t : Tile)
    (moves : List Move) : Prop where
  nodup : moves.Nodup
  mem_iff : ¬ w.Aborts d L limit t → ∀ m, m ∈ moves ↔ m.start = t ∧ 1 ≤ m.steps.length ∧
    m.steps.length ≤ limit ∧ m.steps ∈ L ∧ ∃ w' t', World.Plays d w t m.steps w' t'
  eq_nil : w.Aborts d L limit t → moves = []

section
variable {d : Definitions} {dfa : Dfa} {L : Language Step} {k : Nat} {w : World} {t : Tile}

theorem stumbles_start_iff (h : dfa.Reads L) :
    Stumbles d dfa k w t dfa.start ↔ w.Aborts d L k t := by
  have hbegin : ∀ u s, (∃ r, dfa.Path dfa.start (u ++ [s]) r) ↔ ∃ v, u ++ s :: v ∈ L := by
    intro u s
    rw [h.prefix_iff _ (List.append_ne_nil_of_right_ne_nil u (List.cons_ne_nil s []))]
    simp
  rw [stumbles_iff]
  constructor
  · rintro ⟨u, s, w', t', hlen, hr, hplay, hf⟩
    obtain ⟨v, hv⟩ := (hbegin u s).1 hr
    exact ⟨u, s, v, w', t', hlen, hv, hplay, hf⟩
  · rintro ⟨u, s, v, w', t', hlen, hv, hplay, hf⟩
    exact ⟨u, s, w', t', hlen, (hbegin u s).2 ⟨v, hv⟩, hplay, hf⟩

theorem finds_start_iff (h : dfa.Reads L) {v : List Step} : Finds d dfa k w t dfa.start v ↔
    1 ≤ v.length ∧ v.length ≤ k ∧ v ∈ L ∧ ∃ w' t', World.Plays d w t v w' t' := by
  rw [finds_iff, ← h.accepts_iff]
  rfl

theorem movesOf_zero (d : Definitions) (k : Nat) (w : World) (t : Tile) : MovesOf d 0 k w t [] where
  nodup := List.nodup_nil
  mem_iff := fun _ _ => ⟨fun h => absurd h List.not_mem_nil, fun ⟨_, _, _, h, _⟩ => h.elim⟩
  eq_nil := fun _ => rfl

end

namespace Play
variable {p : Program} {rules : Rules} {g : Game} {t : Tile}

/-- The moves of a piece leave the game as it was, up to the log. -/
theorem pieceMoves_spec (h : p.build = .ok rules) (hr : g.rules = rules)
    (hg : g.world.board.Complete) (ht : g.world.board.contains t = true) (piece : PieceId) :
    ∃ moves log, LogExtends g.log log ∧ pieceMoves t piece g = (.ok moves, { g with log := log }) ∧
      MovesOf rules.definitions (p.language rules piece) g.options.maxMoveLength g.world t moves := by
  subst hr
  cases hbp : g.rules.pieces[piece]? with
  | none =>
    refine ⟨[], g.log, .refl _, ?_, ?_⟩
    · simp [pieceMoves, hbp]
    · rw [Program.language_of_none h hbp]
      exact movesOf_zero _ _ _ _
  | some bp =>
    have hreads := Program.reads_piece h hbp
    have hwalk : Explores (walk bp.dfa t g.options.maxMoveLength bp.dfa.start t []) g _ _ :=
      walk_explores hreads.deterministic hg ht g.options.maxMoveLength bp.dfa.start []
    rcases hwalk with ⟨hno, ms, hms, hnodup, hmem⟩ | ⟨hyes, e, w, cs, he, hcs⟩
    · refine ⟨ms, g.log, .refl _, ?_, hnodup, fun _ m => ?_, fun ha => ?_⟩
      · simp [pieceMoves, hbp, hms]
      · rw [hmem]
        constructor
        · rintro ⟨v, hv, rfl⟩
          exact ⟨rfl, (finds_start_iff hreads).1 hv⟩
        · rintro ⟨rfl, hv⟩
          exact ⟨m.steps, (finds_start_iff hreads).2 hv, rfl⟩
      · exact absurd ((stumbles_start_iff hreads).2 ha) hno
    · refine ⟨[], .aborted bp.name t.1 t.2 e.message :: g.log, .cons (by simp) _, ?_, List.nodup_nil,
        fun hna => absurd ((stumbles_start_iff hreads).1 hyes) hna, fun _ => rfl⟩
      have hrewind := rewind_of_reverts (g := { g with
        world := w, changes := cs ++ g.changes
        log := .aborted bp.name t.1 t.2 e.message :: g.log }) hcs rfl
      simp [pieceMoves, hbp, he, report, hrewind]

theorem collect_forall₂ {α β : Type} {f : α → Play (List β)} {Q : α → List β → Prop} {as : List α}
    (hf : ∀ a ∈ as, ∀ log, ∃ bs log', LogExtends log log' ∧
      f a { g with log := log } = (.ok bs, { g with log := log' }) ∧ Q a bs) (log : List Event) :
    ∃ bss log', LogExtends log log' ∧
      collect f as { g with log := log } = (.ok bss.flatten, { g with log := log' }) ∧
      List.Forall₂ Q as bss := by
  induction as generalizing log with
  | nil => exact ⟨[], log, .refl _, rfl, .nil⟩
  | cons a as ih =>
    obtain ⟨bs, log₁, hlog₁, ha, hQ⟩ := hf a (List.mem_cons_self ..) log
    obtain ⟨bss, log₂, hlog₂, has, hQs⟩ := ih (fun a h => hf a (List.mem_cons_of_mem _ h)) log₁
    refine ⟨bs :: bss, log₂, hlog₁.trans hlog₂, ?_, .cons hQ hQs⟩
    simp only [collect, bind_apply, ha, has, pure_apply, List.flatten_cons]

/-- The generated moves are those of the pieces of the player whose turn it is, by their tiles, and
only the log changes; all that is reported are pieces that were given up. -/
theorem generateMoves_extends (h : p.build = .ok rules) (hr : g.rules = rules)
    (hg : g.world.board.Complete) : ∃ tiles lists log, LogExtends g.log log ∧
      generateMoves g = (.ok lists.flatten, { g with log := log }) ∧
      (tiles.map Prod.fst).Pairwise Board.Before ∧
      (∀ t piece, (t, piece) ∈ tiles ↔
        g.board.get t = .ok (some piece) ∧ rules.definitions.owner piece = g.turn) ∧
      List.Forall₂ (fun (tile : Tile × PieceId) moves => MovesOf rules.definitions
        (p.language rules tile.2) g.options.maxMoveLength g.world tile.1 moves) tiles lists := by
  subst hr
  have hpiece : ∀ tile ∈ g.board.pieces.filter fun tile => g.rules.definitions.owner tile.2 = g.turn,
      ∀ log, ∃ moves log', LogExtends log log' ∧ pieceMoves tile.1 tile.2 { g with log := log } =
        (.ok moves, { g with log := log' }) ∧ MovesOf g.rules.definitions
          (p.language g.rules tile.2) g.options.maxMoveLength g.world tile.1 moves := by
    intro tile htile log
    have hget := (Board.mem_pieces hg).1 (List.mem_filter.1 htile).1
    exact pieceMoves_spec (g := { g with log := log }) h rfl hg (Board.contains_of_get hget) tile.2
  obtain ⟨lists, log, hlog, hcollect, hlists⟩ := collect_forall₂ hpiece g.log
  refine ⟨_, lists, log, hlog, hcollect, ?_, ?_, hlists⟩
  · exact (Board.pairwise_pieces g.board).sublist (List.filter_sublist.map _)
  · intro t piece
    rw [List.mem_filter, decide_eq_true_eq]
    exact and_congr_left' (Board.mem_pieces hg)

theorem generateMoves_spec (h : p.build = .ok rules) (hr : g.rules = rules)
    (hg : g.world.board.Complete) : ∃ tiles lists log,
      generateMoves g = (.ok lists.flatten, { g with log := log }) ∧
      (tiles.map Prod.fst).Pairwise Board.Before ∧
      (∀ t piece, (t, piece) ∈ tiles ↔
        g.board.get t = .ok (some piece) ∧ rules.definitions.owner piece = g.turn) ∧
      List.Forall₂ (fun (tile : Tile × PieceId) moves => MovesOf rules.definitions
        (p.language rules tile.2) g.options.maxMoveLength g.world tile.1 moves) tiles lists := by
  obtain ⟨tiles, lists, log, -, hgen⟩ := generateMoves_extends h hr hg
  exact ⟨tiles, lists, log, hgen⟩

end Play
end BoardGame
