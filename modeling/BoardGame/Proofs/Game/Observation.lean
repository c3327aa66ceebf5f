import BoardGame.Proofs.Automaton.Letters
import BoardGame.Proofs.Game.Reachable

/-!
# What a walk tries

No state of a compiled automaton is a dead end: what leads to it begins a word (`Dfa.exists_continuation`).
`Play.watch` is the walk of a piece with an observer, who sees each sequence of steps that the walk tries
before any of its last step is evaluated. An observer who does nothing on the beginnings of words does
nothing at all (`Play.watch_eq_walk`), so a walk tries only beginnings of words (`Dfa.no_dead_ends`).
-/

namespace BoardGame

namespace Dfa
variable {d : Dfa} {p q r : StateId} {u v : List Step}

theorem Path.split (h : d.Path p (u ++ v) r) : ∃ q, d.Path p u q ∧ d.Path q v r := by
  induction u generalizing p with
  | nil => exact ⟨p, .nil p, h⟩
  | cons s u ih =>
    cases h with
    | cons he h =>
      obtain ⟨q, hu, hv⟩ := ih h
      exact ⟨q, .cons he hu, hv⟩

/-- What a path reads tells where it ends. -/
theorem Deterministic.path_unique (hd : d.Deterministic) (h : d.Path p u q) (h' : d.Path p u r) :
    q = r := by
  induction h with
  | nil =>
    cases h'
    rfl
  | cons he _ ih =>
    cases h' with
    | cons he' h' =>
      have heq := List.inj_on_of_nodup_map (hd _) he he' rfl
      obtain rfl := congrArg Prod.snd heq
      exact ih h'

theorem exists_continuation (pattern : Pattern)
    (h : (ofPattern pattern).Path (ofPattern pattern).start u q) : ∃ v r,
      (ofPattern pattern).Path q v r ∧ (ofPattern pattern).isAccepting r = true ∧
        u ++ v ∈ pattern.language := by
  have hreads := reads_ofPattern pattern
  obtain ⟨v, hv⟩ := (Nfa.exists_path_ofPattern_iff pattern u).1 ((exists_path_ofNfa_iff _ u).1 ⟨q, h⟩)
  obtain ⟨r, hr, hacc⟩ := (hreads.accepts_iff _).2 hv
  obtain ⟨q', hu, hrest⟩ := hr.split
  obtain rfl := hreads.deterministic.path_unique h hu
  exact ⟨v, r, hrest, hacc, hv⟩

end Dfa

namespace Play
variable {α : Type} {dfa : Dfa} {start position : Tile} {q : StateId} {path : List Step}

/-- The walk of a piece as it is seen by an observer, who acts on every sequence of steps that is tried,
before the condition of the last one is evaluated. -/
def watch (observe : List Step → Play Unit) (dfa : Dfa) (start : Tile) :
    Nat → StateId → Tile → List Step → Play (List Move)
  | 0, _, position, _ => do
    let _ ← pieceAt position
    return []
  | budget + 1, state, position, path => do
    match ← pieceAt position with
    | none => return []
    | some piece =>
      let owner := (← game).definitions.owner piece
      collect
        (fun transition => do
          observe (transition.1 :: path).reverse
          follow dfa start (watch observe dfa start budget) position path owner transition)
        (dfa.transitions state)

theorem collect_congr {f f' : α → Play (List Move)} {as : List α} (h : ∀ a ∈ as, f a = f' a) :
    collect f as = collect f' as := by
  induction as with
  | nil => rfl
  | cons a as ih =>
    rw [collect, collect, h a (List.mem_cons_self ..), ih fun a ha => h a (List.mem_cons_of_mem _ ha)]

theorem follow_congr {walk walk' : StateId → Tile → List Step → Play (List Move)} {owner : PlayerId}
    {s : Step} (h : ∀ t, walk q t (s :: path) = walk' q t (s :: path)) :
    follow dfa start walk position path owner (s, q) =
      follow dfa start walk' position path owner (s, q) := by
  simp only [follow, h]

/-- The observer sees the steps made so far and then what a path of the automaton reads. -/
theorem watch_eq_walk {observe : List Step → Play Unit} (budget : Nat)
    (h : ∀ u ≠ [], (∃ r, dfa.Path q u r) → observe (path.reverse ++ u) = pure ()) :
    watch observe dfa start budget q position path = walk dfa start budget q position path := by
  induction budget generalizing q position path with
  | zero => rfl
  | succ budget ih =>
    have hfollow : ∀ owner, ∀ transition ∈ dfa.transitions q, (do
        observe (transition.1 :: path).reverse
        follow dfa start (watch observe dfa start budget) position path owner transition) =
          follow dfa start (walk dfa start budget) position path owner transition := by
      rintro owner ⟨s, q'⟩ he
      have hseen : observe (s :: path).reverse = pure () := by
        rw [List.reverse_cons]
        exact h [s] (List.cons_ne_nil _ _) ⟨q', .cons he (.nil q')⟩
      have hrest : ∀ u ≠ [], (∃ r, dfa.Path q' u r) → observe ((s :: path).reverse ++ u) = pure () := by
        rintro u - ⟨r, hr⟩
        rw [List.reverse_cons, List.append_assoc]
        exact h (s :: u) (List.cons_ne_nil _ _) ⟨r, .cons he hr⟩
      have hgo : ∀ t, watch observe dfa start budget q' t (s :: path) =
          walk dfa start budget q' t (s :: path) := fun t => ih hrest
      rw [hseen]
      exact follow_congr hgo
    rw [watch, walk]
    refine congrArg (pieceAt position >>= ·) (funext fun occupant => ?_)
    cases occupant with
    | none => rfl
    | some piece => simp only [collect_congr (hfollow _)]

end Play

/-- The rider stops where it strikes, in whatever begins a word of its rule. -/
theorem strike_notMem_dropLast {u v : List Step} (h : u ++ v ∈ skirmish.language skirmishRules 0) :
    strike ∉ u.dropLast := by
  obtain ⟨gallops, hgallops, rest, hrest, hsplit⟩ := h
  have hno : strike ∉ gallops := fun hs =>
    absurd (Pattern.mem_steps_of_mem_language hgallops hs) (by decide)
  have hone : rest.length ≤ 1 := by
    rcases hrest with rfl | rfl
    · exact le_rfl
    · exact Nat.zero_le 1
  have hlength : gallops.length + rest.length = u.length + v.length := by
    simpa using congrArg List.length hsplit
  have hu : u <+: gallops ++ rest := ⟨v, hsplit.symm⟩
  have hbefore : u.dropLast <+: gallops := by
    refine List.prefix_of_prefix_length_le ((List.dropLast_prefix u).trans hu)
      (List.prefix_append gallops rest) ?_
    rw [List.length_dropLast]
    omega
  exact fun hs => hno (hbefore.subset hs)

/-- No state of the automaton of a pattern is a dead end: each path from the start goes on to an
accepting state. So whoever watches the walk of a piece from the outside cannot tell it from the walk if
they would act only on what begins no word of the rule, and an evaluation that fails and gives the piece
up does so behind the beginning of a word. -/
theorem Dfa.no_dead_ends :
    (∀ (pattern : Pattern) (u : List Step) (q : StateId),
      (ofPattern pattern).Path (ofPattern pattern).start u q → ∃ v r,
        (ofPattern pattern).Path q v r ∧ (ofPattern pattern).isAccepting r = true ∧
          u ++ v ∈ pattern.language) ∧
    ∀ (p : Program) (rules : Rules) (piece : PieceId) (bp : BoardPiece), p.build = .ok rules →
      rules.pieces[piece]? = some bp → ∀ (t : Tile) (limit : Nat),
        (∀ observe : List Step → Play Unit,
          (∀ u v, u ++ v ∈ p.language rules piece → observe u = pure ()) →
            Play.watch observe bp.dfa t limit bp.dfa.start t [] =
              Play.walk bp.dfa t limit bp.dfa.start t []) ∧
        ∀ (g g' : Game) (e : GameError), g.rules = rules → g.world.board.Complete →
          g.world.board.contains t = true →
          Play.walk bp.dfa t limit bp.dfa.start t [] g = (.error e, g') →
            g.world.Aborts rules.definitions (p.language rules piece) limit t := by
  refine ⟨fun pattern u q h => exists_continuation pattern h, ?_⟩
  intro p rules piece bp h hbp t limit
  have hreads := Program.reads_piece h hbp
  constructor
  · intro observe hquiet
    refine Play.watch_eq_walk limit fun u hu hpath => ?_
    obtain ⟨v, hv⟩ := (hreads.prefix_iff u hu).1 hpath
    exact hquiet u v hv
  · rintro g g' e rfl hg ht hwalk
    rcases Play.walk_explores hreads.deterministic hg ht limit bp.dfa.start [] with
      ⟨-, ms, hms, -⟩ | ⟨hstumbles, -⟩
    · rw [hwalk] at hms
      cases hms
    · exact (stumbles_start_iff hreads).1 hstumbles

/-- Nobody sees the rider go on after it has struck, and the pawn of the pitfall is given up behind the
beginning of a word. -/
theorem Dfa.no_dead_ends_skirmish :
    (skirmish.build = .ok skirmishRules ∧ ∃ bp, skirmishRules.pieces[0]? = some bp ∧
      Play.watch (fun u => if strike ∈ u.dropLast then Play.fail .noMove else pure ()) bp.dfa (0, 0) 256
          bp.dfa.start (0, 0) [] = Play.walk bp.dfa (0, 0) 256 bp.dfa.start (0, 0) []) ∧
    pitfall.build = .ok pitfallRules ∧
      World.Aborts pitfallRules.definitions (pitfall.language pitfallRules 0) 256
        ⟨pitfallRules.vars, pitfallRules.board⟩ (0, 0) := by
  have hpawn : pitfall.build = .ok pitfallRules := rfl
  refine ⟨⟨build_skirmish, _, rfl, ?_⟩, hpawn, ?_⟩
  · refine (Dfa.no_dead_ends.2 skirmish skirmishRules 0 _ build_skirmish rfl (0, 0) 256).1 _
      fun u v huv => ?_
    exact if_neg (strike_notMem_dropLast huv)
  · refine (Dfa.no_dead_ends.2 pitfall pitfallRules 0 _ hpawn rfl (0, 0) 256).2 (.new pitfallRules {}) _
      (.eval (.unknownVariable "gate")) rfl (Program.complete_build hpawn) rfl (Prod.ext ?_ rfl)
    decide +kernel

end BoardGame
