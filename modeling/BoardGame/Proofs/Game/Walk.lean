import BoardGame.Game.Moves
import BoardGame.Proofs.Automaton.Path
import BoardGame.Proofs.Game.Steps

/-!
# The walk of a piece

`Finds k w t q v`: from the world `w` with the piece on `t` and the automaton in state `q`, the steps
`v`, at most `k` of them, can be played and lead to an accepting state. `Stumbles k w t q`: some
evaluation fails on the way. The walk lists what it finds, each word once, and leaves the game as it
was, unless it stumbles (`walk_explores`).
-/

namespace BoardGame

/-! ### Playing steps -/

namespace World

/-- The piece on `t` may make the step: the tile is not empty, the step leads to a tile of the board,
and its condition holds there for the owner of the piece. -/
def Allows (d : Definitions) (w : World) (t : Tile) (s : Step) : Prop :=
  ∃ piece, w.board.get t = .ok (some piece) ∧ w.board.contains (s.target t) = true ∧
    (w.env d { tile := some (s.target t), player := some (d.owner piece) }).holds [] s.condition =
      .ok true

/-- The condition of the step or, where it holds, the step itself fails. -/
def Faults (d : Definitions) (w : World) (t : Tile) (s : Step) : Prop :=
  ∃ piece, w.board.get t = .ok (some piece) ∧ w.board.contains (s.target t) = true ∧
    ((∃ e, (w.env d { tile := some (s.target t), player := some (d.owner piece) }).holds []
      s.condition = .error e) ∨ w.Allows d t s ∧ ∃ e, w.step d t s = .error e)

theorem allows_iff {d : Definitions} {w : World} {t : Tile} {s : Step} {piece : PieceId}
    (hp : w.board.get t = .ok (some piece)) :
    w.Allows d t s ↔ w.board.contains (s.target t) = true ∧
      (w.env d { tile := some (s.target t), player := some (d.owner piece) }).holds [] s.condition =
        .ok true := by
  simp [Allows, hp]

theorem faults_iff {d : Definitions} {w : World} {t : Tile} {s : Step} {piece : PieceId}
    (hp : w.board.get t = .ok (some piece)) :
    w.Faults d t s ↔ w.board.contains (s.target t) = true ∧
      ((∃ e, (w.env d { tile := some (s.target t), player := some (d.owner piece) }).holds []
        s.condition = .error e) ∨ w.Allows d t s ∧ ∃ e, w.step d t s = .error e) := by
  simp [Faults, hp]

/-- The steps can be made one after the other and lead to `w'` with the piece on `t'`. -/
inductive Plays (d : Definitions) : World → Tile → List Step → World → Tile → Prop
  | nil (w : World) (t : Tile) : Plays d w t [] w t
  | cons {w w₁ w' : World} {t t' : Tile} {s : Step} {v : List Step} (ha : w.Allows d t s)
      (hs : w.step d t s = .ok w₁) (h : Plays d w₁ (s.target t) v w' t') : Plays d w t (s :: v) w' t'

theorem Plays.steps_eq_ok {d : Definitions} {w w' : World} {t t' : Tile} {v : List Step}
    (h : Plays d w t v w' t') : w.steps d t v = .ok w' := by
  induction h with
  | nil => rfl
  | cons _ hs _ ih => rw [steps, hs]; exact ih

end World

/-! ### Words found and faults met -/

section
variable (d : Definitions) (dfa : Dfa)

/-- The transition can be made and either ends a word or goes on with what `finds` does. -/
def FindsBy (finds : World → Tile → StateId → List Step → Prop) (w : World) (t : Tile)
    (transition : Step × StateId) (v : List Step) : Prop :=
  w.Allows d t transition.1 ∧ ∃ w₁, w.step d t transition.1 = .ok w₁ ∧
    (v = [] ∧ dfa.isAccepting transition.2 = true ∨
      finds w₁ (transition.1.target t) transition.2 v)

def Finds : Nat → World → Tile → StateId → List Step → Prop
  | 0, _, _, _, _ => False
  | k + 1, w, t, q, v => ∃ transition ∈ dfa.transitions q, ∃ v', v = transition.1 :: v' ∧
      FindsBy d dfa (Finds k) w t transition v'

/-- The transition fails, or can be made and what comes behind it fails. -/
def StumblesBy (stumbles : World → Tile → StateId → Prop) (w : World) (t : Tile)
    (transition : Step × StateId) : Prop :=
  w.Faults d t transition.1 ∨ w.Allows d t transition.1 ∧ ∃ w₁, w.step d t transition.1 = .ok w₁ ∧
    stumbles w₁ (transition.1.target t) transition.2

def Stumbles : Nat → World → Tile → StateId → Prop
  | 0, _, _, _ => False
  | k + 1, w, t, q => ∃ transition ∈ dfa.transitions q, StumblesBy d (Stumbles k) w t transition

end

/-! ### Explorations -/

/-- Either nothing fails and `p` lists what is found, each move once, and leaves the game as it is,
or it fails and the changes it leaves lead back. -/
def Explores (p : Play (List Move)) (g : Game) (found : Move → Prop) (stumbles : Prop) : Prop :=
  (¬ stumbles ∧ ∃ ms, p g = (.ok ms, g) ∧ ms.Nodup ∧ ∀ m, m ∈ ms ↔ found m) ∨
  (stumbles ∧ ∃ e w cs, p g = (.error e, { g with world := w, changes := cs ++ g.changes }) ∧
    Reverts cs w g.world)

theorem Explores.congr {p p' : Play (List Move)} {g : Game} {found found' : Move → Prop}
    {stumbles stumbles' : Prop} (h : Explores p g found stumbles) (hp : p' g = p g)
    (hfound : ∀ m, found m ↔ found' m) (hstumbles : stumbles ↔ stumbles') :
    Explores p' g found' stumbles' := by
  rcases h with ⟨hno, ms, hms, hnodup, hmem⟩ | ⟨hyes, h⟩
  · exact .inl ⟨fun h => hno (hstumbles.2 h), ms, hp.trans hms, hnodup,
      fun m => (hmem m).trans (hfound m)⟩
  · obtain ⟨e, w, cs, he, hcs⟩ := h
    exact .inr ⟨hstumbles.1 hyes, e, w, cs, hp.trans he, hcs⟩

theorem not_finds_nil (d : Definitions) (dfa : Dfa) (k : Nat) (w : World) (t : Tile) (q : StateId) :
    ¬ Finds d dfa k w t q [] := by
  cases k with
  | zero => exact id
  | succ k =>
    rintro ⟨_, _, _, h, -⟩
    cases h

/-- What is found are the words that the automaton accepts and that can be played. -/
theorem finds_iff {d : Definitions} {dfa : Dfa} {k : Nat} {w : World} {t : Tile} {q : StateId}
    {v : List Step} : Finds d dfa k w t q v ↔ 1 ≤ v.length ∧ v.length ≤ k ∧
      (∃ r, dfa.Path q v r ∧ dfa.isAccepting r = true) ∧ ∃ w' t', World.Plays d w t v w' t' := by
  induction k generalizing w t q v with
  | zero =>
    constructor
    · exact False.elim
    · rintro ⟨h₁, h₂, -⟩
      omega
  | succ k ih =>
    constructor
    · rintro ⟨⟨s, q'⟩, he, v, rfl, ha, w₁, hs, ⟨rfl, hacc⟩ | h⟩
      · exact ⟨Nat.le_refl _, Nat.succ_le_succ (Nat.zero_le _), ⟨q', .cons he (.nil _), hacc⟩, w₁, _,
          .cons ha hs (.nil _ _)⟩
      · obtain ⟨-, hlen, ⟨r, hr, hacc⟩, w', t', hplay⟩ := ih.1 h
        exact ⟨Nat.succ_le_succ (Nat.zero_le _), Nat.succ_le_succ hlen, ⟨r, .cons he hr, hacc⟩, w', t',
          .cons ha hs hplay⟩
    · rintro ⟨hpos, hlen, ⟨r, hr, hacc⟩, w', t', hplay⟩
      cases hplay with
      | nil => cases hpos
      | @cons _ w₁ _ _ _ s v ha hs hplay =>
        cases hr with
        | @cons _ q' _ _ _ he hr =>
          refine ⟨(s, q'), he, v, rfl, ha, w₁, hs, ?_⟩
          cases v with
          | nil =>
            cases hr
            exact .inl ⟨rfl, hacc⟩
          | cons s' v =>
            exact .inr (ih.2 ⟨Nat.succ_le_succ (Nat.zero_le _), Nat.le_of_succ_le_succ hlen,
              ⟨r, hr, hacc⟩, w', t', hplay⟩)

/-- The walk stumbles over the last step of a path of the automaton that can be played up to it. -/
theorem stumbles_iff {d : Definitions} {dfa : Dfa} {k : Nat} {w : World} {t : Tile} {q : StateId} :
    Stumbles d dfa k w t q ↔ ∃ u s w' t', u.length < k ∧ (∃ r, dfa.Path q (u ++ [s]) r) ∧
      World.Plays d w t u w' t' ∧ w'.Faults d t' s := by
  induction k generalizing w t q with
  | zero =>
    constructor
    · exact False.elim
    · rintro ⟨u, s, w', t', h, -⟩
      exact absurd h (Nat.not_lt_zero _)
  | succ k ih =>
    constructor
    · rintro ⟨⟨s, q'⟩, he, hf | ⟨ha, w₁, hs, h⟩⟩
      · exact ⟨[], s, w, t, Nat.succ_pos k, ⟨q', .cons he (.nil _)⟩, .nil w t, hf⟩
      · obtain ⟨u, s', w', t', hlen, ⟨r, hr⟩, hplay, hf⟩ := ih.1 h
        exact ⟨s :: u, s', w', t', Nat.succ_lt_succ hlen, ⟨r, .cons he hr⟩, .cons ha hs hplay, hf⟩
    · rintro ⟨u, s, w', t', hlen, ⟨r, hr⟩, hplay, hf⟩
      cases hplay with
      | nil =>
        cases hr with
        | @cons _ q' _ _ _ he hr => exact ⟨(s, q'), he, .inl hf⟩
      | @cons _ w₁ _ _ _ s' u ha hs hplay =>
        cases hr with
        | @cons _ q' _ _ _ he hr =>
          exact ⟨(s', q'), he, .inr ⟨ha, w₁, hs,
            ih.2 ⟨u, s, w', t', Nat.lt_of_succ_lt_succ hlen, ⟨r, hr⟩, hplay, hf⟩⟩⟩

namespace Play
variable {α : Type} {g : Game} {d : Definitions} {dfa : Dfa} {start t : Tile} {path : List Step}
  {q : StateId} {k : Nat} {piece : PieceId}

theorem collect_explores {f : α → Play (List Move)} {found : α → Move → Prop} {stumbles : α → Prop}
    {as : List α} (hf : ∀ a ∈ as, Explores (f a) g (found a) (stumbles a))
    (hdisj : as.Pairwise fun a a' => ∀ m, found a m → ¬ found a' m) :
    Explores (collect f as) g (fun m => ∃ a ∈ as, found a m) (∃ a ∈ as, stumbles a) := by
  induction as with
  | nil => exact .inl ⟨by simp, [], rfl, List.nodup_nil, by simp⟩
  | cons a as ih =>
    obtain ⟨hhead, hdisj⟩ := List.pairwise_cons.1 hdisj
    have hrest := ih (fun a h => hf a (List.mem_cons_of_mem _ h)) hdisj
    rcases hf a (List.mem_cons_self ..) with ⟨hno, ms, hms, hnodup, hmem⟩ | ⟨hyes, e, w, cs, he, hcs⟩
    · rcases hrest with ⟨hno', ms', hms', hnodup', hmem'⟩ | ⟨⟨b, hb, hyes⟩, e, w, cs, he, hcs⟩
      · refine .inl ⟨?_, ms ++ ms', ?_, ?_, ?_⟩
        · rintro ⟨b, hb, hyes⟩
          rcases List.mem_cons.1 hb with rfl | hb
          · exact hno hyes
          · exact hno' ⟨b, hb, hyes⟩
        · simp only [collect, bind_apply, hms, hms', pure_apply]
        · refine List.nodup_append.2 ⟨hnodup, hnodup', fun m hm m' hm' heq => ?_⟩
          obtain ⟨b, hb, hfound⟩ := (hmem' m').1 hm'
          exact hhead b hb m ((hmem m).1 hm) (heq ▸ hfound)
        · intro m
          rw [List.mem_append, hmem, hmem']
          exact (List.exists_mem_cons_iff (fun a => found a m) a as).symm
      · refine .inr ⟨⟨b, List.mem_cons_of_mem _ hb, hyes⟩, e, w, cs, ?_, hcs⟩
        simp only [collect, bind_apply, hms, he]
    · refine .inr ⟨⟨a, List.mem_cons_self .., hyes⟩, e, w, cs, ?_, hcs⟩
      simp only [collect, bind_apply, he]

/-! ### Following a transition -/

theorem permitted_of_not_contains {s : Step} {player : PlayerId}
    (h : ¬ g.world.board.contains t = true) : permitted s t player g = (.ok false, g) := by
  simp [permitted, Game.board, h]

theorem permitted_of_ok {s : Step} {player : PlayerId} {b : Bool}
    (h : g.world.board.contains t = true)
    (hb : (g.env { tile := some t, player := some player }).holds [] s.condition = .ok b) :
    permitted s t player g = (.ok b, g) := by
  simp [permitted, Game.board, h, hb]

theorem permitted_of_error {s : Step} {player : PlayerId} {e : EvalError}
    (h : g.world.board.contains t = true)
    (hb : (g.env { tile := some t, player := some player }).holds [] s.condition = .error e) :
    permitted s t player g = (.error (.eval e), g) := by
  simp [permitted, Game.board, h, hb]

theorem permitted_cases (hp : g.world.board.get t = .ok (some piece)) (s : Step) :
    (¬ g.world.Allows g.definitions t s ∧ ¬ g.world.Faults g.definitions t s ∧
      permitted s (s.target t) (g.definitions.owner piece) g = (.ok false, g)) ∨
    (g.world.Faults g.definitions t s ∧
      ∃ e, permitted s (s.target t) (g.definitions.owner piece) g = (.error e, g)) ∨
    (g.world.Allows g.definitions t s ∧
      (g.world.Faults g.definitions t s ↔ ∃ e, g.world.step g.definitions t s = .error e) ∧
      permitted s (s.target t) (g.definitions.owner piece) g = (.ok true, g)) := by
  rw [World.allows_iff hp, World.faults_iff hp, World.allows_iff hp]
  by_cases hin : g.world.board.contains (s.target t) = true
  swap
  · -- nobody steps off the board
    exact .inl ⟨fun h => hin h.1, fun h => hin h.1, permitted_of_not_contains hin⟩
  cases hcond : (g.world.env g.definitions
    { tile := some (s.target t), player := some (g.definitions.owner piece) }).holds [] s.condition with
  | error e => exact .inr (.inl ⟨⟨hin, .inl ⟨e, rfl⟩⟩, _, permitted_of_error hin hcond⟩)
  | ok holds =>
    cases holds with
    | false => exact .inl ⟨by simp, by simp, permitted_of_ok hin hcond⟩
    | true => exact .inr (.inr ⟨⟨hin, rfl⟩, by simp [hin], permitted_of_ok hin hcond⟩)

/-- The word that ends here is not found again further on. -/
theorem nodup_and_mem_append {word : List Step} {ms : List Move} {finds : List Step → Prop}
    (ends : Bool) (hnil : ¬ finds []) (hnodup : ms.Nodup)
    (hmem : ∀ m, m ∈ ms ↔ ∃ v, finds v ∧ m = ⟨start, word ++ v⟩) :
    ((if ends then [(⟨start, word⟩ : Move)] else []) ++ ms).Nodup ∧
      ∀ m, m ∈ (if ends then [(⟨start, word⟩ : Move)] else []) ++ ms ↔
        ∃ v, (v = [] ∧ ends = true ∨ finds v) ∧ m = ⟨start, word ++ v⟩ := by
  cases ends with
  | false => exact ⟨by simpa using hnodup, fun m => by simp [hmem]⟩
  | true =>
    have hword : (⟨start, word⟩ : Move) ∉ ms := by
      intro hm
      obtain ⟨v, hv, heq⟩ := (hmem _).1 hm
      rw [List.append_right_eq_self.1 (Move.mk.inj heq).2.symm] at hv
      exact hnil hv
    refine ⟨List.nodup_cons.2 ⟨hword, hnodup⟩, fun m => ?_⟩
    simp only [if_true, List.singleton_append, List.mem_cons, hmem]
    constructor
    · rintro (rfl | ⟨v, hv, rfl⟩)
      · exact ⟨[], .inl ⟨rfl, trivial⟩, by simp⟩
      · exact ⟨v, .inr hv, rfl⟩
    · rintro ⟨v, ⟨rfl, -⟩ | hv, rfl⟩
      · exact .inl (by simp)
      · exact .inr ⟨v, hv, rfl⟩

theorem follow_explores {walk : StateId → Tile → List Step → Play (List Move)}
    {finds : World → Tile → StateId → List Step → Prop} {stumbles : World → Tile → StateId → Prop}
    (hwalk : ∀ g' : Game, g'.definitions = g.definitions → g'.world.board.Complete →
      ∀ q t path, g'.world.board.contains t = true → Explores (walk q t path) g'
        (fun m => ∃ v, finds g'.world t q v ∧ m = ⟨start, path.reverse ++ v⟩)
        (stumbles g'.world t q))
    (hfinds : ∀ w t q, ¬ finds w t q []) (hg : g.world.board.Complete)
    (hp : g.world.board.get t = .ok (some piece)) (transition : Step × StateId) :
    Explores (follow dfa start walk t path (g.definitions.owner piece) transition) g
      (fun m => ∃ v, FindsBy g.definitions dfa finds g.world t transition v ∧
        m = ⟨start, path.reverse ++ transition.1 :: v⟩)
      (StumblesBy g.definitions stumbles g.world t transition) := by
  obtain ⟨s, next⟩ := transition
  unfold follow
  rcases permitted_cases hp s with ⟨hna, hnf, hper⟩ | ⟨hf, e, hper⟩ | ⟨ha, hiff, hper⟩
  · refine .inl ⟨?_, [], by simp [hper], List.nodup_nil, by simp [FindsBy, hna]⟩
    rintro (hf | ⟨ha, -⟩)
    exacts [hnf hf, hna ha]
  · exact .inr ⟨.inl hf, e, g.world, [], by simp [hper], .nil _⟩
  rcases makeStep_spec hg t s with ⟨e, hstep, hmake⟩ | ⟨w₁, c, hstep, hc, hmake⟩
  · exact .inr ⟨.inl (hiff.2 ⟨e, hstep⟩), e, g.world, [], by simp [hper, hmake], .nil _⟩
  have hin : w₁.board.contains (s.target t) = true := by
    rw [World.contains_step hstep]
    exact ha.choose_spec.2.1
  rcases hwalk { g with world := w₁, changes := c :: g.changes } rfl (World.complete_step hg hstep)
    next (s.target t) (s :: path) hin with ⟨hno, ms, hms, hnodup, hmem⟩ | ⟨hyes, e, w, cs, he, hcs⟩
  · have hundo : undoStep { g with world := w₁, changes := c :: g.changes } = (.ok (), g) :=
      undoStep_of_revert rfl hc
    obtain ⟨hnodup, hmem⟩ :=
      nodup_and_mem_append (dfa.isAccepting next) (hfinds _ _ _) hnodup hmem
    refine .inl ⟨?_, _, by simp [hper, hmake, hms, hundo], hnodup, fun m => ?_⟩
    · rintro (hf | ⟨-, w, hw, hyes⟩)
      · obtain ⟨e, he⟩ := hiff.1 hf
        rw [hstep] at he
        cases he
      · rw [hstep] at hw
        cases hw
        exact hno hyes
    · refine (hmem m).trans ?_
      simp [FindsBy, ha, hstep]
  · refine .inr ⟨.inr ⟨ha, w₁, hstep, hyes⟩, e, w, cs ++ [c], ?_, hcs.append (.cons hc (.nil _))⟩
    simp [hper, hmake, he]

/-- The walk lists what there is to find, or stumbles. -/
theorem walk_explores (hdet : dfa.Deterministic) (hg : g.world.board.Complete)
    (ht : g.world.board.contains t = true) (k : Nat) (q : StateId) (path : List Step) :
    Explores (walk dfa start k q t path) g
      (fun m => ∃ v, Finds g.definitions dfa k g.world t q v ∧ m = ⟨start, path.reverse ++ v⟩)
      (Stumbles g.definitions dfa k g.world t q) := by
  induction k generalizing g q t path with
  | zero =>
    obtain ⟨p, hp⟩ := Board.exists_get_of_contains ht
    refine .inl ⟨id, [], ?_, List.nodup_nil, ?_⟩
    · simp [walk, pieceAt_of_ok hp]
    · simp [Finds]
  | succ k ih =>
    obtain ⟨p, hp⟩ := Board.exists_get_of_contains ht
    cases p with
    | none =>
      have hna : ∀ s, ¬ g.world.Allows g.definitions t s := by
        rintro s ⟨piece, h, -⟩
        rw [hp] at h
        cases h
      refine .inl ⟨?_, [], ?_, List.nodup_nil, ?_⟩
      · rintro ⟨transition, -, ⟨piece, h, -⟩ | ⟨ha, -⟩⟩
        · rw [hp] at h
          cases h
        · exact hna _ ha
      · simp [walk, pieceAt_of_ok hp]
      · simp [Finds, FindsBy, hna]
    | some piece =>
      have hfollow : ∀ transition ∈ dfa.transitions q, Explores
          (follow dfa start (walk dfa start k) t path (g.definitions.owner piece) transition) g
          (fun m => ∃ v, FindsBy g.definitions dfa (Finds g.definitions dfa k) g.world t transition v ∧
            m = ⟨start, path.reverse ++ transition.1 :: v⟩)
          (StumblesBy g.definitions (Stumbles g.definitions dfa k) g.world t transition) :=
        fun transition _ => follow_explores (fun g' hd hg' q t path ht => hd ▸ ih hg' ht q path)
          (not_finds_nil g.definitions dfa k) hg hp transition
      have hwalk : walk dfa start (k + 1) q t path g = collect
          (follow dfa start (walk dfa start k) t path (g.definitions.owner piece))
          (dfa.transitions q) g := by
        simp [walk, pieceAt_of_ok hp]
      have hdisj := List.pairwise_map.1 (hdet q)
      refine (collect_explores hfollow (hdisj.imp ?_)).congr hwalk (fun m => ?_) Iff.rfl
      · rintro a a' hne m ⟨v, -, rfl⟩ ⟨v', -, heq⟩
        have hcons := List.append_cancel_left (Move.mk.inj heq).2
        exact hne (List.cons.inj hcons).1
      constructor
      · rintro ⟨transition, htr, v, hv, rfl⟩
        exact ⟨_, ⟨transition, htr, v, rfl, hv⟩, rfl⟩
      · rintro ⟨_, ⟨transition, htr, v, rfl, hv⟩, rfl⟩
        exact ⟨transition, htr, v, hv, rfl⟩

end Play
end BoardGame
