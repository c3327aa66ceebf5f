import BoardGame.Proofs.Grammar.Progress
import BoardGame.Proofs.Grammar.Unlimited

/-!
# Every production ends

A loop reads a token in each round, and what nests stands behind at least one more token. So the limits of
the parsers are never felt: the grammar without them ends on as much fuel as there are tokens left, with the
same outcome (`Ends`). One lemma a combinator, and by induction on the depth for operands and movements.
-/

-- the longest productions are sequences of a dozen parsers
set_option synthInstance.maxSize 4096

namespace BoardGame.Parser
variable {α β : Type} {ts : Array Token}

/-! ### Runs without limits -/

/-- The run ends with the outcome `out`, and each round of its loops has read a token. -/
def EndsAs (run : Option (Process.Outcome α)) (out : Option α × Reader) : Prop :=
  ∃ rounds, run = some ⟨out.1, out.2, rounds⟩ ∧ ∀ round ∈ rounds, round.1 < round.2

/-- From the token `lo` on, `x` ends as `p` does if there is more fuel than tokens left. -/
class Ends (ts : Array Token) (lo : Nat) (x : Process α) (p : Parser α) : Prop where
  ends : ∀ {n r}, lo ≤ r.cursor → r.cursor ≤ ts.size → ts.size < r.cursor + n → EndsAs (x n ts r) (p ts r)

section
variable {lo hi n : Nat} {r : Reader} {x y : Process α} {p q : Parser α} {k : α → Process β}
  {l : α → Parser β} {rounds : List (Nat × Nat)}

theorem EndsAs.behind {run : Option (Process.Outcome α)} {out : Option α × Reader} (h : EndsAs run out)
    (hrounds : ∀ round ∈ rounds, round.1 < round.2) : EndsAs (run.map (.behind rounds)) out := by
  obtain ⟨rest, rfl, hrest⟩ := h
  exact ⟨rounds ++ rest, rfl, fun round hround => (List.mem_append.1 hround).elim (hrounds round) (hrest round)⟩

theorem Ends.mono (h : Ends ts lo x p) (hle : lo ≤ hi) : Ends ts hi x p :=
  ⟨fun hlo => h.ends (Nat.le_trans hle hlo)⟩

instance (p : Parser α) : Ends ts lo (liftM p) p := ⟨fun _ _ _ => ⟨[], rfl, nofun⟩⟩

instance (a : α) : Ends ts lo (pure a) (pure a) := ⟨fun _ _ _ => ⟨[], rfl, nofun⟩⟩

instance endsIte (b : Prop) [Decidable b] [Ends ts lo x p] [Ends ts lo y q] :
    Ends ts lo (if b then x else y) (if b then p else q) := by
  split <;> infer_instance

/-- What `k` does after `x`, which leaves `hi` tokens behind. -/
theorem Ends.bind_of (hx : Ends ts lo x p) [hp : Forward ts p]
    (hhi : ∀ {r a s}, lo ≤ r.cursor → r.cursor ≤ ts.size → p ts r = (some a, s) → hi ≤ s.cursor)
    (hk : ∀ a, Ends ts hi (k a) (l a)) : Ends ts lo (x >>= k) (p >>= l) := by
  refine ⟨fun {n r} hlo hsize hn => ?_⟩
  obtain ⟨rounds, hrun, hrounds⟩ := hx.ends hlo hsize hn
  rcases hout : p ts r with ⟨_ | a, s⟩
  · rw [hout] at hrun
    rw [bind_of_none hout, Process.bind_of_none hrun]
    exact ⟨rounds, rfl, hrounds⟩
  · rw [hout] at hrun
    rw [run_bind_of_some hout, Process.bind_of_some hrun]
    obtain ⟨hle, hs⟩ := hp.forward hsize hout
    have hfuel : ts.size < s.cursor + n := Nat.lt_of_lt_of_le hn (Nat.add_le_add_right hle n)
    exact ((hk a).ends (hhi hlo hsize hout) hs hfuel).behind hrounds

theorem Ends.bind (hx : Ends ts lo x p) [hp : Forward ts p] (hk : ∀ a, Ends ts lo (k a) (l a)) :
    Ends ts lo (x >>= k) (p >>= l) :=
  hx.bind_of (fun hlo hsize hrun => Nat.le_trans hlo (hp.forward hsize hrun).1) hk

instance [hx : Ends ts lo x p] [Forward ts p] [hk : ∀ a, Ends ts lo (k a) (l a)] :
    Ends ts lo (x >>= k) (p >>= l) := hx.bind hk

/-- What stands behind a token starts further on. -/
theorem Ends.behind (hx : Ends ts lo x p) [hp : Consumes ts p] (hk : ∀ a, Ends ts (lo + 1) (k a) (l a)) :
    Ends ts lo (x >>= k) (p >>= l) :=
  hx.bind_of (fun hlo hsize hrun => Nat.lt_of_le_of_lt hlo (hp.consumes hsize hrun).1) hk

instance endsAttempt [hx : Ends ts lo x p] : Ends ts lo (Process.attempt x) (attempt p) := by
  refine ⟨fun {n r} hlo hsize hn => ?_⟩
  obtain ⟨rounds, hrun, hrounds⟩ := hx.ends hlo hsize hn
  rcases hout : p ts r with ⟨_ | a, s⟩
  · rw [hout] at hrun
    rw [attempt_of_none hout, Process.attempt_of_none hrun]
    exact ⟨rounds, rfl, hrounds⟩
  · rw [hout] at hrun
    rw [attempt_of_some hout, Process.attempt_of_some hrun]
    exact ⟨rounds, rfl, hrounds⟩

instance [hx : Ends ts lo x p] [hy : Ends ts lo y q] : Ends ts lo (Process.orElse x y) (orElse p q) := by
  refine ⟨fun {n r} hlo hsize hn => ?_⟩
  obtain ⟨rounds, hrun, hrounds⟩ := hx.ends hlo hsize hn
  rcases hout : p ts r with ⟨_ | a, s⟩
  · rw [hout] at hrun
    rw [orElse, attempt_of_none hout, Process.orElse_of_none hrun]
    exact (hy.ends (r := { s with cursor := r.cursor }) hlo hsize hn).behind hrounds
  · rw [hout] at hrun
    rw [orElse, attempt_of_some hout, Process.orElse_of_some hrun]
    exact ⟨rounds, rfl, hrounds⟩

instance [hx : Ends ts lo x p] : Ends ts lo (Process.optional x) (optional p) := by
  refine ⟨fun {n r} hlo hsize hn => ?_⟩
  obtain ⟨rounds, hrun, hrounds⟩ := (endsAttempt (x := x) (p := p)).ends hlo hsize hn
  rw [Process.optional, hrun]
  exact ⟨rounds, rfl, hrounds⟩

/-- Each round reads a token, so there are no more of them than tokens left. -/
theorem endsAs_manyWithin [hx : Ends ts lo x p] [hp : Consumes ts p] {m : Nat} (hlo : lo ≤ r.cursor)
    (hsize : r.cursor ≤ ts.size) (hn : ts.size < r.cursor + n) (hm : ts.size < r.cursor + m) :
    EndsAs (Process.manyWithin x n m ts r) (many p ts r) := by
  induction m generalizing r with
  | zero => exact absurd hsize (Nat.not_le_of_lt hm)
  | succ m ih =>
    obtain ⟨rounds, hrun, hrounds⟩ := hx.ends hlo hsize hn
    rcases hout : p ts r with ⟨_ | a, s⟩
    · rw [hout] at hrun
      rw [many_of_none hout, Process.manyWithin_of_none hrun]
      exact ⟨rounds, rfl, hrounds⟩
    · rw [hout] at hrun
      obtain ⟨hlt, hs⟩ := hp.consumes hsize hout
      obtain ⟨rest, hrest, hlater⟩ := ih (r := s) (by omega) hs (by omega) (by omega)
      rw [many_of_lt hout hlt hs, Process.manyWithin_of_some hrun, hrest]
      refine ⟨rounds ++ (r.cursor, s.cursor) :: rest, rfl, fun round hround => ?_⟩
      rcases List.mem_append.1 hround with h | h
      · exact hrounds round h
      · rcases List.mem_cons.1 h with rfl | h
        · exact hlt
        · exact hlater round h

instance [Ends ts lo x p] [Consumes ts p] : Ends ts lo (Process.many x) (many p) :=
  ⟨fun hlo hsize hn => endsAs_manyWithin hlo hsize hn hn⟩

end

section
variable {lo : Nat} {x : Process α} {p : Parser α}

instance [Ends ts lo x p] [Forward ts p] : Ends ts lo (Process.spanned x) (spanned p) := by
  delta Process.spanned spanned; infer_instance

variable [Ending ts]

instance [Ends ts lo x p] [Consumes ts p] : Ends ts lo (Process.separated x) (separated p) := by
  delta Process.separated separated; infer_instance

instance [Ends ts lo x p] [Consumes ts p] : Ends ts lo (Process.separatedOrNone x) (separatedOrNone p) := by
  delta Process.separatedOrNone separatedOrNone; infer_instance

theorem Ends.between [Forward ts p] (left right : String) (h : Ends ts (lo + 1) x p) :
    Ends ts lo (Process.between left right x) (between left right p) := by
  have hbracket : Ends ts lo
      (liftM (symbol left) >>= fun _ => x >>= fun a => liftM (symbol right) >>= fun _ => pure a)
      (symbol left >>= fun _ => p >>= fun a => symbol right >>= fun _ => pure a) :=
    Ends.behind inferInstance fun _ => inferInstance
  exact endsAttempt

instance [h : Ends ts lo x p] [Forward ts p] (left right : String) :
    Ends ts lo (Process.between left right x) (between left right p) :=
  (h.mono (Nat.le_succ lo)).between left right

end

section
variable [Ending ts] {lo : Nat} {x : Process Expr} {p : Parser Expr}

instance [Ends ts lo x p] [Consumes ts p] (level : List (String × BinaryOp)) :
    Ends ts lo (Process.leftAssoc level x) (leftAssoc level p) := by
  delta Process.leftAssoc leftAssoc; infer_instance

instance [Ends ts lo x p] [Consumes ts p] : Ends ts lo (Process.exprOver x) (exprOver p) := by
  delta Process.exprOver exprOver; infer_instance

theorem Ends.callOver [Consumes ts p] (h : Ends ts (lo + 1) x p) :
    Ends ts lo (Process.callOver x) (callOver p) := by
  have : Ends ts lo (Process.between "(" ")" (Process.separatedOrNone x))
    (Parser.between "(" ")" (separatedOrNone p)) := Ends.between "(" ")" inferInstance
  delta Process.callOver Parser.callOver
  infer_instance

theorem Ends.variableOver [Consumes ts p] (h : Ends ts (lo + 1) x p) :
    Ends ts lo (Process.variableOver x) (variableOver p) := by
  have : Ends ts lo (Process.indices x) (indices p) := by
    have := h.between "[" "]"
    delta Process.indices indices
    infer_instance
  delta Process.variableOver Parser.variableOver
  refine @endsAttempt _ _ _ _ _ (Ends.bind inferInstance fun name => @endsIte _ _ _ _ _ _ _ _ _ inferInstance
    (Ends.bind inferInstance fun key => ?_))
  cases key with
  | some key => infer_instance
  | none =>
    refine Ends.bind inferInstance fun is => ?_
    cases is <;> infer_instance

theorem Ends.core [Consumes ts p] (h : Ends ts (lo + 1) x p) : Ends ts lo (Process.core x) (core p) := by
  have := h.callOver
  have := h.variableOver
  have := h.between "(" ")"
  delta Process.core Parser.core
  infer_instance

theorem Ends.operand {n m : Nat} (h : Ends ts (lo + 1) (Process.operand n) (operand m)) :
    Ends ts lo (Process.operand (n + 1)) (operand (m + 1)) := by
  have : Ends ts (lo + 1) (Process.exprOver (Process.operand n)) (exprOver (Parser.operand m)) := inferInstance
  have := this.core
  have : Ends ts lo (liftM unaryOp >>= fun op => Process.operand n >>= fun e => pure (Expr.unary op e))
      (unaryOp >>= fun op => Parser.operand m >>= fun e => pure (Expr.unary op e)) :=
    Ends.behind inferInstance fun op => inferInstance
  exact inferInstanceAs (Ends ts lo (Process.orElse _ (Process.core (Process.exprOver (Process.operand n))))
    (orElse _ (Parser.core (exprOver (Parser.operand m)))))

end

/-- What nests behind at least one more token does not feel the limit on its nesting, if that is more than the
tokens left. -/
theorem ends_of_step {f : Nat → Process α} {g : Nat → Parser α}
    (hstep : ∀ lo n m, Ends ts (lo + 1) (f n) (g m) → Ends ts lo (f (n + 1)) (g (m + 1)))
    {lo n m : Nat} (hn : ts.size < lo + n) (hm : ts.size < lo + m) : Ends ts lo (f n) (g m) := by
  induction n generalizing lo m with
  | zero => exact ⟨fun hlo hsize => absurd (Nat.le_trans hlo hsize) (Nat.not_le_of_lt hn)⟩
  | succ n ih =>
    cases m with
    | zero => exact ⟨fun hlo hsize => absurd (Nat.le_trans hlo hsize) (Nat.not_le_of_lt hm)⟩
    | succ m => exact hstep lo n m (ih (by omega) (by omega))

section
variable [Ending ts] {lo : Nat}

theorem ends_operand {n m : Nat} (hn : ts.size < lo + n) (hm : ts.size < lo + m) :
    Ends ts lo (Process.operand n) (operand m) :=
  ends_of_step (f := Process.operand) (g := operand) (fun _ _ _ h => h.operand) hn hm

instance : Ends ts lo Process.expr expr := by
  refine ⟨fun {n r} _ hsize hn => ?_⟩
  have : Ends ts r.cursor (Process.operand n) (operand (ts.size + 1)) := ends_operand hn (by omega)
  have h : Ends ts r.cursor (Process.exprOver (Process.operand n)) (exprOver (operand (ts.size + 1))) :=
    inferInstance
  exact h.ends (Nat.le_refl _) hsize hn

instance : Ends ts lo Process.call call := by
  have h : Ends ts (lo + 1) Process.expr expr := inferInstance
  exact h.callOver

instance : Ends ts lo Process.condition condition := by
  delta Process.condition condition; infer_instance

instance : Ends ts lo Process.letter letter := by
  delta Process.letter letter; infer_instance

variable {x : Process Movement} {p : Parser Movement}

theorem Ends.term [Consumes ts p] (h : Ends ts (lo + 1) x p) : Ends ts lo (Process.term x) (term p) := by
  have := h.between "(" ")"
  delta Process.term Parser.term
  infer_instance

theorem Ends.repeated [Consumes ts p] (h : Ends ts (lo + 1) x p) :
    Ends ts lo (Process.repeated x) (repeated p) := by
  have := h.term
  delta Process.repeated Parser.repeated
  refine @endsAttempt _ _ _ _ _ (Ends.bind inferInstance fun inner => Ends.bind inferInstance fun t => ?_)
  cases repetition? t <;> infer_instance

theorem Ends.concatenation [Consumes ts p] (h : Ends ts (lo + 1) x p) :
    Ends ts lo (Process.concatenation x) (concatenation p) := by
  have := h.repeated
  delta Process.concatenation Parser.concatenation
  infer_instance

theorem Ends.movementWithin {n m : Nat} (h : Ends ts (lo + 1) (Process.movementWithin n) (movementWithin m)) :
    Ends ts lo (Process.movementWithin (n + 1)) (movementWithin (m + 1)) := by
  have := h.concatenation
  have : Ends ts lo (liftM (operator "|") >>= fun _ => Process.movementWithin n)
      (operator "|" >>= fun _ => Parser.movementWithin m) := Ends.behind inferInstance fun _ => h
  refine @endsAttempt _ _ _ _ _ (Ends.bind inferInstance fun left => Ends.bind inferInstance fun right => ?_)
  cases right <;> infer_instance

theorem ends_movementWithin {n m : Nat} (hn : ts.size < lo + n) (hm : ts.size < lo + m) :
    Ends ts lo (Process.movementWithin n) (movementWithin m) :=
  ends_of_step (f := Process.movementWithin) (g := movementWithin) (fun _ _ _ h => h.movementWithin) hn hm

instance : Ends ts lo Process.movement movement := by
  refine ⟨fun {n r} _ hsize hn => ?_⟩
  have h : Ends ts r.cursor (Process.movementWithin n) (movementWithin (ts.size + 1)) :=
    ends_movementWithin hn (by omega)
  exact h.ends (Nat.le_refl _) hsize hn

instance : Ends ts lo Process.params params := by delta Process.params params; infer_instance

instance : Ends ts lo Process.players players := by delta Process.players players; infer_instance

instance : Ends ts lo Process.pieces pieces := by delta Process.pieces pieces; infer_instance

instance : Ends ts lo Process.rule rule := by delta Process.rule rule; infer_instance

instance : Ends ts lo Process.moveMacro moveMacro := by delta Process.moveMacro moveMacro; infer_instance

instance : Ends ts lo Process.returnBlock returnBlock := by
  delta Process.returnBlock returnBlock; infer_instance

instance : Ends ts lo Process.predicate predicate := by delta Process.predicate predicate; infer_instance

instance : Ends ts lo (Process.indices Process.expr) (indices expr) := by
  delta Process.indices indices; infer_instance

instance : Ends ts lo Process.assignment assignment := by delta Process.assignment assignment; infer_instance

instance : Ends ts lo Process.effect effect := by delta Process.effect effect; infer_instance

instance : Ends ts lo Process.variableDecl variableDecl := by
  delta Process.variableDecl variableDecl; infer_instance

instance : Ends ts lo Process.victory victory := by delta Process.victory victory; infer_instance

instance : Ends ts lo Process.declaration declaration := by
  delta Process.declaration declaration; infer_instance

instance : Ends ts lo Process.board board := by delta Process.board board; infer_instance

instance : Ends ts lo Process.program program := by delta Process.program program; infer_instance

end

/-! ### Productions -/

/-- From `r` on the production ends, which takes no more fuel than one more than there are tokens left: so the
parser is what it does without limits, and each round of its loops reads a token. If it fails the cursor is
where it was, and else it is further on. -/
structure Settles (x : Process α) (p : Parser α) (ts : Array Token) (r : Reader) : Prop where
  ends : ∀ n, ts.size < r.cursor + n → EndsAs (x n ts r) (p ts r)
  restores : ∀ s, p ts r = (none, s) → s.cursor = r.cursor
  advances : ∀ a s, p ts r = (some a, s) → r.cursor < s.cursor ∧ s.cursor ≤ ts.size

theorem Settles.of_ends {x : Process α} {p : Parser α} {r : Reader} [hx : Ends ts r.cursor x p]
    [hr : Restores ts p] [hc : Consumes ts p] (hsize : r.cursor ≤ ts.size) : Settles x p ts r where
  ends _ hn := hx.ends (Nat.le_refl _) hsize hn
  restores _ := hr.restores
  advances _ _ := hc.consumes hsize

/-- Wherever a production starts, it ends if the last token is the end of input. -/
theorem settles_productions {r : Reader} (hts : ts.back?.map Token.kind = some .endOfInput)
    (hsize : r.cursor ≤ ts.size) :
    Settles Process.expr expr ts r ∧ Settles Process.movement movement ts r ∧ Settles Process.call call ts r ∧
    Settles Process.letter letter ts r ∧ Settles Process.declaration declaration ts r ∧
    Settles Process.board board ts r ∧ Settles Process.program program ts r := by
  have : Ending ts := ⟨hts⟩
  exact ⟨.of_ends hsize, .of_ends hsize, .of_ends hsize, .of_ends hsize, .of_ends hsize, .of_ends hsize,
    .of_ends hsize⟩

/-- The tokens of `-1 + x`, behind a comma and in front of an end of input that has a text. -/
def sumTokens : Array Token := #[⟨.comma, ",", ⟨0, 1, 1⟩⟩, ⟨.operator, "-", ⟨1, 1, 2⟩⟩,
  ⟨.integer, "1", ⟨2, 1, 3⟩⟩, ⟨.operator, "+", ⟨4, 1, 5⟩⟩, ⟨.word, "x", ⟨6, 1, 7⟩⟩,
  ⟨.endOfInput, "end", ⟨7, 1, 8⟩⟩]

theorem settles_productions_sum : sumTokens.back?.map Token.kind = some .endOfInput ∧ 1 ≤ sumTokens.size ∧
    EndsAs (Process.expr 6 sumTokens ⟨1, none⟩) (expr sumTokens ⟨1, none⟩) ∧
    (expr sumTokens ⟨1, none⟩).1 = some (.binary .add (.unary .neg (.literal 1)) (.var "x")) ∧
    (Process.expr 6 sumTokens ⟨1, none⟩).map Process.Outcome.rounds = some [(3, 5)] :=
  ⟨by decide, by decide, (settles_productions (r := ⟨1, none⟩) (by decide) (by decide)).1.ends 6 (by decide),
    by decide +kernel, by decide +kernel⟩

end BoardGame.Parser
