import BoardGame.Grammar.Movement
import BoardGame.Proofs.Grammar.Reading

/-!
# Nesting

Expressions and movements are readable, and as deep as they can nest on the tokens that are left, the
limit on their nesting is not felt (`agreeTo_operand`, `agreeTo_movementWithin`): whatever is nested
comes after at least one more token.
-/

namespace BoardGame.Parser
open Lexeme (next)
variable {α β : Type}

/-! ### Readings that agree on short lists -/

/-- `r` and `s` read the same from at most `n` lexemes. -/
def AgreeTo (n : Nat) (r s : Reading α) : Prop := ∀ xs, xs.length ≤ n → r xs = s xs

section
variable {n : Nat}

theorem AgreeTo.bind {p q : Parser α} {k l : α → Parser β} [Readable p] [Readable q]
    [∀ a, Readable (k a)] [∀ a, Readable (l a)] (h : AgreeTo n (read p) (read q))
    (hrest : ∀ a, AgreeTo n (read (k a)) (read (l a))) :
    AgreeTo n (read (p >>= k)) (read (q >>= l)) := by
  intro xs hxs
  rw [read_bind, read_bind, ← h xs hxs]
  cases hp : read p xs with
  | none => rfl
  | some x => exact hrest x.1 x.2 (Nat.le_trans (length_le_of_read hp) hxs)

theorem AgreeTo.readMany_eq {r s : Reading α} (h : AgreeTo n r s) (xs : List Lexeme)
    (hxs : xs.length ≤ n) : readMany r xs = readMany s xs := by
  induction hn : xs.length using Nat.strongRecOn generalizing xs with
  | ind m ih =>
    rw [readMany, readMany, ← h xs hxs]
    cases r xs with
    | none => rfl
    | some x =>
      by_cases hlt : x.2.length < xs.length
      · simp only [hlt, if_true, ih _ (hn ▸ hlt) x.2 (by omega) rfl]
      · simp only [hlt, if_false]

variable {p q : Parser α} [Readable p] [Readable q]

theorem AgreeTo.between {left right : String} (h : AgreeTo n (read p) (read q)) :
    AgreeTo (n + 1) (read (between left right p)) (read (between left right q)) := by
  intro xs hxs
  ext ⟨a, ys⟩
  simp only [read_between_eq_some_iff]
  refine exists_congr fun zs => and_congr_right fun heq => ?_
  rw [h zs (by rw [heq] at hxs; simpa using hxs)]

theorem AgreeTo.separated (h : AgreeTo n (read p) (read q)) :
    AgreeTo n (read (separated p)) (read (separated q)) := by
  have hitem : AgreeTo n (readItem p) (readItem q) := .bind (fun _ _ => rfl) fun _ => h
  intro xs hxs
  rw [read_separated, read_separated, ← h xs hxs]
  cases hp : read p xs with
  | none => rfl
  | some x =>
    simp only [Option.map_some, hitem.readMany_eq x.2 (Nat.le_trans (length_le_of_read hp) hxs)]

theorem AgreeTo.separatedOrNone (h : AgreeTo n (read p) (read q)) :
    AgreeTo n (read (separatedOrNone p)) (read (separatedOrNone q)) := by
  intro xs hxs
  rw [read_separatedOrNone, read_separatedOrNone, h.separated xs hxs]

end

/-! ### Expressions -/

/-- The operator of the level that a lexeme is. -/
def levelOp? (level : List (String × BinaryOp)) (x : Lexeme) : Option BinaryOp :=
  if x.kind = .operator ∨ x.kind = .word then level.lookup x.literal else none

instance (level : List (String × BinaryOp)) : Readable (binaryOp level) where
  read := readNext (levelOp? level)
  suffix := suffix_of_readNext
  readsAs := by
    refine readsAs_lookup (fun k => k = .operator ∨ k = .word) (level.lookup ·) "operator" ?_
    refine congrArg (peek >>= ·) (funext fun t => ?_)
    cases level.lookup t.literal <;> rfl

theorem advances_binaryOp (level : List (String × BinaryOp)) : Advances (read (binaryOp level)) := by
  intro xs op ys hread
  obtain ⟨x, rfl, -⟩ := (readNext_eq_some_iff (show levelOp? level .ending = none from rfl)).1 hread
  exact Nat.lt_succ_self _

def integer? (x : Lexeme) : Option Int := if x.kind = .integer then readInt64? x.literal else none

instance : Readable integer where
  read := readNext integer?
  suffix := suffix_of_readNext
  readsAs := by
    refine readsAs_lookup (· = .integer) readInt64? TokenKind.integer.label ?_
    refine congrArg (peek >>= ·) (funext fun t => ?_)
    cases readInt64? t.literal <;> rfl

instance : Readable unaryOp := readableOfPeek _ fun _ => rfl

def unaryOp? (x : Lexeme) : Option UnaryOp :=
  if x = ⟨.operator, "!"⟩ ∨ x = ⟨.word, "not"⟩ then some .not
  else if x = ⟨.operator, "-"⟩ then some .neg
  else none

theorem read_unaryOp (xs : List Lexeme) : read unaryOp xs = readNext unaryOp? xs := by
  have his : ∀ k literal, (next xs).toToken.is k literal = true ↔ next xs = ⟨k, literal⟩ := by
    intro k literal
    cases next xs
    simp [Token.is, Lexeme.toToken]
  have hread : read unaryOp xs =
      if (next xs).toToken.is .operator "!" ∨ (next xs).toToken.is .word "not" then
        some (.not, xs.tail)
      else if (next xs).toToken.is .operator "-" then some (.neg, xs.tail) else none := rfl
  rw [hread, readNext, unaryOp?]
  simp only [his]
  split
  · rfl
  · split <;> rfl

theorem read_unaryOp_eq_some_iff {xs ys : List Lexeme} {op : UnaryOp} :
    read unaryOp xs = some (op, ys) ↔ ∃ x, xs = x :: ys ∧ unaryOp? x = some op := by
  rw [read_unaryOp]
  exact readNext_eq_some_iff rfl

section
variable (p : Parser Expr) [Readable p]

instance (level : List (String × BinaryOp)) : Readable (leftAssoc level p) := by
  delta leftAssoc; infer_instance

instance : Readable (exprOver p) := by delta exprOver; infer_instance

instance : Readable (callOver p) := by delta callOver; infer_instance

instance : Readable (indices p) := by delta indices; infer_instance

instance : Readable (variableOver p) :=
  @readableAttempt _ _ <| @readableBind _ _ _ _ inferInstance fun name =>
    @readableIte _ _ _ _ _ inferInstance <| @readableBind _ _ _ _ inferInstance fun key =>
      match key with
      | some key => inferInstanceAs (Readable (pure (.field name key : Expr)))
      | none => @readableBind _ _ _ _ inferInstance fun is =>
        match is with
        | [] => inferInstanceAs (Readable (pure (.var name : Expr)))
        | i :: is => inferInstanceAs (Readable (pure (.index name (i :: is) : Expr)))

instance : Readable (core p) := by delta core; infer_instance

/-- An operator of the level with what stands to the right of it. -/
def readOperation (level : List (String × BinaryOp)) : Reading (BinaryOp × Expr) :=
  read (binaryOp level >>= fun op => p >>= fun e => pure (op, e))

theorem read_leftAssoc (level : List (String × BinaryOp)) (xs : List Lexeme) :
    read (leftAssoc level p) xs = (read p xs).bind fun x =>
      some ((readMany (readOperation p level) x.2).1.foldl (fun l y => .binary y.1 l y.2) x.1,
        (readMany (readOperation p level) x.2).2) := rfl

theorem read_exprOver (xs : List Lexeme) : read (exprOver p) xs =
    read (leftAssoc logicOperators <| leftAssoc comparisonOperators <|
      leftAssoc sumOperators <| leftAssoc productOperators p) xs := rfl

theorem read_callOver (xs : List Lexeme) : read (callOver p) xs =
    (read word xs).bind fun x => (read (between "(" ")" (separatedOrNone p)) x.2).bind fun y =>
      some (⟨x.1, y.1⟩, y.2) := rfl

theorem read_variableOver (xs : List Lexeme) : read (variableOver p) xs =
    (read word xs).bind fun x => if x.1 ∈ operatorWords then none else
      match read (operator "." >>= fun _ => word) x.2 with
      | some (key, ys) => some (.field x.1 key, ys)
      | none => match readMany (read (between "[" "]" p)) x.2 with
        | ([], ys) => some (.var x.1, ys)
        | (i :: is, ys) => some (.index x.1 (i :: is), ys) := by
  have hread : read (variableOver p) xs = (read word xs).bind _ := rfl
  rw [hread]
  cases read word xs with
  | none => rfl
  | some x =>
    show (if _ then _ else _) = if _ then _ else _
    by_cases hname : x.1 ∈ operatorWords
    · rw [if_pos hname, if_pos hname]
      rfl
    · rw [if_neg hname, if_neg hname, read_bind, read_optional]
      cases hkey : read (operator "." >>= fun _ => word) x.2 with
      | some y => rfl
      | none =>
        simp only [Option.bind_some, Option.map_none, Option.getD_none]
        rw [read_bind]
        cases hmany : readMany (read (between "[" "]" p)) x.2 with
        | mk is ys =>
          have hindices : read (indices p) x.2 = some (is, ys) := congrArg some hmany
          rw [hindices]
          cases is <;> rfl

theorem read_callOver_eq_some_iff {xs ys : List Lexeme} {c : Call} :
    read (callOver p) xs = some (c, ys) ↔ ∃ zs, xs = ⟨.word, c.name⟩ :: ⟨.symbol, "("⟩ :: zs ∧
      read (separatedOrNone p) zs = some (c.args, ⟨.symbol, ")"⟩ :: ys) := by
  simp only [read_callOver, Option.bind_eq_some_iff, Prod.exists, read_word_eq_some_iff,
    read_between_eq_some_iff, Option.some_inj, Prod.mk.injEq]
  constructor
  · rintro ⟨name, _, rfl, args, _, ⟨zs, rfl, hargs⟩, rfl, rfl⟩
    exact ⟨zs, rfl, hargs⟩
  · rintro ⟨zs, rfl, hargs⟩
    exact ⟨_, _, rfl, _, _, ⟨zs, rfl, hargs⟩, rfl, rfl⟩

theorem read_variableOver_eq_some {xs ys : List Lexeme} {e : Expr}
    (h : read (variableOver p) xs = some (e, ys)) :
    ∃ name zs, xs = ⟨.word, name⟩ :: zs ∧ name ∉ operatorWords ∧
      ((∃ key, zs = ⟨.operator, "."⟩ :: ⟨.word, key⟩ :: ys ∧ e = .field name key) ∨
        ∃ is, readMany (read (between "[" "]" p)) zs = (is, ys) ∧
          (is = [] ∧ e = .var name ∨ is ≠ [] ∧ e = .index name is)) := by
  rw [read_variableOver] at h
  obtain ⟨⟨name, zs⟩, hword, h⟩ := Option.bind_eq_some_iff.1 h
  obtain ⟨hname, h⟩ := Option.ite_none_left_eq_some.1 h
  refine ⟨name, zs, read_word_eq_some_iff.1 hword, hname, ?_⟩
  cases hkey : read (operator "." >>= fun _ => word) zs with
  | some x =>
    obtain ⟨key, ws⟩ := x
    simp only [hkey] at h
    cases h
    rw [read_bind] at hkey
    obtain ⟨⟨_, vs⟩, hdot, hkey⟩ := Option.bind_eq_some_iff.1 hkey
    obtain rfl := read_word_eq_some_iff.1 hkey
    exact .inl ⟨key, read_operator_eq_some_iff.1 hdot, rfl⟩
  | none =>
    simp only [hkey] at h
    cases hmany : readMany (read (between "[" "]" p)) zs with
    | mk is ws =>
      simp only [hmany] at h
      cases is with
      | nil => cases h; exact .inr ⟨[], rfl, .inl ⟨rfl, rfl⟩⟩
      | cons i is => cases h; exact .inr ⟨i :: is, rfl, .inr ⟨nofun, rfl⟩⟩

theorem read_core (xs : List Lexeme) : read (core p) xs =
    ((read (callOver p) xs).map fun x => (x.1.toExpr, x.2)).or
      (((readNext integer? xs).map fun x => (.literal x.1, x.2)).or
        ((read (variableOver p) xs).or (read (between "(" ")" p) xs))) := by
  have hread : read (core p) xs = ((read (callOver p) xs).bind fun x => some (x.1.toExpr, x.2)).or
      (((read integer xs).bind fun x => some (.literal x.1, x.2)).or
        ((read (variableOver p) xs).or ((read (between "(" ")" p) xs).or none))) := rfl
  rw [hread, Option.or_none, Option.map_eq_bind, Option.map_eq_bind]
  rfl

end

instance readableOperand : ∀ n, Readable (operand n)
  | 0 => inferInstanceAs (Readable (stop : Parser Expr))
  | n + 1 =>
    haveI := readableOperand n
    inferInstanceAs (Readable (orElse
      (unaryOp >>= fun op => operand n >>= fun e => pure (.unary op e)) (core (exprOver (operand n)))))

theorem read_operand_succ (n : Nat) (xs : List Lexeme) : read (operand (n + 1)) xs =
    ((read unaryOp xs).bind fun x => (read (operand n) x.2).bind fun y =>
      some (.unary x.1 y.1, y.2)).or (read (core (exprOver (operand n))) xs) := rfl

/-! ### The limit on expressions -/

section
variable {n : Nat} {p q : Parser Expr} [Readable p] [Readable q]

theorem AgreeTo.leftAssoc (level : List (String × BinaryOp)) (h : AgreeTo n (read p) (read q)) :
    AgreeTo n (read (leftAssoc level p)) (read (leftAssoc level q)) := by
  have hoperation : AgreeTo n (readOperation p level) (readOperation q level) :=
    .bind (fun _ _ => rfl) fun _ => .bind h fun _ _ _ => rfl
  intro xs hxs
  rw [read_leftAssoc, read_leftAssoc, ← h xs hxs]
  cases hp : read p xs with
  | none => rfl
  | some x =>
    simp only [Option.bind_some,
      hoperation.readMany_eq x.2 (Nat.le_trans (length_le_of_read hp) hxs)]

theorem AgreeTo.exprOver (h : AgreeTo n (read p) (read q)) :
    AgreeTo n (read (exprOver p)) (read (exprOver q)) := by
  have hlevels := (((h.leftAssoc productOperators).leftAssoc sumOperators).leftAssoc
    comparisonOperators).leftAssoc logicOperators
  exact fun xs hxs => (read_exprOver p xs).trans ((hlevels xs hxs).trans (read_exprOver q xs).symm)

/-- A name takes a lexeme, and so does the bracket behind it. -/
theorem AgreeTo.callOver (h : AgreeTo n (read p) (read q)) :
    AgreeTo (n + 1) (read (callOver p)) (read (callOver q)) := by
  intro xs hxs
  rw [read_callOver, read_callOver]
  cases hword : read word xs with
  | none => simp only [Option.bind_none]
  | some x =>
    have hle := Nat.le_trans (length_le_of_read hword) hxs
    simp only [Option.bind_some, h.separatedOrNone.between x.2 hle]

theorem AgreeTo.variableOver (h : AgreeTo n (read p) (read q)) :
    AgreeTo (n + 1) (read (variableOver p)) (read (variableOver q)) := by
  intro xs hxs
  rw [read_variableOver, read_variableOver]
  cases hword : read word xs with
  | none => simp only [Option.bind_none]
  | some x =>
    have hle := Nat.le_trans (length_le_of_read hword) hxs
    simp only [Option.bind_some, h.between.readMany_eq x.2 hle]

theorem AgreeTo.core (h : AgreeTo n (read p) (read q)) :
    AgreeTo (n + 1) (read (core p)) (read (core q)) := by
  intro xs hxs
  rw [read_core, read_core, h.callOver xs hxs, h.variableOver xs hxs, h.between xs hxs]

end

theorem read_operand_nil (n : Nat) : read (operand n) [] = none := by
  cases n with
  | zero => rfl
  | succ n => rfl

/-- More nesting than there are lexemes makes no difference. -/
theorem agreeTo_operand {k m n : Nat} (hk : n < k) (hm : n < m) :
    AgreeTo n (read (operand k)) (read (operand m)) := by
  induction n generalizing k m with
  | zero =>
    intro xs hxs
    rw [List.length_eq_zero_iff.1 (Nat.le_zero.1 hxs), read_operand_nil, read_operand_nil]
  | succ n ih =>
    obtain ⟨k, rfl⟩ : ∃ k', k = k' + 1 := ⟨k - 1, by omega⟩
    obtain ⟨m, rfl⟩ : ∃ m', m = m' + 1 := ⟨m - 1, by omega⟩
    have hnested := ih (Nat.succ_lt_succ_iff.1 hk) (Nat.succ_lt_succ_iff.1 hm)
    intro xs hxs
    rw [read_operand_succ, read_operand_succ, hnested.exprOver.core xs hxs]
    congr 1
    cases hop : read unaryOp xs with
    | none => rfl
    | some x =>
      obtain ⟨y, rfl, -⟩ := read_unaryOp_eq_some_iff.1 hop
      have hlt : x.2.length ≤ n := by simpa using hxs
      simp only [Option.bind_some, hnested x.2 hlt]

/-- Expressions that nest as deep as the lexemes allow. -/
def readExpr : Reading Expr := fun xs => read (exprOver (operand (xs.length + 1))) xs

theorem readExpr_eq {n : Nat} {xs : List Lexeme} (h : xs.length < n) :
    readExpr xs = read (exprOver (operand n)) xs :=
  (agreeTo_operand (Nat.lt_succ_self _) h).exprOver xs (Nat.le_refl _)

theorem suffix_of_readExpr {xs ys : List Lexeme} {e : Expr} (h : readExpr xs = some (e, ys)) :
    ys <:+ xs := suffix_of_read (p := exprOver _) h

theorem readsAs_readExpr : ReadsAs id expr readExpr := by
  intro ts i f hts hi
  rw [readExpr_eq (n := ts.size + 1) (by rw [length_written]; omega)]
  exact readsAs (exprOver (operand (ts.size + 1))) ts i f hts hi

instance : Readable expr := ⟨readExpr, suffix_of_readExpr, readsAs_readExpr⟩

theorem read_expr {n : Nat} {xs : List Lexeme} (h : xs.length < n) :
    read expr xs = read (exprOver (operand n)) xs := by
  have hread : read expr = readExpr := read_mk expr readExpr suffix_of_readExpr readsAs_readExpr
  rw [hread, readExpr_eq h]

instance : Readable call := by delta call; infer_instance

theorem read_call (xs : List Lexeme) : read call xs = read (callOver expr) xs := rfl

/-! ### Movements -/

instance : Readable condition := by delta condition; infer_instance

instance : Readable letter := by
  delta letter
  exact @readableAttempt _ _ (@readableBind _ _ _ _ inferInstance fun _ =>
    @readableBind _ _ _ _ inferInstance fun _ => inferInstance)

theorem read_condition (xs : List Lexeme) : read condition xs =
    ((read call xs).bind fun x => some (.call x.1, x.2)).or
      ((read word xs).bind fun x => some (.named x.1, x.2)) := rfl

theorem read_letter : read letter = Reading.bind (read (symbol "(")) fun _ =>
    Reading.bind (read expr) fun dx => Reading.bind (read comma) fun _ =>
    Reading.bind (read expr) fun dy => Reading.bind (read comma) fun _ =>
    Reading.bind (read condition) fun cond => Reading.bind (read (symbol ")")) fun _ =>
    Reading.bind (read (optional (between "\x7b" "\x7d" call))) fun effect xs =>
      some (⟨dx, dy, cond, effect⟩, xs) := rfl

theorem read_letter_eq_some_iff {xs ys : List Lexeme} {l : Letter} :
    read letter xs = some (l, ys) ↔ ∃ c c' xs₁ xs₂ xs₃ xs₄, xs = ⟨.symbol, "("⟩ :: xs₁ ∧
      read expr xs₁ = some (l.dx, ⟨.comma, c⟩ :: xs₂) ∧
      read expr xs₂ = some (l.dy, ⟨.comma, c'⟩ :: xs₃) ∧
      read condition xs₃ = some (l.condition, ⟨.symbol, ")"⟩ :: xs₄) ∧
      read (optional (between "\x7b" "\x7d" call)) xs₄ = some (l.effect, ys) := by
  simp only [read_letter, Reading.bind, Option.bind_eq_some_iff, Prod.exists, read_symbol_eq_some_iff,
    read_comma_eq_some_iff, Option.some_inj, Prod.mk.injEq]
  constructor
  · rintro ⟨-, xs₁, rfl, dx, _, hdx, -, xs₂, ⟨c, rfl⟩, dy, _, hdy, -, xs₃, ⟨c', rfl⟩, cond, _, hcond,
      -, xs₄, rfl, effect, _, heffect, rfl, rfl⟩
    exact ⟨c, c', xs₁, xs₂, xs₃, xs₄, rfl, hdx, hdy, hcond, heffect⟩
  · rintro ⟨c, c', xs₁, xs₂, xs₃, xs₄, rfl, hdx, hdy, hcond, heffect⟩
    exact ⟨(), xs₁, rfl, _, _, hdx, (), xs₂, ⟨c, rfl⟩, _, _, hdy, (), xs₃, ⟨c', rfl⟩, _, _, hcond,
      (), xs₄, rfl, _, _, heffect, rfl, rfl⟩

/-- The operator after a term, if there is one, with what it makes of the term. -/
def readRepetition (inner : Movement) : Reading Movement := fun xs =>
  match repetition? (next xs).toToken with
  | some wrap => some (wrap inner, xs.tail)
  | none => some (inner, xs)

theorem repetition?_eq_some {x : Lexeme} {wrap : Movement → Movement}
    (h : repetition? x.toToken = some wrap) : x = ⟨.operator, "*"⟩ ∧ wrap = .star ∨
      x = ⟨.operator, "+"⟩ ∧ wrap = .plus ∨ x = ⟨.operator, "?"⟩ ∧ wrap = .optional := by
  have his : ∀ literal, x.toToken.is .operator literal = true → x = ⟨.operator, literal⟩ := by
    intro literal hx
    cases x
    simpa [Token.is, Lexeme.toToken] using hx
  unfold repetition? at h
  by_cases hstar : x.toToken.is .operator "*" = true
  · rw [if_pos hstar] at h
    exact .inl ⟨his _ hstar, (Option.some_inj.1 h).symm⟩
  rw [if_neg hstar] at h
  by_cases hplus : x.toToken.is .operator "+" = true
  · rw [if_pos hplus] at h
    exact .inr (.inl ⟨his _ hplus, (Option.some_inj.1 h).symm⟩)
  rw [if_neg hplus] at h
  obtain ⟨hoptional, h⟩ := Option.ite_none_right_eq_some.1 h
  exact .inr (.inr ⟨his _ hoptional, (Option.some_inj.1 h).symm⟩)

theorem readRepetition_eq_some {inner m : Movement} {xs ys : List Lexeme}
    (h : readRepetition inner xs = some (m, ys)) :
    (∃ x wrap, xs = x :: ys ∧ repetition? x.toToken = some wrap ∧ m = wrap inner) ∨
      m = inner ∧ ys = xs := by
  unfold readRepetition at h
  cases hx : repetition? (next xs).toToken with
  | none =>
    simp only [hx] at h
    cases h
    exact .inr ⟨rfl, rfl⟩
  | some wrap =>
    simp only [hx] at h
    cases h
    cases xs with
    | nil => cases hx
    | cons x xs => exact .inl ⟨x, wrap, rfl, hx, rfl⟩

theorem suffix_of_readRepetition {inner m : Movement} {xs ys : List Lexeme}
    (h : readRepetition inner xs = some (m, ys)) : ys <:+ xs := by
  rcases readRepetition_eq_some h with ⟨x, -, rfl, -⟩ | ⟨-, rfl⟩
  · exact List.suffix_cons x ys
  · exact List.suffix_rfl

theorem readsAs_readRepetition (inner : Movement) : ReadsAs id
    (peek >>= fun t => match repetition? t with
      | some wrap => advance >>= fun _ => pure (wrap inner)
      | none => pure inner) (readRepetition inner) := by
  intro ts i f hts hi
  have htoken : repetition? (next (written ts i)).toToken = repetition? (tokenAt ts i) := by
    rw [← lexeme_tokenAt hts hi]
    rfl
  rw [readRepetition, htoken]
  have hrun : ∀ k : Token → Parser Movement, (peek >>= k) ts ⟨i, f⟩ = k (tokenAt ts i) ts ⟨i, f⟩ :=
    fun _ => rfl
  rw [hrun]
  cases repetition? (tokenAt ts i) with
  | none => exact readsAs_pure inner ts i f hts hi
  | some wrap => exact readsAs (advance >>= fun _ => pure (wrap inner)) ts i f hts hi

section
variable (p : Parser Movement) [Readable p]

instance : Readable (term p) := by delta term; infer_instance

instance : Readable (repeated p) :=
  @readableAttempt _ _ <| @readableBind _ _ _ _ inferInstance fun inner =>
    ⟨readRepetition inner, suffix_of_readRepetition, readsAs_readRepetition inner⟩

instance : Readable (concatenation p) := by delta concatenation; infer_instance

theorem read_term (xs : List Lexeme) : read (term p) xs =
    ((read call xs).bind fun x => some (.expand x.1, x.2)).or
      ((read (between "(" ")" p) xs).or ((read letter xs).bind fun x => some (.letter x.1, x.2))) := rfl

theorem read_repeated (xs : List Lexeme) : read (repeated p) xs =
    (read (term p) xs).bind fun x => readRepetition x.1 x.2 := rfl

theorem read_concatenation (xs : List Lexeme) : read (concatenation p) xs =
    (read (repeated p) xs).bind fun x =>
      some (concatAll x.1 (readMany (read (repeated p)) x.2).1,
        (readMany (read (repeated p)) x.2).2) := rfl

end

instance readableMovementWithin : ∀ n, Readable (movementWithin n)
  | 0 => inferInstanceAs (Readable (stop : Parser Movement))
  | n + 1 =>
    haveI := readableMovementWithin n
    @readableAttempt _ _ <| @readableBind _ _ _ _ inferInstance fun left =>
      @readableBind _ _ _ _ inferInstance fun right =>
        match right with
        | some right => inferInstanceAs (Readable (pure (.union left right : Movement)))
        | none => inferInstanceAs (Readable (pure left))

theorem read_movementWithin_succ (n : Nat) (xs : List Lexeme) : read (movementWithin (n + 1)) xs =
    (read (concatenation (movementWithin n)) xs).bind fun x =>
      match read (operator "|" >>= fun _ => movementWithin n) x.2 with
      | some (right, ys) => some (.union x.1 right, ys)
      | none => some x := by
  have hread : read (movementWithin (n + 1)) xs =
      (read (concatenation (movementWithin n)) xs).bind _ := rfl
  rw [hread]
  cases read (concatenation (movementWithin n)) xs with
  | none => rfl
  | some x =>
    rw [Option.bind_some, Option.bind_some, read_bind, read_optional]
    cases hright : read (operator "|" >>= fun _ => movementWithin n) x.2 with
    | none => rfl
    | some y => rfl

/-! ### The limit on movements -/

section
variable {n : Nat} {p q : Parser Movement} [Readable p] [Readable q]

theorem AgreeTo.repeated (h : AgreeTo n (read p) (read q)) :
    AgreeTo (n + 1) (read (repeated p)) (read (repeated q)) := by
  intro xs hxs
  rw [read_repeated, read_repeated, read_term, read_term, h.between xs hxs]

theorem AgreeTo.concatenation (h : AgreeTo n (read p) (read q)) :
    AgreeTo (n + 1) (read (concatenation p)) (read (concatenation q)) := by
  intro xs hxs
  rw [read_concatenation, read_concatenation, ← h.repeated xs hxs]
  cases hp : read (Parser.repeated p) xs with
  | none => simp only [Option.bind_none]
  | some x =>
    have hle := Nat.le_trans (length_le_of_read hp) hxs
    simp only [Option.bind_some, h.repeated.readMany_eq x.2 hle]

end

theorem read_concatenation_nil (p : Parser Movement) [Readable p] : read (concatenation p) [] = none :=
  rfl

theorem agreeTo_movementWithin {k m n : Nat} (hk : n < k) (hm : n < m) :
    AgreeTo n (read (movementWithin k)) (read (movementWithin m)) := by
  induction n generalizing k m with
  | zero =>
    obtain ⟨k, rfl⟩ : ∃ k', k = k' + 1 := ⟨k - 1, by omega⟩
    obtain ⟨m, rfl⟩ : ∃ m', m = m' + 1 := ⟨m - 1, by omega⟩
    intro xs hxs
    rw [List.length_eq_zero_iff.1 (Nat.le_zero.1 hxs), read_movementWithin_succ,
      read_movementWithin_succ, read_concatenation_nil, read_concatenation_nil, Option.bind_none,
      Option.bind_none]
  | succ n ih =>
    obtain ⟨k, rfl⟩ : ∃ k', k = k' + 1 := ⟨k - 1, by omega⟩
    obtain ⟨m, rfl⟩ : ∃ m', m = m' + 1 := ⟨m - 1, by omega⟩
    have hnested := ih (Nat.succ_lt_succ_iff.1 hk) (Nat.succ_lt_succ_iff.1 hm)
    have hunion : AgreeTo (n + 1) (read (operator "|" >>= fun _ => movementWithin k))
        (read (operator "|" >>= fun _ => movementWithin m)) := by
      intro xs hxs
      rw [read_bind, read_bind]
      cases hbar : read (operator "|") xs with
      | none => simp only [Option.bind_none]
      | some x =>
        rw [read_operator_eq_some_iff.1 hbar] at hxs
        simp only [Option.bind_some, hnested x.2 (by simpa using hxs)]
    intro xs hxs
    rw [read_movementWithin_succ, read_movementWithin_succ, ← hnested.concatenation xs hxs]
    cases hleft : read (concatenation (movementWithin k)) xs with
    | none => simp only [Option.bind_none]
    | some x =>
      have hle := Nat.le_trans (length_le_of_read hleft) hxs
      simp only [Option.bind_some, hunion x.2 hle]

/-- Movements that nest as deep as the lexemes allow. -/
def readMovement : Reading Movement := fun xs => read (movementWithin (xs.length + 1)) xs

theorem readMovement_eq {n : Nat} {xs : List Lexeme} (h : xs.length < n) :
    readMovement xs = read (movementWithin n) xs :=
  agreeTo_movementWithin (Nat.lt_succ_self _) h xs (Nat.le_refl _)

theorem suffix_of_readMovement {xs ys : List Lexeme} {m : Movement}
    (h : readMovement xs = some (m, ys)) : ys <:+ xs := suffix_of_read (p := movementWithin _) h

theorem readsAs_readMovement : ReadsAs id movement readMovement := by
  intro ts i f hts hi
  rw [readMovement_eq (n := ts.size + 1) (by rw [length_written]; omega)]
  exact readsAs (movementWithin (ts.size + 1)) ts i f hts hi

instance : Readable movement := ⟨readMovement, suffix_of_readMovement, readsAs_readMovement⟩

theorem read_movement {n : Nat} {xs : List Lexeme} (h : xs.length < n) :
    read movement xs = read (movementWithin n) xs := by
  have hread : read movement = readMovement :=
    read_mk movement readMovement suffix_of_readMovement readsAs_readMovement
  rw [hread, readMovement_eq h]

end BoardGame.Parser
