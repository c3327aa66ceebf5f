import BoardGame.Proofs.Grammar.Foresight

/-!
# Progress of the parsers

Peeking behind the last token shows it again, and there is no stepping over it. If it is the end of input, a
parser that has to step over another token reads one of those in front of it (`Consumes`). So does every
production, and everything that a loop repeats, and none goes behind the last token (`Forward`). A production
that fails puts the cursor back (`Restores`).
-/

-- the longest productions are sequences of a dozen parsers
set_option synthInstance.maxSize 4096

namespace BoardGame.Parser
variable {α β : Type} {ts : Array Token}

/-- The last token is the end of input. -/
class Ending (ts : Array Token) : Prop where
  kind_back : ts.back?.map Token.kind = some .endOfInput

/-- Any other token is in front of the last one. -/
theorem lt_size_of_kind [h : Ending ts] {j : Nat} (hk : (tokenAt ts j).kind ≠ .endOfInput) : j + 1 < ts.size := by
  obtain ⟨t, hback, ht⟩ := Option.map_eq_some_iff.1 h.kind_back
  have hlast : tokenAt ts (ts.size - 1) = t := by
    have hget : ts[ts.size - 1]? = some t := hback
    rw [tokenAt, hget]
    rfl
  refine Nat.lt_of_not_le fun hle => hk ?_
  rcases Nat.lt_or_ge j ts.size with hj | hj
  · obtain rfl : j = ts.size - 1 := by omega
    rw [hlast, ht]
  · rw [tokenAt_of_le hj, hlast, ht]

/-! ### How far parsers read -/

/-- Never goes back, nor behind the last token. -/
class Forward (ts : Array Token) (p : Parser α) : Prop where
  forward : ∀ {r a s}, r.cursor ≤ ts.size → p ts r = (some a, s) → r.cursor ≤ s.cursor ∧ s.cursor ≤ ts.size

/-- Reads exactly one of the tokens, and not the last one, if it does not fail. -/
class Steps (ts : Array Token) (p : Parser α) : Prop where
  steps : ∀ {r a s}, p ts r = (some a, s) → s.cursor = r.cursor + 1 ∧ s.cursor < ts.size

/-- Reads at least one of the tokens, if it does not fail. -/
class Consumes (ts : Array Token) (p : Parser α) : Prop where
  consumes : ∀ {r a s}, r.cursor ≤ ts.size → p ts r = (some a, s) → r.cursor < s.cursor ∧ s.cursor ≤ ts.size

section
variable {p q : Parser α} {k : α → Parser β}

instance (priority := low) [h : Consumes ts p] : Forward ts p :=
  ⟨fun hsize hrun => (h.consumes hsize hrun).imp_left Nat.le_of_lt⟩

instance [h : Steps ts p] : Consumes ts p := by
  refine ⟨fun _ hrun => ?_⟩
  obtain ⟨hs, hlt⟩ := h.steps hrun
  exact ⟨hs ▸ Nat.lt_succ_self _, Nat.le_of_lt hlt⟩

theorem exists_of_bind {r s : Reader} {b : β} (h : (p >>= k) ts r = (some b, s)) :
    ∃ a m, p ts r = (some a, m) ∧ k a ts m = (some b, s) := by
  rcases hp : p ts r with ⟨_ | a, m⟩
  · rw [bind_of_none hp] at h
    cases h
  · rw [run_bind_of_some hp] at h
    exact ⟨a, m, rfl, h⟩

instance forwardBind [hp : Forward ts p] [hk : ∀ a, Forward ts (k a)] : Forward ts (p >>= k) := by
  refine ⟨fun hsize hrun => ?_⟩
  obtain ⟨a, m, hfirst, hrest⟩ := exists_of_bind hrun
  obtain ⟨hle, hm⟩ := hp.forward hsize hfirst
  exact ((hk a).forward hm hrest).imp_left (Nat.le_trans hle)

instance consumesBind [hp : Consumes ts p] [hk : ∀ a, Forward ts (k a)] : Consumes ts (p >>= k) := by
  refine ⟨fun hsize hrun => ?_⟩
  obtain ⟨a, m, hfirst, hrest⟩ := exists_of_bind hrun
  obtain ⟨hlt, hm⟩ := hp.consumes hsize hfirst
  exact ((hk a).forward hm hrest).imp_left (Nat.lt_of_lt_of_le hlt)

instance (priority := low) consumesBehind [hp : Forward ts p] [hk : ∀ a, Consumes ts (k a)] :
    Consumes ts (p >>= k) := by
  refine ⟨fun hsize hrun => ?_⟩
  obtain ⟨a, m, hfirst, hrest⟩ := exists_of_bind hrun
  obtain ⟨hle, hm⟩ := hp.forward hsize hfirst
  exact ((hk a).consumes hm hrest).imp_left (Nat.lt_of_le_of_lt hle)

instance (a : α) : Forward ts (pure a) := by
  refine ⟨fun hsize hrun => ?_⟩
  cases hrun
  exact ⟨Nat.le_refl _, hsize⟩

instance : Forward ts peek := by
  refine ⟨fun hsize hrun => ?_⟩
  cases hrun
  exact ⟨Nat.le_refl _, hsize⟩

instance : Forward ts lastStop := by
  refine ⟨fun hsize hrun => ?_⟩
  cases hrun
  exact ⟨Nat.le_refl _, hsize⟩

instance : Forward ts advance := by
  refine ⟨fun {r _ _} hsize hrun => ?_⟩
  by_cases hlt : r.cursor < ts.size
  · rw [advance_of_lt hlt] at hrun
    cases hrun
    exact ⟨Nat.le_succ _, hlt⟩
  · rw [advance, if_neg hlt] at hrun
    cases hrun
    exact ⟨Nat.le_refl _, hsize⟩

instance (expected : String) : Consumes ts (fail expected : Parser α) := ⟨fun _ hrun => by cases hrun⟩

instance : Consumes ts (stop : Parser α) := ⟨fun _ hrun => by cases hrun⟩

instance consumesIte (b : Prop) [Decidable b] [Consumes ts p] [Consumes ts q] :
    Consumes ts (if b then p else q) := by
  split <;> infer_instance

instance forwardIte (b : Prop) [Decidable b] [Forward ts p] [Forward ts q] :
    Forward ts (if b then p else q) := by
  split <;> infer_instance

theorem run_of_attempt {r s : Reader} {a : α} (h : attempt p ts r = (some a, s)) : p ts r = (some a, s) := by
  rcases hp : p ts r with ⟨_ | b, m⟩
  · rw [attempt_of_none hp] at h
    cases h
  · rwa [attempt_of_some hp] at h

instance consumesAttempt [hp : Consumes ts p] : Consumes ts (attempt p) :=
  ⟨fun hsize hrun => hp.consumes hsize (run_of_attempt hrun)⟩

instance [hp : Forward ts p] : Forward ts (attempt p) :=
  ⟨fun hsize hrun => hp.forward hsize (run_of_attempt hrun)⟩

instance [hp : Consumes ts p] [hq : Consumes ts q] : Consumes ts (orElse p q) := by
  refine ⟨fun {r _ _} hsize hrun => ?_⟩
  rcases hx : p ts r with ⟨_ | a, m⟩
  · rw [orElse, attempt_of_none hx] at hrun
    exact hq.consumes (r := { m with cursor := r.cursor }) hsize hrun
  · rw [orElse, attempt_of_some hx] at hrun
    exact hp.consumes hsize (hx.trans hrun)

instance [hp : Forward ts p] : Forward ts (optional p) := by
  refine ⟨fun {r _ _} hsize hrun => ?_⟩
  rcases hx : p ts r with ⟨_ | a, m⟩
  · rw [optional, attempt_of_none hx] at hrun
    cases hrun
    exact ⟨Nat.le_refl _, hsize⟩
  · rw [optional, attempt_of_some hx] at hrun
    cases hrun
    exact hp.forward hsize hx

instance [hp : Consumes ts p] : Forward ts (many p) := by
  refine ⟨fun {r as s} hsize hrun => ?_⟩
  -- by induction on the number of tokens that are left
  induction hn : ts.size - r.cursor using Nat.strongRecOn generalizing r as with
  | ind n ih =>
    rcases hx : p ts r with ⟨_ | a, m⟩
    · rw [many_of_none hx] at hrun
      cases hrun
      exact ⟨Nat.le_refl _, hsize⟩
    · obtain ⟨hlt, hm⟩ := hp.consumes hsize hx
      rw [many_of_lt hx hlt hm, Prod.mk.injEq] at hrun
      obtain ⟨bs, hbs, -⟩ := Option.map_eq_some_iff.1 hrun.1
      obtain ⟨hle, hs⟩ := ih _ (by omega) hm (Prod.ext hbs hrun.2) rfl
      exact ⟨Nat.le_trans (Nat.le_of_lt hlt) hle, hs⟩

end

/-! ### Single tokens -/

instance (k : TokenKind) : Forward ts (kind k) := by delta kind; infer_instance

instance : Forward ts endOfInput := by delta endOfInput; infer_instance

theorem advance_of_bind {r s : Reader} {a b : α} (h : (advance >>= fun _ => pure a) ts r = (some b, s)) :
    advance ts r = (some (), s) := by
  cases h
  rfl

theorem kind_of_run {k : TokenKind} {r s : Reader} {literal : String} (h : kind k ts r = (some literal, s)) :
    (tokenAt ts r.cursor).kind = k ∧ advance ts r = (some (), s) := by
  have hrun : kind k ts r = (if (tokenAt ts r.cursor).kind = k then
      advance >>= fun _ => pure (tokenAt ts r.cursor).literal else fail k.label : Parser String) ts r := rfl
  rw [hrun] at h
  by_cases hk : (tokenAt ts r.cursor).kind = k
  · rw [if_pos hk] at h
    exact ⟨hk, advance_of_bind h⟩
  · rw [if_neg hk] at h
    cases h

section
variable [Ending ts]

/-- Advances behind a token that is not the end of input. -/
theorem Steps.of_advance {p : Parser α} (h : ∀ {r a s}, p ts r = (some a, s) →
    (tokenAt ts r.cursor).kind ≠ .endOfInput ∧ advance ts r = (some (), s)) : Steps ts p := by
  refine ⟨fun hrun => ?_⟩
  obtain ⟨hkind, hadvance⟩ := h hrun
  have hlt := lt_size_of_kind hkind
  rw [advance_of_lt (Nat.lt_of_succ_lt hlt)] at hadvance
  cases hadvance
  exact ⟨rfl, hlt⟩

theorem steps_kind {k : TokenKind} (hk : k ≠ .endOfInput) : Steps ts (kind k) := by
  refine .of_advance fun hrun => ?_
  obtain ⟨h, hadvance⟩ := kind_of_run hrun
  exact ⟨h ▸ hk, hadvance⟩

theorem kind_eq_of_is {t : Token} {k : TokenKind} {literal : String} (h : t.is k literal = true) :
    t.kind = k := by
  simp only [Token.is, Bool.and_eq_true, beq_iff_eq] at h
  exact h.1

theorem steps_exactly {k : TokenKind} {literal : String} (hk : k ≠ .endOfInput) :
    Steps ts (exactly k literal) := by
  refine .of_advance fun {r a s} hrun => ?_
  have hexactly : exactly k literal ts r = (if (tokenAt ts r.cursor).is k literal then advance
      else fail ("`" ++ literal ++ "`") : Parser Unit) ts r := rfl
  rw [hexactly] at hrun
  by_cases h : (tokenAt ts r.cursor).is k literal = true
  · rw [if_pos h] at hrun
    exact ⟨kind_eq_of_is h ▸ hk, hrun⟩
  · rw [if_neg h] at hrun
    cases hrun

instance : Steps ts word := steps_kind nofun

instance (literal : String) : Steps ts (keyword literal) := steps_exactly nofun

instance (literal : String) : Steps ts (symbol literal) := steps_exactly nofun

instance (literal : String) : Steps ts (operator literal) := steps_exactly nofun

theorem steps_unit {k : TokenKind} (hk : k ≠ .endOfInput) : Steps ts (kind k >>= fun _ => pure ()) := by
  refine ⟨fun hrun => ?_⟩
  obtain ⟨_, _, hkind, hpure⟩ := exists_of_bind hrun
  cases hpure
  exact (steps_kind hk).steps hkind

instance : Steps ts comma := steps_unit nofun

instance : Steps ts semicolon := steps_unit nofun

end

/-! ### Lists and brackets -/

section
variable {p : Parser α}

instance [Consumes ts p] : Consumes ts (spanned p) := by delta spanned; infer_instance

variable [Ending ts]

instance [Consumes ts p] : Consumes ts (separated p) := by delta separated; infer_instance

instance [Consumes ts p] : Forward ts (separatedOrNone p) := by delta separatedOrNone; infer_instance

instance [Forward ts p] (left right : String) : Consumes ts (between left right p) := by
  delta between; infer_instance

end

/-! ### Expressions -/

section
variable [Ending ts]

instance (level : List (String × BinaryOp)) : Steps ts (binaryOp level) := by
  refine .of_advance fun {r a s} hrun => ?_
  have hbinary : binaryOp level ts r = (
      if (tokenAt ts r.cursor).kind = .operator ∨ (tokenAt ts r.cursor).kind = .word then
        match level.lookup (tokenAt ts r.cursor).literal with
        | some op => advance >>= fun _ => pure op
        | none => fail "operator"
      else fail "operator" : Parser BinaryOp) ts r := rfl
  rw [hbinary] at hrun
  by_cases h : (tokenAt ts r.cursor).kind = .operator ∨ (tokenAt ts r.cursor).kind = .word
  · rw [if_pos h] at hrun
    cases hlookup : level.lookup (tokenAt ts r.cursor).literal with
    | none =>
      rw [hlookup] at hrun
      cases hrun
    | some op =>
      rw [hlookup] at hrun
      exact ⟨by rcases h with h | h <;> rw [h] <;> nofun, advance_of_bind hrun⟩
  · rw [if_neg h] at hrun
    cases hrun

instance : Steps ts integer := by
  refine .of_advance fun {r a s} hrun => ?_
  have hinteger : integer ts r = (
      if (tokenAt ts r.cursor).kind = .integer then
        match readInt64? (tokenAt ts r.cursor).literal with
        | some n => advance >>= fun _ => pure n
        | none => fail TokenKind.integer.label
      else fail TokenKind.integer.label : Parser Int) ts r := rfl
  rw [hinteger] at hrun
  by_cases h : (tokenAt ts r.cursor).kind = .integer
  · rw [if_pos h] at hrun
    cases hread : readInt64? (tokenAt ts r.cursor).literal with
    | none =>
      rw [hread] at hrun
      cases hrun
    | some n =>
      rw [hread] at hrun
      exact ⟨by rw [h]; nofun, advance_of_bind hrun⟩
  · rw [if_neg h] at hrun
    cases hrun

instance : Steps ts unaryOp := by
  refine .of_advance fun {r a s} hrun => ?_
  have hunary : unaryOp ts r = (
      if (tokenAt ts r.cursor).is .operator "!" ∨ (tokenAt ts r.cursor).is .word "not" then
        advance >>= fun _ => pure .not
      else if (tokenAt ts r.cursor).is .operator "-" then advance >>= fun _ => pure .neg
      else fail "expression" : Parser UnaryOp) ts r := rfl
  rw [hunary] at hrun
  by_cases hnot : (tokenAt ts r.cursor).is .operator "!" = true ∨ (tokenAt ts r.cursor).is .word "not" = true
  · rw [if_pos hnot] at hrun
    exact ⟨by rcases hnot with h | h <;> rw [kind_eq_of_is h] <;> nofun, advance_of_bind hrun⟩
  rw [if_neg hnot] at hrun
  by_cases hneg : (tokenAt ts r.cursor).is .operator "-" = true
  · rw [if_pos hneg] at hrun
    exact ⟨by rw [kind_eq_of_is hneg]; nofun, advance_of_bind hrun⟩
  · rw [if_neg hneg] at hrun
    cases hrun

variable {p : Parser Expr}

instance [Consumes ts p] (level : List (String × BinaryOp)) : Consumes ts (leftAssoc level p) := by
  delta leftAssoc; infer_instance

instance [Consumes ts p] : Consumes ts (exprOver p) := by delta exprOver; infer_instance

instance [Consumes ts p] : Consumes ts (callOver p) := by delta callOver; infer_instance

instance [Forward ts p] : Forward ts (indices p) := by delta indices; infer_instance

instance [Forward ts p] : Consumes ts (variableOver p) := by
  delta variableOver
  refine @consumesAttempt _ _ _ (@consumesBind _ _ _ _ _ inferInstance fun name => @forwardIte _ _ _ _ _ _
    inferInstance (@forwardBind _ _ _ _ _ inferInstance fun key => ?_))
  cases key with
  | some key => infer_instance
  | none =>
    refine @forwardBind _ _ _ _ _ inferInstance fun is => ?_
    cases is <;> infer_instance

instance [Consumes ts p] : Consumes ts (core p) := by delta core; infer_instance

instance (n : Nat) : Consumes ts (operand n) := by
  induction n with
  | zero => exact inferInstanceAs (Consumes ts stop)
  | succ n ih => exact inferInstanceAs (Consumes ts (orElse _ (core (exprOver (operand n)))))

instance : Consumes ts expr := by
  have h : Consumes ts (exprOver (operand (ts.size + 1))) := inferInstance
  exact ⟨h.consumes⟩

instance : Consumes ts call := by delta call; infer_instance

end

/-! ### Movements -/

section
variable [Ending ts]

instance : Consumes ts condition := by delta condition; infer_instance

instance : Consumes ts letter := by delta letter; infer_instance

variable {p : Parser Movement}

instance [Forward ts p] : Consumes ts (term p) := by delta term; infer_instance

instance [Forward ts p] : Consumes ts (repeated p) := by
  delta repeated
  refine @consumesAttempt _ _ _ (@consumesBind _ _ _ _ _ inferInstance fun inner =>
    @forwardBind _ _ _ _ _ inferInstance fun t => ?_)
  cases repetition? t <;> infer_instance

instance [Forward ts p] : Consumes ts (concatenation p) := by delta concatenation; infer_instance

instance (n : Nat) : Consumes ts (movementWithin n) := by
  induction n with
  | zero => exact inferInstanceAs (Consumes ts stop)
  | succ n ih =>
    refine @consumesAttempt _ _ _ (@consumesBind _ _ _ _ _ inferInstance fun left =>
      @forwardBind _ _ _ _ _ inferInstance fun right => ?_)
    cases right <;> infer_instance

instance : Consumes ts movement := by
  have h : Consumes ts (movementWithin (ts.size + 1)) := inferInstance
  exact ⟨h.consumes⟩

end

/-! ### Programs -/

section
variable [Ending ts]

instance : Consumes ts params := by delta params; infer_instance

instance : Consumes ts players := by delta players; infer_instance

instance : Consumes ts piece := by delta piece; infer_instance

instance : Consumes ts pieces := by delta pieces; infer_instance

instance : Consumes ts rule := by delta rule; infer_instance

instance : Consumes ts moveMacro := by delta moveMacro; infer_instance

instance : Consumes ts returnBlock := by delta returnBlock; infer_instance

instance : Consumes ts predicate := by delta predicate; infer_instance

instance : Consumes ts assignment := by delta assignment; infer_instance

instance : Consumes ts effect := by delta effect; infer_instance

instance : Consumes ts variableDecl := by delta variableDecl; infer_instance

instance : Consumes ts victory := by delta victory; infer_instance

instance : Consumes ts declaration := by delta declaration; infer_instance

instance : Consumes ts cell := by delta cell; infer_instance

instance : Consumes ts board := by delta board; infer_instance

instance : Consumes ts program := by delta program; infer_instance

end

/-! ### Failures -/

/-- Leaves the cursor where it was, if it fails. -/
class Restores (ts : Array Token) (p : Parser α) : Prop where
  restores : ∀ {r s}, p ts r = (none, s) → s.cursor = r.cursor

section
variable {p q : Parser α}

instance : Restores ts (attempt p) := by
  refine ⟨fun {r s} h => ?_⟩
  rcases hp : p ts r with ⟨_ | a, m⟩
  · rw [attempt_of_none hp] at h
    cases h
    rfl
  · rw [attempt_of_some hp] at h
    cases h

instance (expected : String) : Restores ts (fail expected : Parser α) := by
  refine ⟨fun h => ?_⟩
  cases h
  rfl

instance (b : Prop) [Decidable b] [Restores ts p] [Restores ts q] : Restores ts (if b then p else q) := by
  split <;> infer_instance

instance {k : Token → Parser α} [hk : ∀ t, Restores ts (k t)] : Restores ts (peek >>= k) :=
  ⟨fun {r _} h => (hk (tokenAt ts r.cursor)).restores h⟩

end

instance : Restores ts expr := by
  have h : Restores ts (exprOver (operand (ts.size + 1))) := by delta exprOver; infer_instance
  exact ⟨h.restores⟩

instance : Restores ts call := by delta call callOver; infer_instance

instance : Restores ts letter := by delta letter; infer_instance

instance : Restores ts movement := by
  have h : Restores ts (movementWithin (ts.size + 1)) := inferInstanceAs (Restores ts (attempt _))
  exact ⟨h.restores⟩

instance : Restores ts rule := by delta rule; infer_instance

instance : Restores ts moveMacro := by delta moveMacro; infer_instance

instance : Restores ts predicate := by delta predicate; infer_instance

instance : Restores ts effect := by delta effect; infer_instance

instance : Restores ts variableDecl := by delta variableDecl; infer_instance

instance : Restores ts victory := by delta victory; infer_instance

instance : Restores ts declaration := by delta declaration; infer_instance

instance : Restores ts board := by delta board; infer_instance

instance : Restores ts program := by delta program; infer_instance

end BoardGame.Parser
