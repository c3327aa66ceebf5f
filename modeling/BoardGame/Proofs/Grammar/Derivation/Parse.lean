import BoardGame.Proofs.Grammar.Derivation.Sound

/-!
# Parsing is derivation

A text is parsed as an expression or a movement exactly if the grammar derives its lexemes, and the tree is
that of the derivation (`parseExpr_iff_derives`, `parseMovement_iff_derives`).
-/

namespace BoardGame
open BoardGame.Parser (Readable read Sound)

/-- What stands before the end of input. -/
theorem eq_of_append_ending {ws vs ys : List Lexeme} (h : ws ++ [.ending] = vs ++ ys)
    (hws : ∀ x ∈ ws, x.kind ≠ .endOfInput) (hvs : ∀ x ∈ vs, x.kind ≠ .endOfInput)
    (hys : (Lexeme.next ys).kind = .endOfInput) : vs = ws := by
  induction ws generalizing vs with
  | nil =>
    cases vs with
    | nil => rfl
    | cons y vs =>
      obtain ⟨rfl, -⟩ := List.cons.inj h
      exact absurd rfl (hvs _ List.mem_cons_self)
  | cons x ws ih =>
    obtain ⟨hx, hws⟩ := List.forall_mem_cons.1 hws
    cases vs with
    | nil =>
      rw [List.nil_append] at h
      rw [← h] at hys
      exact absurd hys hx
    | cons y vs =>
      obtain ⟨rfl, htail⟩ := List.cons.inj h
      rw [ih htail hws (List.forall_mem_cons.1 hvs).2]

section
variable {α : Type} {p : Parser α} [Readable p] {Q : List Lexeme → α → Prop} {f : α → α} {source : String}
  {ts : List Token}

/-- A text that is read to its end is a `Q` up to the end of input, and each `Q` there is read as `f` of it. -/
theorem readAll_whole_iff (hsound : Sound Q (read p))
    (hends : ∀ ws a, Q ws a → ∀ x ∈ ws, x.kind ≠ .endOfInput)
    (hreads : ∀ ws a, Q ws a → (∀ x ∈ ws, x.InRange) → read p (ws ++ [.ending]) = some (f a, [.ending]))
    (hts : scan source = .ok ts) : ∃ ws, ts.map Token.lexeme = ws ++ [.ending] ∧
      ((∃ a, readAll (do let a ← p; Parser.endOfInput; return a) source = .ok a) ↔ ∃ a, Q ws a) ∧
      (∀ a, readAll (do let a ← p; Parser.endOfInput; return a) source = .ok a → Q ws a) ∧
      ∀ a, Q ws a → readAll (do let a ← p; Parser.endOfInput; return a) source = .ok (f a) := by
  obtain ⟨hlexemes, hws⟩ := lexemes_of_scan hts
  have hread : ∀ a, readAll (do let a ← p; Parser.endOfInput; return a) source = .ok a →
      Q (ts.dropLast.map Token.lexeme) a := by
    intro a ha
    obtain ⟨ys, hread, hys⟩ := (readAll_whole_eq_ok_iff hts).1 ha
    rw [hlexemes] at hread
    have hscanned : ∀ x ∈ ts.dropLast.map Token.lexeme ++ [.ending], x.Scanned :=
      List.forall_mem_append.2 ⟨fun x hx => (hws x hx).2, List.forall_mem_singleton.2 ⟨nofun, nofun⟩⟩
    obtain ⟨vs, hsplit, hvs⟩ := hsound _ a ys hscanned hread
    obtain rfl := eq_of_append_ending hsplit (fun x hx => (hws x hx).1) (hends vs a hvs) hys
    exact hvs
  have hparse : ∀ a, Q (ts.dropLast.map Token.lexeme) a →
      readAll (do let a ← p; Parser.endOfInput; return a) source = .ok (f a) := by
    intro a ha
    refine (readAll_whole_eq_ok_iff hts).2 ⟨[.ending], ?_, rfl⟩
    rw [hlexemes]
    exact hreads _ a ha fun x hx => (hws x hx).2.inRange
  refine ⟨_, hlexemes, ⟨?_, ?_⟩, hread, hparse⟩
  · rintro ⟨a, ha⟩
    exact ⟨a, hread a ha⟩
  · rintro ⟨a, ha⟩
    exact ⟨f a, hparse a ha⟩

end

/-- A text that is scanned is parsed as an expression if its lexemes up to the end of input are one. The
tree is that of a derivation, and any derivation gives it, once each call of `not` with one argument is
taken for the operator. -/
theorem parseExpr_iff_derives (source : String) :
    match scan source with
    | .error e => parseExpr source = .error (.scan e)
    | .ok tokens => ∃ ws, tokens.map Token.lexeme = ws ++ [.ending] ∧
        ((∃ e, parseExpr source = .ok e) ↔ ∃ e, ExprForm.expression.Derives ws e) ∧
        (∀ e, parseExpr source = .ok e → ExprForm.expression.Derives ws e) ∧
        ∀ e, ExprForm.expression.Derives ws e → parseExpr source = .ok e.operatorNot := by
  cases hts : scan source with
  | error e => exact readAll_of_error hts
  | ok ts =>
    refine readAll_whole_iff Parser.sound_expr
      (fun ws e h => h.kind_ne_endOfInput Parser.unambiguous_binaryOperators) (fun ws e h hws => ?_) hts
    exact Parser.read_expr_of_derives h hws (by simp [Parser.closers])

/-- A text that is scanned is parsed as a movement if its lexemes up to the end of input are one. The tree
is that of a derivation, and any derivation gives it, once each call of `not` with one argument that is an
operand in it is taken for the operator. -/
theorem parseMovement_iff_derives (source : String) :
    match scan source with
    | .error e => parseMovement source = .error (.scan e)
    | .ok tokens => ∃ ws, tokens.map Token.lexeme = ws ++ [.ending] ∧
        ((∃ m, parseMovement source = .ok m) ↔ ∃ m, MovementForm.union.Derives ws m) ∧
        (∀ m, parseMovement source = .ok m → MovementForm.union.Derives ws m) ∧
        ∀ m, MovementForm.union.Derives ws m → parseMovement source = .ok m.operatorNot := by
  cases hts : scan source with
  | error e => exact readAll_of_error hts
  | ok ts =>
    exact readAll_whole_iff Parser.sound_movement (fun ws m h => h.kind_ne_endOfInput)
      (fun ws m h hws => Parser.read_movement_of_derives h hws (.inr (.inr rfl))) hts

end BoardGame
