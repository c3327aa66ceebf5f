import BoardGame.Proofs.Grammar.Derivation.Movement
import BoardGame.Proofs.Grammar.Reread.Expr

/-!
# Movements are read from what is written

A movement is written as the row of its factors (`exists_factors`), and the grammar derives each of them
(`exists_phrases`). So what is read from its lexemes is the movement with its concatenations grouped to
the right (`read_movement_lexemes`).
-/

namespace BoardGame

/-! ### Factors -/

namespace Movement

/-- Not a concatenation. -/
def Single (m : Movement) : Prop := ∀ left right, m ≠ concat left right

theorem Single.followedBy {m : Movement} (h : m.Single) (n : Movement) : m.followedBy n = concat m n := by
  cases m with
  | concat left right => exact absurd rfl (h left right)
  | _ => rfl

theorem single_of_mem_factors {m n : Movement} (h : n ∈ m.factors) : n.Single := by
  induction m with
  | concat left right hleft hright =>
    rcases List.mem_append.1 h with h | h
    · exact hleft h
    · exact hright h
  | _ =>
    obtain rfl := List.mem_singleton.1 h
    exact nofun

/-- Two rows in one give the first followed by the second. -/
theorem concatAll_append {m n : Movement} {ms ns : List Movement} (h : ∀ k ∈ m :: ms, k.Single) :
    Parser.concatAll m (ms ++ n :: ns) = (Parser.concatAll m ms).followedBy (Parser.concatAll n ns) := by
  induction ms generalizing m with
  | nil => exact ((h m List.mem_cons_self).followedBy _).symm
  | cons k ms ih =>
    rw [List.cons_append, Parser.concatAll, Parser.concatAll, Movement.followedBy,
      ih fun k' hk' => h k' (List.mem_cons_of_mem _ hk')]

theorem exists_factors (m : Movement) :
    ∃ n ns, m.factors = n :: ns ∧ Parser.concatAll n ns = m.reassoc := by
  induction m with
  | concat left right hleft hright =>
    obtain ⟨k, ks, hks, hleft⟩ := hleft
    obtain ⟨n, ns, hns, hright⟩ := hright
    refine ⟨k, ks ++ n :: ns, by rw [factors, hks, hns, List.cons_append], ?_⟩
    rw [concatAll_append (fun k' hk' => single_of_mem_factors (hks ▸ hk')), hleft, hright, reassoc]
  | _ => exact ⟨_, [], rfl, rfl⟩

end Movement

/-! ### The lexemes of a movement are derived -/

open Lexeme (next bracketed)
open MovementForm (Derives)

theorem Call.derives_lexemes {c : Call} (h : c.Printable) : ExprForm.call.Derives c.lexemes c.toExpr := by
  have hcall := ExprForm.Derives.call c.name (Expr.PrintableAll.derives c.args h.2)
  rw [Expr.map_snd_phrase, ← Expr.lexemes_call] at hcall
  exact hcall

theorem Condition.derives_lexemes {c : Condition} (h : c.Printable) : c.Derives c.lexemes := by
  cases c with
  | named name => rfl
  | call c => exact Call.derives_lexemes h

theorem Letter.effectDerives_lexemes {effect : Option Call} (h : ∀ c ∈ effect, c.Printable) :
    EffectDerives effect (effectLexemes effect) := by
  cases effect with
  | none => rfl
  | some c => exact ⟨c.lexemes, rfl, Call.derives_lexemes (h c rfl)⟩

theorem Expr.Printable.derives_expression {e : Expr} (h : e.Printable) :
    ExprForm.expression.Derives e.lexemes e := (Printable.derives e h).of_operand binaryOperators

theorem Letter.derives_lexemes {l : Letter} (h : l.Printable) : Derives .term l.lexemes (.letter l) :=
  .letter h.dx.derives_expression h.dy.derives_expression (Condition.derives_lexemes h.condition)
    (effectDerives_lexemes h.effect)

/-! ### Calls and letters -/

theorem Call.inRange_lexemes {c : Call} (h : c.Printable) : ∀ x ∈ c.lexemes, x.InRange := by
  have hwrite : c.lexemes = writeCall c.name (c.args.map Expr.phrase) := Expr.lexemes_call c.name c.args
  rw [hwrite]
  exact Expr.inRange_writeCall c.name (Expr.PrintableAll.inRange c.args h.2)

theorem Call.Printable.operatorNot_eq {c : Call} (h : c.Printable) : c.operatorNot = c := by
  rw [operatorNot, ← Expr.operatorNotAll_eq_map, Expr.PrintableAll.operatorNotAll_eq c.args h.2]

theorem Condition.inRange_lexemes {c : Condition} (h : c.Printable) : ∀ x ∈ c.lexemes, x.InRange := by
  cases c with
  | named name => exact List.forall_mem_singleton.2 (Expr.inRange_of_kind (by rintro ⟨⟩))
  | call c => exact Call.inRange_lexemes h

theorem Condition.Printable.operatorNot_eq {c : Condition} (h : c.Printable) : c.operatorNot = c := by
  cases c with
  | named name => rfl
  | call c => exact congrArg call (Call.Printable.operatorNot_eq h)

theorem Letter.inRange_lexemes {l : Letter} (h : l.Printable) : ∀ x ∈ l.lexemes, x.InRange := by
  have hparts : ∀ ws ∈ [l.dx.lexemes, l.dy.lexemes, l.condition.lexemes], ∀ x ∈ ws, x.InRange := by
    simp only [List.forall_mem_cons]
    exact ⟨Expr.Printable.inRange l.dx h.dx, Expr.Printable.inRange l.dy h.dy,
      Condition.inRange_lexemes h.condition, nofun⟩
  have heffect : ∀ x ∈ effectLexemes l.effect, x.InRange := by
    cases he : l.effect with
    | none => exact nofun
    | some c =>
      exact List.forall_mem_append.2 ⟨List.forall_mem_cons.2 ⟨Expr.inRange_of_kind nofun,
        Call.inRange_lexemes (h.effect c he)⟩, List.forall_mem_singleton.2 (Expr.inRange_of_kind nofun)⟩
  exact List.forall_mem_append.2 ⟨Expr.inRange_bracketed
    (Parser.forall_mem_separated (Expr.inRange_of_kind nofun) hparts), heffect⟩

theorem Letter.Printable.operatorNot_eq {l : Letter} (h : l.Printable) : l.operatorNot = l := by
  have heffect : l.effect.map Call.operatorNot = l.effect := by
    cases he : l.effect with
    | none => rfl
    | some c => exact congrArg some (h.effect c he).operatorNot_eq
  rw [operatorNot, Expr.Printable.operatorNot_eq _ h.dx, Expr.Printable.operatorNot_eq _ h.dy,
    h.condition.operatorNot_eq, heffect]

namespace Movement

/-- A row of phrases that the movement is written and read as. -/
def IsRow (m : Movement) (row : List MovementPhrase) : Prop :=
  row.flatMap Prod.fst = m.lexemes ∧ row.map Prod.snd = m.factors ∧ ∀ p ∈ row, Derives .repeated p.1 p.2

theorem isRow_single {m : Movement} (hfactors : m.factors = [m.reassoc])
    (h : Derives .repeated m.lexemes m.reassoc) : m.IsRow [(m.lexemes, m.reassoc)] :=
  ⟨List.flatMap_singleton .., hfactors.symm, List.forall_mem_singleton.2 h⟩

theorem IsRow.derives {m : Movement} {row : List MovementPhrase} (h : m.IsRow row) :
    Derives .row m.lexemes m.reassoc := by
  obtain ⟨hlexemes, hfactors, hrow⟩ := h
  obtain ⟨f, fs, hfs, hreassoc⟩ := m.exists_factors
  rw [hfs] at hfactors
  obtain ⟨p, rest, rfl, rfl, rfl⟩ := List.map_eq_cons_iff.1 hfactors
  obtain ⟨hfirst, hrest⟩ := List.forall_mem_cons.1 hrow
  rw [← hlexemes, ← hreassoc]
  exact .row hfirst hrest

theorem derives_group {m : Movement} (h : ∃ row, m.IsRow row) :
    Derives .term (bracketed m.lexemes) m.reassoc := by
  obtain ⟨row, hrow⟩ := h
  exact .group (.alone hrow.derives)

theorem exists_phrases {m : Movement} (h : m.Printable) : ∃ row, m.IsRow row := by
  induction m with
  | letter l => exact ⟨_, isRow_single rfl (.once (Letter.derives_lexemes h))⟩
  | concat left right hleft hright =>
    obtain ⟨row, hlexemes, hfactors, hrow⟩ := hleft h.1
    obtain ⟨row', hlexemes', hfactors', hrow'⟩ := hright h.2
    refine ⟨row ++ row', ?_, ?_, List.forall_mem_append.2 ⟨hrow, hrow'⟩⟩
    · rw [List.flatMap_append, hlexemes, hlexemes']
      rfl
    · rw [List.map_append, hfactors, hfactors']
      rfl
  | union left right hleft hright =>
    obtain ⟨row, hrow⟩ := hleft h.1
    obtain ⟨row', hrow'⟩ := hright h.2
    exact ⟨_, isRow_single rfl (.once (.group (.union hrow.derives (.alone hrow'.derives))))⟩
  | star inner ih =>
    have hsign : (Lexeme.operator "*", Movement.star) ∈ repetitions := by simp [repetitions]
    have hstar := Derives.repeated (derives_group (ih h)) hsign
    exact ⟨_, isRow_single rfl hstar⟩
  | plus inner ih =>
    have hsign : (Lexeme.operator "+", Movement.plus) ∈ repetitions := by simp [repetitions]
    have hplus := Derives.repeated (derives_group (ih h)) hsign
    exact ⟨_, isRow_single rfl hplus⟩
  | optional inner ih =>
    have hsign : (Lexeme.operator "?", Movement.optional) ∈ repetitions := by simp [repetitions]
    have hoptional := Derives.repeated (derives_group (ih h)) hsign
    exact ⟨_, isRow_single rfl hoptional⟩
  | expand c => exact ⟨_, isRow_single rfl (.once (.expand (Call.derives_lexemes h)))⟩

/-! ### What is printed is read -/

theorem inRange_lexemes {m : Movement} (h : m.Printable) : ∀ x ∈ m.lexemes, x.InRange := by
  induction m with
  | letter l => exact Letter.inRange_lexemes h
  | concat left right hleft hright => exact List.forall_mem_append.2 ⟨hleft h.1, hright h.2⟩
  | union left right hleft hright =>
    exact Expr.inRange_bracketed (List.forall_mem_append.2
      ⟨hleft h.1, List.forall_mem_cons.2 ⟨Expr.inRange_of_kind nofun, hright h.2⟩⟩)
  | star inner ih | plus inner ih | optional inner ih =>
    exact List.forall_mem_append.2 ⟨Expr.inRange_bracketed (ih h),
      List.forall_mem_singleton.2 (Expr.inRange_of_kind nofun)⟩
  | expand c => exact Call.inRange_lexemes h

theorem operatorNot_followedBy (m n : Movement) :
    (m.followedBy n).operatorNot = m.operatorNot.followedBy n.operatorNot := by
  induction m with
  | concat left right _ hright => rw [followedBy, operatorNot, operatorNot, hright, followedBy]
  | _ => rfl

theorem Printable.operatorNot_reassoc {m : Movement} (h : m.Printable) :
    m.reassoc.operatorNot = m.reassoc := by
  induction m with
  | letter l => exact congrArg letter h.operatorNot_eq
  | concat left right hleft hright =>
    rw [reassoc, operatorNot_followedBy, hleft h.1, hright h.2]
  | union left right hleft hright => rw [reassoc, operatorNot, hleft h.1, hright h.2]
  | star inner ih | plus inner ih | optional inner ih => rw [reassoc, operatorNot, ih h]
  | expand c => exact congrArg expand h.operatorNot_eq

end Movement

theorem Parser.read_movement_lexemes {m : Movement} (h : m.Printable) {ys : List Lexeme}
    (hys : EndsMovement (next ys)) : read movement (m.lexemes ++ ys) = some (m.reassoc, ys) := by
  obtain ⟨row, hrow⟩ := Movement.exists_phrases h
  have hread := read_movement_of_derives (.alone hrow.derives) (Movement.inRange_lexemes h) hys
  rwa [h.operatorNot_reassoc] at hread

end BoardGame
