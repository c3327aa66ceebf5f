import BoardGame.Proofs.Grammar.Balance
import BoardGame.Proofs.Grammar.Derivation.Expr

/-!
# Expressions are read from what is written

Each operation is written in brackets, so the grammar derives an expression from its lexemes as an operand
(`derives_lexemes`). What is derived is read, and a printable expression has no call of `not` to be read
otherwise.
-/

namespace BoardGame
open Lexeme (next)

/-! ### The lexemes of an expression are derived -/

namespace ExprForm

section
variable {ws : List Lexeme} {e : Expr}

theorem Derives.next_level {levels : List (List (Lexeme × BinaryOp))} (h : Derives (.level levels) ws e)
    (first : List (Lexeme × BinaryOp)) : Derives (.level (first :: levels)) ws e := by
  have hlevel : Derives (.level (first :: levels)) (ws ++ [].flatMap Operation.write) (e.operate []) :=
    .level h nofun nofun
  rwa [List.flatMap_nil, List.append_nil] at hlevel

/-- An operand is an expression of any levels. -/
theorem Derives.of_operand (h : Derives .operand ws e) (levels : List (List (Lexeme × BinaryOp))) :
    Derives (.level levels) ws e := by
  induction levels with
  | nil => exact .bare h
  | cons first levels ih => exact ih.next_level first

/-- Two operands with an operator between them are an expression of any levels that have the operator. -/
theorem Derives.operation {x : Lexeme} {op : BinaryOp} {vs ws : List Lexeme} {l r : Expr}
    (hl : Derives .operand vs l) (hr : Derives .operand ws r) {levels : List (List (Lexeme × BinaryOp))}
    (hx : ∃ level ∈ levels, (x, op) ∈ level) : Derives (.level levels) (vs ++ x :: ws) (.binary op l r) := by
  induction levels with
  | nil => simp at hx
  | cons first levels ih =>
    by_cases hfirst : (x, op) ∈ first
    · have hlevel : Derives (.level (first :: levels)) (vs ++ [⟨x, op, ws, r⟩].flatMap Operation.write)
          (l.operate [⟨x, op, ws, r⟩]) := .level (hl.of_operand levels) (List.forall_mem_singleton.2 hfirst)
        (List.forall_mem_singleton.2 (hr.of_operand levels))
      rwa [List.flatMap_singleton] at hlevel
    · obtain ⟨level, hlevel, hx⟩ := hx
      have hmem := (List.mem_cons.1 hlevel).resolve_left fun heq => hfirst (heq ▸ hx)
      exact (ih ⟨level, hmem, hx⟩).next_level first

end

end ExprForm

/-- An expression with its lexemes. -/
def Expr.phrase (e : Expr) : Phrase := (e.lexemes, e)

theorem mem_binaryOperators (op : BinaryOp) :
    ∃ level ∈ binaryOperators, (Lexeme.operator op.symbol, op) ∈ level := by
  cases op <;> decide

namespace Expr
open ExprForm (Derives expression)

theorem lexemesIndices_eq_flatMap (es : List Expr) :
    lexemesIndices es = (es.map phrase).flatMap Phrase.writeIndex := by
  induction es with
  | nil => rfl
  | cons e es ih =>
    rw [lexemesIndices, ih, List.map_cons, List.flatMap_cons]
    simp [Phrase.writeIndex, phrase]

theorem lexemes_call (name : String) (args : List Expr) :
    (call name args).lexemes = writeCall name (args.map phrase) := by
  rw [lexemes, writeCall, lexemesAll_eq_map, List.map_map]
  rfl

theorem map_snd_phrase (es : List Expr) : (es.map phrase).map Prod.snd = es := by
  rw [List.map_map]
  exact List.map_id es

mutual

theorem Printable.derives : ∀ e : Expr, e.Printable → Derives .operand e.lexemes e
  | .literal n, h => by
    have hliteral := Derives.literal (toString n)
    obtain ⟨m, rfl⟩ := Int.eq_ofNat_of_zero_le h.1
    rw [decimalValue_toString] at hliteral
    exact .core hliteral
  | .var _, h => .core (.var h.2)
  | .field _ key, h => .core (.field h.2.1 key)
  | .index name es, h => by
    have hname : name ∉ ["and", "or", "not"] := h.2.1
    have hindex := Derives.index hname (mt List.map_eq_nil_iff.1 h.2.2.1) (PrintableAll.derives es h.2.2.2)
    rw [map_snd_phrase, ← lexemesIndices_eq_flatMap] at hindex
    exact .core hindex
  | .binary op l r, h => by
    have hgroup := Derives.group ((Printable.derives l h.1).operation (Printable.derives r h.2)
      (mem_binaryOperators op))
    have hxs : (binary op l r).lexemes =
        Lexeme.bracketed (l.lexemes ++ .operator op.symbol :: r.lexemes) := by simp [lexemes, Lexeme.bracketed]
    rw [hxs]
    exact .core hgroup
  | .unary op e, h => .unary (by cases op <;> decide) (Printable.derives e h)
  | .call name es, h => by
    have hcall := Derives.call name (PrintableAll.derives es h.2.2)
    rw [map_snd_phrase, ← lexemes_call] at hcall
    exact .core (.applied hcall)

theorem PrintableAll.derives : ∀ es : List Expr, PrintableAll es →
    ∀ a ∈ es.map phrase, Derives expression a.1 a.2
  | [], _ => nofun
  | e :: es, h => List.forall_mem_cons.2
    ⟨(Printable.derives e h.1).of_operand binaryOperators, PrintableAll.derives es h.2⟩

end

/-! ### What is printed is read -/

theorem inRange_of_kind {x : Lexeme} (h : x.kind ≠ .integer) : x.InRange := fun hx => absurd hx h

theorem inRange_bracketed {ws : List Lexeme} (h : ∀ x ∈ ws, x.InRange) :
    ∀ x ∈ Lexeme.bracketed ws, x.InRange :=
  Parser.forall_mem_bracketed (inRange_of_kind nofun) (inRange_of_kind nofun) h

theorem inRange_writeCall (name : String) {args : List Phrase} (h : ∀ a ∈ args, ∀ x ∈ a.1, x.InRange) :
    ∀ x ∈ writeCall name args, x.InRange :=
  List.forall_mem_cons.2 ⟨inRange_of_kind nofun, inRange_bracketed
    (Parser.forall_mem_separated (inRange_of_kind nofun) (List.forall_mem_map.2 h))⟩

mutual

theorem Printable.inRange : ∀ e : Expr, e.Printable → ∀ x ∈ e.lexemes, x.InRange
  | .literal n, h => by
    obtain ⟨m, rfl⟩ := Int.eq_ofNat_of_zero_le h.1
    refine List.forall_mem_singleton.2 fun _ => ?_
    have hdigits : (decimalValue (toString (m : Int)).toList : Int) = m := by rw [decimalValue_toString]
    rw [hdigits]
    exact (if_pos rfl).trans (readInt64?_toString h)
  | .var _, _ => by simp [lexemes, Lexeme.InRange]
  | .field _ _, _ => by simp [lexemes, Lexeme.InRange]
  | .index _ es, h => by
    rw [lexemes, lexemesIndices_eq_flatMap]
    refine List.forall_mem_cons.2 ⟨inRange_of_kind nofun, fun x hx => ?_⟩
    obtain ⟨a, ha, hx⟩ := List.mem_flatMap.1 hx
    exact Parser.forall_mem_writeIndex (inRange_of_kind nofun) (inRange_of_kind nofun)
      (PrintableAll.inRange es h.2.2.2 a ha) x hx
  | .binary op l r, h => by
    have hl := Printable.inRange l h.1
    have hr := Printable.inRange r h.2
    exact List.forall_mem_append.2 ⟨List.forall_mem_append.2 ⟨List.forall_mem_cons.2 ⟨inRange_of_kind nofun, hl⟩,
      List.forall_mem_cons.2 ⟨inRange_of_kind nofun, hr⟩⟩, List.forall_mem_singleton.2 (inRange_of_kind nofun)⟩
  | .unary _ e, h => List.forall_mem_cons.2 ⟨inRange_of_kind nofun, Printable.inRange e h⟩
  | .call name es, h => by
    rw [lexemes_call]
    exact inRange_writeCall name (PrintableAll.inRange es h.2.2)

theorem PrintableAll.inRange : ∀ es : List Expr, PrintableAll es →
    ∀ a ∈ es.map phrase, ∀ x ∈ a.1, x.InRange
  | [], _ => nofun
  | e :: es, h => List.forall_mem_cons.2 ⟨Printable.inRange e h.1, PrintableAll.inRange es h.2⟩

end
end Expr

namespace Parser
variable {ys : List Lexeme}

theorem readsLevels_of_printable {e : Expr} (h : e.Printable) : ReadsLevels binaryOperators e.lexemes e :=
  ((Expr.Printable.derives e h).of_operand binaryOperators).readsBack (Expr.Printable.inRange e h)
    unambiguous_binaryOperators

theorem readsLevels_phrase {es : List Expr} (h : Expr.PrintableAll es) :
    ∀ a ∈ es.map Expr.phrase, ReadsLevels binaryOperators a.1 a.2 :=
  List.forall_mem_map.2 fun e he => readsLevels_of_printable (Expr.printableAll_iff.1 h e he)

theorem map_operatorNot_phrase {es : List Expr} (h : Expr.PrintableAll es) :
    (es.map Expr.phrase).map (fun a => a.2.operatorNot) = es := by
  rw [List.map_map]
  exact (Expr.operatorNotAll_eq_map es).symm.trans (Expr.PrintableAll.operatorNotAll_eq es h)

theorem read_expr_lexemes {e : Expr} (h : e.Printable) (hys : next ys ∈ closers) :
    read expr (e.lexemes ++ ys) = some (e, ys) := by
  have hread := (readsLevels_of_printable h).expr hys
  rwa [Expr.Printable.operatorNot_eq e h] at hread

theorem read_indices_lexemes {es : List Expr} (h : Expr.PrintableAll es) (hys : next ys ≠ .symbol "[") :
    read (indices expr) (Expr.lexemesIndices es ++ ys) = some (es, ys) := by
  have hread := readMany_indices (p := expr)
    (fun a ha zs _ => (readsLevels_phrase h a ha).expr (by simp [closers])) hys
  rw [← Expr.lexemesIndices_eq_flatMap, map_operatorNot_phrase h] at hread
  exact congrArg some hread

end Parser
end BoardGame
