import BoardGame.Proofs.Token.Scanning

/-!
# What is printed is scanned

The text of a printable tree is split into the lexemes it is written with (`Program.scans`). Only a
text that may end in a word says what it must not be followed by (`Spells`).
-/

namespace BoardGame
open Lexeme (separated bracketed)
variable {α : Type} {cs : List Char} {ys : List Lexeme}

/-- Followed by the end of a word, the text is split into these lexemes. -/
def Spells (s : String) (xs : List Lexeme) : Prop :=
  ∀ cs ys, EndsWord cs → Scans cs ys → Scans (s.toList ++ cs) (xs ++ ys)

theorem endsWord_append {s : String}
    (hs : s ∈ [" ", "(", ")", "[", "]", "\x7b", "\x7d", ",", ";", "."]) : EndsWord (s.toList ++ cs) := by
  simp only [List.mem_cons, List.not_mem_nil, or_false] at hs
  intro c hc
  rcases hs with rfl | rfl | rfl | rfl | rfl | rfl | rfl | rfl | rfl | rfl <;>
  · cases hc
    rfl

theorem spells_word {s : String} (h : IsWord s) : Spells s [.word s] :=
  fun _ _ hcs hscan => hscan.word h hcs

theorem spells_integer {n : Int} (h : IsUnsigned n) : Spells (toString n) [.integer n] :=
  fun _ _ hcs hscan => hscan.integer h hcs

/-! ### Lists -/

theorem comma_space : ", " = "," ++ " " := rfl

theorem spells_commaSeparated {text : α → String} {write : α → List Lexeme} {items : List α}
    (h : ∀ a ∈ items, Spells (text a) (write a)) :
    Spells (commaSeparated (items.map text)) (separated (items.map write)) := by
  intro cs ys hcs hscan
  cases items with
  | nil => exact hscan
  | cons a items =>
    induction items generalizing a with
    | nil =>
      have htext : commaSeparated ([a].map text) = text a := String.intercalate_singleton
      have hwrite : separated ([a].map write) = write a := by simp [separated]
      rw [htext, hwrite]
      exact h a List.mem_cons_self cs ys hcs hscan
    | cons b items ih =>
      have htext : commaSeparated ((a :: b :: items).map text) =
          text a ++ ("," ++ (" " ++ commaSeparated ((b :: items).map text))) := by
        rw [List.map_cons, List.map_cons, commaSeparated, String.intercalate_cons_cons, comma_space,
          String.append_assoc, String.append_assoc]
        rfl
      have hwrite : separated ((a :: b :: items).map write) =
          write a ++ .comma :: separated ((b :: items).map write) := by simp [separated]
      rw [htext, hwrite]
      simp only [String.toList_append, List.append_assoc, List.cons_append]
      exact h a List.mem_cons_self _ _ (endsWord_append (by simp))
        (.comma (.space (ih b fun c hc => h c (List.mem_cons_of_mem a hc))))

/-! ### Expressions -/

theorem Expr.renderAll_eq_map (es : List Expr) : renderAll es = es.map render := by
  induction es with
  | nil => rfl
  | cons e es ih => rw [renderAll, List.map_cons, ih]

theorem BinaryOp.symbol_mem_operators (op : BinaryOp) : op.symbol ∈ operators := by
  cases op <;> decide

/-- A text that starts with `=` would go on with the `!` before it. -/
def StartsEqual (cs : List Char) : Prop := cs.head? = some '='

theorem not_startsEqual_word {s : String} (h : IsWord s) (cs : List Char) : ¬ StartsEqual (s.toList ++ cs) := by
  obtain ⟨c, text, hs, hstart, -⟩ := h
  rw [hs]
  intro hhead
  obtain rfl := Option.some_inj.1 hhead
  exact absurd hstart (by decide)

theorem not_startsEqual_integer {n : Int} (h : IsUnsigned n) (cs : List Char) :
    ¬ StartsEqual ((toString n).toList ++ cs) := by
  obtain ⟨hne, hdigits⟩ := isNumeral_toString h.1
  obtain ⟨c, text, hs⟩ := List.exists_cons_of_ne_nil hne
  rw [hs] at hdigits ⊢
  intro hhead
  obtain rfl := Option.some_inj.1 hhead
  exact absurd (hdigits _ List.mem_cons_self) (by decide)

theorem Expr.not_startsEqual_render {e : Expr} (h : e.Printable) (cs : List Char) :
    ¬ StartsEqual (e.render.toList ++ cs) := by
  cases e with
  | literal n => exact not_startsEqual_integer h cs
  | var name => exact not_startsEqual_word h.1 cs
  | field name key | index name is | call name args =>
    simp only [Expr.render, String.toList_append, List.append_assoc]
    exact not_startsEqual_word h.1 _
  | binary op l r =>
    simp only [Expr.render, String.toList_append, List.append_assoc]
    exact nofun
  | unary op e =>
    simp only [Expr.render, String.toList_append, List.append_assoc]
    cases op <;> exact nofun

theorem scans_call {name : String} {args : List Expr} (hname : IsWord name)
    (hargs : ∀ e ∈ args, Spells e.render e.lexemes) (hscan : Scans cs ys) :
    Scans ((Expr.call name args).render.toList ++ cs) ((Expr.call name args).lexemes ++ ys) := by
  simp only [Expr.render, Expr.lexemes, Expr.renderAll_eq_map, Expr.lexemesAll_eq_map, bracketed,
    String.toList_append, List.append_assoc, List.cons_append, List.nil_append]
  exact .word (.symbol (spells_commaSeparated hargs _ _ (endsWord_append (by simp))
    (.symbol hscan (by simp))) (by simp)) hname (endsWord_append (by simp))

mutual

theorem Expr.spells : ∀ e : Expr, e.Printable → Spells e.render e.lexemes
  | .literal _, h => spells_integer h
  | .var _, h => spells_word h.1
  | .field name key, h => by
    intro cs ys hcs hscan
    simp only [Expr.render, Expr.lexemes, String.toList_append, List.append_assoc, List.cons_append,
      List.nil_append]
    exact .word (.operator (hscan.word h.2.2 hcs) (by simp)) h.1 (endsWord_append (by simp))
  | .index name is, h => by
    intro cs ys hcs hscan
    have his := Expr.spellsIndices is h.2.2.2 cs ys hscan
    simp only [Expr.render, Expr.lexemes, String.toList_append, List.append_assoc, List.cons_append]
    obtain ⟨i, is, rfl⟩ := List.exists_cons_of_ne_nil h.2.2.1
    refine his.word h.1 ?_
    simp only [Expr.renderIndices, String.toList_append, List.append_assoc]
    exact endsWord_append (by simp)
  | .binary op l r, h => by
    intro cs ys hcs hscan
    simp only [Expr.render, Expr.lexemes, String.toList_append, List.append_assoc, List.cons_append,
      List.nil_append]
    have hright := Expr.spells r h.2 _ _ (endsWord_append (s := ")") (by simp)) (.symbol hscan (by simp))
    exact .symbol (Expr.spells l h.1 _ _ (endsWord_append (by simp))
      (.space (.operator_space hright op.symbol_mem_operators))) (by simp)
  | .unary .not e, h => by
    intro cs ys hcs hscan
    simp only [Expr.render, Expr.lexemes, String.toList_append, List.append_assoc, List.cons_append]
    exact .not (Expr.spells e h cs ys hcs hscan) (e.not_startsEqual_render h cs)
  | .unary .neg e, h => by
    intro cs ys hcs hscan
    simp only [Expr.render, Expr.lexemes, String.toList_append, List.append_assoc, List.cons_append]
    exact .operator (Expr.spells e h cs ys hcs hscan) (by simp [UnaryOp.symbol])
  | .call _ args, h => fun _ _ _ hscan => scans_call h.1 (Expr.spellsAll args h.2.2) hscan

theorem Expr.spellsIndices : ∀ es : List Expr, Expr.PrintableAll es → ∀ cs ys, Scans cs ys →
    Scans ((Expr.renderIndices es).toList ++ cs) (Expr.lexemesIndices es ++ ys)
  | [], _ => fun _ _ hscan => hscan
  | e :: es, h => by
    intro cs ys hscan
    simp only [Expr.renderIndices, Expr.lexemesIndices, String.toList_append, List.append_assoc,
      List.cons_append]
    exact .symbol (Expr.spells e h.1 _ _ (endsWord_append (by simp))
      (.symbol (Expr.spellsIndices es h.2 cs ys hscan) (by simp))) (by simp)

theorem Expr.spellsAll : ∀ es : List Expr, Expr.PrintableAll es → ∀ e ∈ es, Spells e.render e.lexemes
  | [], _ => nofun
  | e :: es, h => List.forall_mem_cons.2 ⟨Expr.spells e h.1, Expr.spellsAll es h.2⟩

end

/-! ### Movements -/

theorem Call.scans {c : Call} (h : c.Printable) (hscan : Scans cs ys) :
    Scans (c.render.toList ++ cs) (c.lexemes ++ ys) := scans_call h.1 (Expr.spellsAll c.args h.2) hscan

theorem Condition.spells {c : Condition} (h : c.Printable) : Spells c.render c.lexemes := by
  cases c with
  | named name => exact spells_word h
  | call c => exact fun _ _ _ hscan => Call.scans h hscan

theorem scans_effect {effect : Option Call} (h : ∀ c ∈ effect, c.Printable) (hscan : Scans cs ys) :
    Scans ((match effect with
      | none => ""
      | some e => "\x7b" ++ e.render ++ "\x7d").toList ++ cs) (Letter.effectLexemes effect ++ ys) := by
  cases effect with
  | none => exact hscan
  | some e =>
    simp only [Letter.effectLexemes, String.toList_append, List.append_assoc, List.cons_append,
      List.nil_append]
    exact .symbol (Call.scans (h e rfl) (.symbol hscan (by simp))) (by simp)

theorem Letter.scans {l : Letter} (h : l.Printable) (hscan : Scans cs ys) :
    Scans (l.render.toList ++ cs) (l.lexemes ++ ys) := by
  simp only [Letter.render, renderStep, Letter.lexemes, bracketed, separated, comma_space,
    String.toList_append, List.append_assoc, List.cons_append, List.nil_append, List.flatMap_cons,
    List.flatMap_nil]
  have hcondition := Condition.spells h.condition _ _ (endsWord_append (s := ")") (by simp))
    ((scans_effect h.effect hscan).symbol (by simp))
  have hdy := Expr.spells l.dy h.dy _ _ (endsWord_append (s := ",") (by simp)) hcondition.space.comma
  exact .symbol (Expr.spells l.dx h.dx _ _ (endsWord_append (by simp)) hdy.space.comma) (by simp)

/-- A group with the operator that repeats it. -/
theorem scans_repetition {text closing : String} {xs : List Lexeme} (literal : String)
    (hclosing : closing = ")" ++ literal) (hliteral : literal ∈ ["*", "+", "-", "?", "."])
    (h : ∀ cs ys, Scans cs ys → Scans (text.toList ++ cs) (xs ++ ys)) (hscan : Scans cs ys) :
    Scans (("(" ++ text ++ closing).toList ++ cs) (bracketed xs ++ [.operator literal] ++ ys) := by
  simp only [hclosing, bracketed, String.toList_append, List.append_assoc, List.cons_append, List.nil_append]
  exact .symbol (h _ _ (.symbol (hscan.operator hliteral) (by simp))) (by simp)

theorem Movement.scans {m : Movement} (h : m.Printable) (hscan : Scans cs ys) :
    Scans (m.render.toList ++ cs) (m.lexemes ++ ys) := by
  induction m generalizing cs ys with
  | letter l => exact Letter.scans h hscan
  | concat left right hleft hright =>
    simp only [Movement.render, Movement.lexemes, String.toList_append, List.append_assoc]
    exact hleft h.1 (hright h.2 hscan)
  | union left right hleft hright =>
    have hbar : " | " = " " ++ ("|" ++ " ") := rfl
    simp only [Movement.render, Movement.lexemes, hbar, bracketed, String.toList_append, List.append_assoc,
      List.cons_append, List.nil_append]
    exact .symbol (hleft h.1 (.space (.operator_space (hright h.2 (.symbol hscan (by simp))) (by decide))))
      (by simp)
  | star inner ih => exact scans_repetition "*" rfl (by simp) (fun _ _ => ih h) hscan
  | plus inner ih => exact scans_repetition "+" rfl (by simp) (fun _ _ => ih h) hscan
  | optional inner ih => exact scans_repetition "?" rfl (by simp) (fun _ _ => ih h) hscan
  | expand c => exact Call.scans h hscan

/-! ### Declarations -/

theorem isWord_of_keyword {s : String} (hs : s ∈ ["players", "pieces", "rule", "macro", "predicate",
    "effect", "variable", "victory", "return", "board_size", "board", "None"]) : IsWord s := by
  simp only [List.mem_cons, List.not_mem_nil, or_false] at hs
  rcases hs with rfl | rfl | rfl | rfl | rfl | rfl | rfl | rfl | rfl | rfl | rfl | rfl <;>
  exact ⟨_, _, rfl, rfl, List.all_eq_true.1 rfl⟩

/-- A word with the space behind it. -/
theorem Scans.word_space {s : String} (hscan : Scans cs ys) (hs : IsWord s) :
    Scans (s.toList ++ (" ".toList ++ cs)) (.word s :: ys) :=
  hscan.space.word hs (endsWord_append (by simp))

/-- `=` between two spaces. -/
theorem Scans.equals (hscan : Scans cs ys) : Scans (" = ".toList ++ cs) (.operator "=" :: ys) :=
  (hscan.operator_space (s := "=") (by decide)).space

theorem scans_keyword {s text : String} (htext : text = s ++ " ") (hs : IsWord s) (hscan : Scans cs ys) :
    Scans (text.toList ++ cs) (.word s :: ys) := by
  rw [htext, String.toList_append, List.append_assoc]
  exact hscan.word_space hs

theorem PieceDecl.scans {p : PieceDecl} (h : p.Printable) (hscan : Scans cs ys) :
    Scans (p.render.toList ++ cs) (p.lexemes ++ ys) := by
  simp only [PieceDecl.render, PieceDecl.lexemes, bracketed, String.toList_append, List.append_assoc,
    List.cons_append, List.nil_append]
  exact .word (.symbol (.word (.symbol hscan (by simp)) h.2 (endsWord_append (by simp))) (by simp)) h.1
    (endsWord_append (by simp))

theorem Cell.spells {c : Cell} (h : c.Printable) : Spells c.render c.lexemes := by
  match c with
  | .empty => exact spells_word (s := "None") (isWord_of_keyword (by decide))
  | .piece name none => exact spells_word h.1
  | .piece name (some owner) =>
    exact fun _ _ _ hscan => PieceDecl.scans (p := ⟨name, owner⟩) ⟨h.1, h.2.2 owner rfl⟩ hscan

theorem scans_head {name : String} {params : List String} (hname : IsWord name)
    (hparams : ∀ p ∈ params, IsWord p) (hscan : Scans cs ys) :
    Scans ((renderHead name params).toList ++ cs) (Declaration.headLexemes name params ++ ys) := by
  have hlist : Spells (commaSeparated params) (separated (params.map fun p => [.word p])) := by
    have hspells : Spells (commaSeparated (params.map id)) (separated (params.map fun p => [.word p])) :=
      spells_commaSeparated fun p hp => spells_word (hparams p hp)
    rwa [List.map_id] at hspells
  simp only [renderHead, Declaration.headLexemes, bracketed, String.toList_append, List.append_assoc,
    List.cons_append, List.nil_append]
  exact .word (.symbol (hlist _ _ (endsWord_append (by simp)) (.symbol hscan (by simp))) (by simp)) hname
    (endsWord_append (by simp))

theorem scans_return {e : Expr} (h : e.Printable) (hscan : Scans cs ys) :
    Scans ((renderReturn e).toList ++ cs) (Declaration.returnLexemes e ++ ys) := by
  have hopening : "\x7b return " = "\x7b" ++ (" " ++ ("return" ++ " ")) := rfl
  have hclosing : "; \x7d;" = ";" ++ (" " ++ ("\x7d" ++ ";")) := rfl
  simp only [renderReturn, Declaration.returnLexemes, hopening, hclosing, String.toList_append,
    List.append_assoc, List.cons_append, List.nil_append]
  have hend : Scans (";".toList ++ (" ".toList ++ ("\x7d".toList ++ (";".toList ++ cs))))
      (.semicolon :: .symbol "\x7d" :: .semicolon :: ys) := .semicolon (.space (.symbol hscan.semicolon (by simp)))
  exact .symbol (.space (.word_space (Expr.spells e h _ _ (endsWord_append (by simp)) hend)
    (isWord_of_keyword (by decide)))) (by simp)

theorem Assignment.scans {a : Assignment} (h : a.Printable) (hscan : Scans cs ys) :
    Scans (a.render.toList ++ cs) (a.lexemes ++ ys) := by
  simp only [Assignment.render, Assignment.lexemes, String.toList_append, List.append_assoc,
    List.cons_append, List.nil_append]
  have hvalue := Expr.spells a.value h.value _ _ (endsWord_append (s := ";") (by simp)) hscan.semicolon
  have hindices := Expr.spellsIndices a.indices h.indices _ _ hvalue.equals
  refine hindices.word h.target ?_
  cases a.indices with
  | nil => exact endsWord_append (s := " ") (by simp)
  | cons i is =>
    simp only [Expr.renderIndices, String.toList_append, List.append_assoc]
    exact endsWord_append (by simp)

theorem scans_assignments {as : List Assignment} (h : ∀ a ∈ as, a.Printable) (hscan : Scans cs ys) :
    Scans ((String.join (as.map fun a => " " ++ a.render)).toList ++ cs)
      (as.flatMap Assignment.lexemes ++ ys) := by
  induction as with
  | nil => exact hscan
  | cons a as ih =>
    simp only [List.map_cons, String.join_cons, String.toList_append, List.append_assoc, List.flatMap_cons]
    exact .space (Assignment.scans (h a List.mem_cons_self)
      (ih fun b hb => h b (List.mem_cons_of_mem a hb)))

theorem Declaration.scans {d : Declaration} (h : d.Printable) (hscan : Scans cs ys) :
    Scans (d.render.toList ++ cs) (d.lexemes ++ ys) := by
  cases d with
  | rule r =>
    simp only [Declaration.render, Declaration.lexemes, String.toList_append, List.append_assoc,
      List.cons_append, List.nil_append]
    refine scans_keyword rfl (isWord_of_keyword (by decide)) ?_
    exact .word (.equals (Movement.scans h.2 hscan.semicolon)) h.1 (endsWord_append (s := " ") (by simp))
  | moveMacro m =>
    simp only [Declaration.render, Declaration.lexemes, String.toList_append, List.append_assoc,
      List.cons_append, List.nil_append]
    refine scans_keyword rfl (isWord_of_keyword (by decide)) ?_
    exact scans_head h.1 h.2.1 (.equals (Movement.scans h.2.2 hscan.semicolon))
  | predicate p =>
    simp only [Declaration.render, Declaration.lexemes, String.toList_append, List.append_assoc,
      List.cons_append]
    refine scans_keyword rfl (isWord_of_keyword (by decide)) ?_
    exact scans_head h.1 h.2.1 (.space (scans_return h.2.2 hscan))
  | effect e =>
    have hopening : " \x7b" = " " ++ "\x7b" := rfl
    have hclosing : " \x7d;" = " " ++ ("\x7d" ++ ";") := rfl
    simp only [Declaration.render, Declaration.lexemes, hopening, hclosing, String.toList_append,
      List.append_assoc, List.cons_append, List.nil_append]
    refine scans_keyword rfl (isWord_of_keyword (by decide)) ?_
    exact scans_head h.1 h.2.1 (.space (.symbol (scans_assignments h.2.2
      (.space (.symbol hscan.semicolon (by simp)))) (by simp)))
  | var v =>
    simp only [Declaration.render, Declaration.lexemes, String.toList_append, List.append_assoc,
      List.cons_append, List.nil_append]
    refine scans_keyword rfl (isWord_of_keyword (by decide)) ?_
    exact .word (.equals (Expr.spells v.value h.2 _ _ (endsWord_append (by simp)) hscan.semicolon)) h.1
      (endsWord_append (s := " ") (by simp))
  | victory v =>
    simp only [Declaration.render, Declaration.lexemes, String.toList_append, List.append_assoc,
      List.cons_append]
    refine scans_keyword rfl (isWord_of_keyword (by decide)) ?_
    exact .word_space (scans_return h.2 hscan) h.1

/-! ### Programs -/

/-- A line `name = item, …, item;`. -/
theorem scans_list {text : α → String} {write : α → List Lexeme} {items : List α} (name opening : String)
    (hopening : opening = name ++ " = ") (hname : IsWord name)
    (h : ∀ a ∈ items, Spells (text a) (write a)) (hscan : Scans cs ys) :
    Scans ((opening ++ commaSeparated (items.map text) ++ ";" ++ "\n").toList ++ cs)
      (.word name :: .operator "=" :: (separated (items.map write) ++ .semicolon :: ys)) := by
  simp only [hopening, String.toList_append, List.append_assoc]
  refine .word ?_ hname (endsWord_append (s := " ") (by simp))
  exact .equals (spells_commaSeparated h _ _ (endsWord_append (by simp)) hscan.newline.semicolon)

theorem scans_declarations {ds : List (Spanned Declaration)} (h : ∀ d ∈ ds, d.value.Printable)
    (hscan : Scans cs ys) :
    Scans (((ds.map (·.value.render)).map (· ++ "\n")).flatMap String.toList ++ cs)
      (ds.flatMap (·.value.lexemes) ++ ys) := by
  induction ds with
  | nil => exact hscan
  | cons d ds ih =>
    simp only [List.map_cons, List.flatMap_cons, String.toList_append, List.append_assoc]
    exact Declaration.scans (h d List.mem_cons_self)
      (.newline (ih fun d' hd' => h d' (List.mem_cons_of_mem d hd')))

theorem scans_sides {width height : Int} (hwidth : IsUnsigned width) (hheight : IsUnsigned height)
    (hscan : Scans cs ys) :
    Scans (("board_size = " ++ toString width ++ ", " ++ toString height ++ ";" ++ "\n").toList ++ cs)
      (.word "board_size" :: .operator "=" :: .integer width :: .comma :: .integer height ::
        .semicolon :: ys) := by
  have hopening : "board_size = " = "board_size" ++ " = " := rfl
  simp only [hopening, comma_space, String.toList_append, List.append_assoc]
  refine .word ?_ (isWord_of_keyword (by decide)) (endsWord_append (s := " ") (by simp))
  refine .equals (.integer (.comma (.space ?_)) hwidth (endsWord_append (by simp)))
  exact hscan.newline.semicolon.integer hheight (endsWord_append (by simp))

theorem Program.scans {p : Program} (h : p.Printable) : Scans p.render.toList (p.lexemes ++ [.ending]) := by
  have hcells := scans_list "board" "board = " rfl (isWord_of_keyword (by decide))
    (fun c hc => Cell.spells (h.board.cells c hc)) scans_nil
  rw [List.append_nil] at hcells
  have hboard := scans_sides h.board.width h.board.height hcells
  have hpieces := scans_list "pieces" "pieces = " rfl (isWord_of_keyword (by decide))
    (fun q hq => fun _ _ _ hscan => PieceDecl.scans (h.pieces q hq) hscan)
    (scans_declarations h.declarations hboard)
  have hplayers := scans_list "players" "players = " rfl (isWord_of_keyword (by decide))
    (fun n hn => spells_word (h.players n hn)) hpieces
  simp only [Program.render, Program.lexemes, BoardDecl.lexemes, String.toList_join, List.map_append,
    List.map_cons, List.map_nil, List.flatMap_append, List.flatMap_cons, List.flatMap_nil, List.cons_append,
    List.append_assoc, List.nil_append, List.append_nil]
  exact hplayers

end BoardGame
