import BoardGame.Proofs.Grammar.Nesting
import BoardGame.Proofs.Grammar.Written

/-!
# The grammar of expressions

The grammar as rules over lexemes, said without the parser (`ExprForm.Derives`). Whatever the rules
derive is read, if nothing comes behind it that the form goes on with (`ExprForm.Derives.readsBack`): a
level stops at the operators of the looser ones, a name at anything but brackets and a dot. The tree is
that of the derivation, but for calls of `not` with one argument, which are read as the operator.
-/

namespace BoardGame
open Lexeme (next word symbol operator separated bracketed)

/-! ### The rules -/

/-- The binary operators as they are written, the loosest level first. -/
def binaryOperators : List (List (Lexeme × BinaryOp)) :=
  [[(word "and", .and), (word "or", .or), (operator "&&", .and), (operator "||", .or)],
    [(operator "==", .eq), (operator "!=", .ne), (operator "<", .lt), (operator "<=", .le),
      (operator ">", .gt), (operator ">=", .ge)],
    [(operator "+", .add), (operator "-", .sub)],
    [(operator "*", .mul), (operator "/", .div), (operator "//", .floorDiv), (operator "%", .mod)]]

def unaryOperators : List (Lexeme × UnaryOp) :=
  [(operator "!", .not), (word "not", .not), (operator "-", .neg)]

/-- A binary operator with the operand to the right of it. -/
structure Operation where
  sign : Lexeme
  op : BinaryOp
  lexemes : List Lexeme
  operand : Expr

def Operation.write (o : Operation) : List Lexeme := o.sign :: o.lexemes

/-- Operations one after another, grouped to the left. -/
def Expr.operate (e : Expr) (rest : List Operation) : Expr :=
  rest.foldl (fun left o => .binary o.op left o.operand) e

/-- Lexemes with the tree they stand for. -/
abbrev Phrase := List Lexeme × Expr

/-- An index in its brackets. -/
def Phrase.writeIndex (i : Phrase) : List Lexeme := symbol "[" :: i.1 ++ [symbol "]"]

/-- A name with its arguments in brackets. -/
def writeCall (name : String) (args : List Phrase) : List Lexeme :=
  word name :: bracketed (separated (args.map Prod.fst))

inductive ExprForm where
  /-- Operands with operators of these levels between them. -/
  | level (levels : List (List (Lexeme × BinaryOp)))
  /-- An operand with operators before it. -/
  | operand
  /-- An operand with none. -/
  | core
  /-- `name(args)` -/
  | call

namespace ExprForm

abbrev expression : ExprForm := .level binaryOperators

/-- The lexemes are of the form, and the tree is what they stand for. -/
inductive Derives : ExprForm → List Lexeme → Expr → Prop
  | bare {ws : List Lexeme} {e : Expr} (h : Derives .operand ws e) : Derives (.level []) ws e
  | level {level : List (Lexeme × BinaryOp)} {levels : List (List (Lexeme × BinaryOp))} {ws : List Lexeme}
    {e : Expr} {rest : List Operation} (first : Derives (.level levels) ws e)
    (signs : ∀ o ∈ rest, (o.sign, o.op) ∈ level)
    (operands : ∀ o ∈ rest, Derives (.level levels) o.lexemes o.operand) :
    Derives (.level (level :: levels)) (ws ++ rest.flatMap Operation.write) (e.operate rest)
  | unary {x : Lexeme} {op : UnaryOp} {ws : List Lexeme} {e : Expr} (sign : (x, op) ∈ unaryOperators)
    (h : Derives .operand ws e) : Derives .operand (x :: ws) (.unary op e)
  | core {ws : List Lexeme} {e : Expr} (h : Derives .core ws e) : Derives .operand ws e
  | applied {ws : List Lexeme} {e : Expr} (h : Derives .call ws e) : Derives .core ws e
  | literal (digits : String) : Derives .core [⟨.integer, digits⟩] (.literal (decimalValue digits.toList))
  | var {name : String} (hname : name ∉ ["and", "or", "not"]) : Derives .core [word name] (.var name)
  | field {name : String} (hname : name ∉ ["and", "or", "not"]) (key : String) :
    Derives .core [word name, operator ".", word key] (.field name key)
  | index {name : String} (hname : name ∉ ["and", "or", "not"]) {indices : List Phrase} (hne : indices ≠ [])
    (h : ∀ i ∈ indices, Derives expression i.1 i.2) :
    Derives .core (word name :: indices.flatMap Phrase.writeIndex) (.index name (indices.map Prod.snd))
  | group {ws : List Lexeme} {e : Expr} (h : Derives expression ws e) : Derives .core (bracketed ws) e
  | call (name : String) {args : List Phrase} (h : ∀ a ∈ args, Derives expression a.1 a.2) :
    Derives .call (writeCall name args) (.call name (args.map Prod.snd))

theorem Derives.call_inv {ws : List Lexeme} {e : Expr} (h : Derives .call ws e) :
    ∃ name args, (∀ a ∈ args, Derives expression a.1 a.2) ∧ ws = writeCall name args ∧
      e = .call name (args.map Prod.snd) := by
  cases h with
  | call name hargs => exact ⟨name, _, hargs, rfl, rfl⟩

end ExprForm

/-! ### The operator `not` -/

namespace Expr

/-- What `name(args)` is read as where an operand stands. -/
def callOrNot (name : String) : List Expr → Expr
  | [e] => if name = "not" then .unary .not e else .call name [e]
  | es => .call name es

mutual

/-- The expression with the operator for each call of `not` with one argument. -/
def operatorNot : Expr → Expr
  | .literal value => .literal value
  | .var name => .var name
  | .field name key => .field name key
  | .index name indices => .index name (operatorNotAll indices)
  | .binary op left right => .binary op left.operatorNot right.operatorNot
  | .unary op operand => .unary op operand.operatorNot
  | .call name args => callOrNot name (operatorNotAll args)

def operatorNotAll : List Expr → List Expr
  | [] => []
  | e :: es => e.operatorNot :: operatorNotAll es

end

theorem operatorNotAll_eq_map (es : List Expr) : operatorNotAll es = es.map operatorNot := by
  induction es with
  | nil => rfl
  | cons e es ih => rw [operatorNotAll, List.map_cons, ih]

theorem callOrNot_of_ne {name : String} {es : List Expr} (h : ¬ (name = "not" ∧ es.length = 1)) :
    callOrNot name es = .call name es := by
  rcases es with _ | ⟨e, _ | ⟨f, es⟩⟩
  · rfl
  · exact if_neg fun hname => h ⟨hname, rfl⟩
  · rfl

mutual

theorem Printable.operatorNot_eq : ∀ e : Expr, e.Printable → e.operatorNot = e
  | .literal _, _ | .var _, _ | .field _ _, _ => rfl
  | .index _ es, h => by rw [operatorNot, PrintableAll.operatorNotAll_eq es h.2.2.2]
  | .binary _ l r, h => by
    rw [operatorNot, Printable.operatorNot_eq l h.1, Printable.operatorNot_eq r h.2]
  | .unary _ e, h => by rw [operatorNot, Printable.operatorNot_eq e h]
  | .call _ es, h => by rw [operatorNot, PrintableAll.operatorNotAll_eq es h.2.2, callOrNot_of_ne h.2.1]

theorem PrintableAll.operatorNotAll_eq : ∀ es : List Expr, PrintableAll es → operatorNotAll es = es
  | [], _ => rfl
  | e :: es, h => by
    rw [operatorNotAll, Printable.operatorNot_eq e h.1, PrintableAll.operatorNotAll_eq es h.2]

end

theorem operatorNot_operate (e : Expr) (rest : List Operation) : (e.operate rest).operatorNot =
    (rest.map fun o => (o.op, o.operand.operatorNot)).foldl (fun l y => .binary y.1 l y.2) e.operatorNot := by
  induction rest generalizing e with
  | nil => rfl
  | cons o rest ih => exact ih _

end Expr

namespace Parser
variable {α β : Type}

/-! ### Levels -/

/-- Neither brackets nor a dot, which would go on with a name before them. -/
def EndsName (x : Lexeme) : Prop := x ≠ .symbol "(" ∧ x ≠ .symbol "[" ∧ x ≠ .operator "."

instance (x : Lexeme) : Decidable (EndsName x) := inferInstanceAs (Decidable (_ ∧ _ ∧ _))

/-- The texts of the operators of a level. -/
def spellings (level : List (Lexeme × BinaryOp)) : List (String × BinaryOp) :=
  level.map fun y => (y.1.literal, y.2)

/-- Operands with operators of these levels between them. -/
def levelsOver (p : Parser Expr) : List (List (Lexeme × BinaryOp)) → Parser Expr
  | [] => p
  | level :: levels => leftAssoc (spellings level) (levelsOver p levels)

/-- Nothing that goes on with an expression of these levels. -/
def EndsLevels (levels : List (List (Lexeme × BinaryOp))) (x : Lexeme) : Prop :=
  EndsName x ∧ ∀ level ∈ levels, levelOp? (spellings level) x = none

instance (levels : List (List (Lexeme × BinaryOp))) (x : Lexeme) : Decidable (EndsLevels levels x) :=
  inferInstanceAs (Decidable (_ ∧ _))

/-- An operator is one of its level and ends what stands to the left of it. -/
def Unambiguous : List (List (Lexeme × BinaryOp)) → Prop
  | [] => True
  | level :: levels =>
    (∀ y ∈ level, levelOp? (spellings level) y.1 = some y.2 ∧ EndsLevels levels y.1) ∧ Unambiguous levels

theorem unambiguous_binaryOperators : Unambiguous binaryOperators :=
  ⟨by decide, by decide, by decide, by decide, trivial⟩

section
variable (p : Parser Expr) [Readable p]

instance readableLevelsOver : ∀ levels, Readable (levelsOver p levels)
  | [] => inferInstanceAs (Readable p)
  | level :: levels =>
    haveI := readableLevelsOver levels
    inferInstanceAs (Readable (leftAssoc (spellings level) (levelsOver p levels)))

theorem read_exprOver_eq_levelsOver (xs : List Lexeme) :
    read (exprOver p) xs = read (levelsOver p binaryOperators) xs := rfl

end

section
variable {p : Parser Expr} [Readable p] {level : List (Lexeme × BinaryOp)}
  {levels : List (List (Lexeme × BinaryOp))} {op : BinaryOp} {e r : Expr} {x : Lexeme} {xs ys zs : List Lexeme}

theorem kind_ne_endOfInput_of_levelOp? {level : List (String × BinaryOp)} (h : levelOp? level x = some op) :
    x.kind ≠ .endOfInput := by
  obtain ⟨hkind, -⟩ := Option.ite_none_right_eq_some.1 h
  rcases hkind with hkind | hkind <;> simp [hkind]

theorem readOperation_eq_none {level : List (String × BinaryOp)} (h : levelOp? level (next ys) = none) :
    readOperation p level ys = none := by
  have hread : readOperation p level ys = (readNext (levelOp? level) ys).bind _ := rfl
  rw [hread, readNext, h]
  rfl

theorem readOperation_cons {level : List (String × BinaryOp)} (hx : levelOp? level x = some op)
    (h : read p zs = some (r, ys)) : readOperation p level (x :: zs) = some ((op, r), ys) := by
  have hread : readOperation p level (x :: zs) = (readNext (levelOp? level) (x :: zs)).bind fun y =>
      (read p y.2).bind fun z => some ((y.1, z.1), z.2) := rfl
  rw [hread, readNext, Lexeme.next_cons, hx]
  simp only [Option.map_some, Option.bind_some, List.tail_cons, h]

/-- Operands with operators of a level between them are read one operation after another. -/
theorem read_leftAssoc_operate {ws : List Lexeme} {rest : List Operation} {n : Nat}
    (hlevel : ∀ y ∈ level, levelOp? (spellings level) y.1 = some y.2 ∧ EndsLevels levels y.1)
    (signs : ∀ o ∈ rest, (o.sign, o.op) ∈ level)
    (first : ∀ zs, (ws ++ zs).length ≤ n → EndsLevels levels (next zs) →
      read p (ws ++ zs) = some (e.operatorNot, zs))
    (operands : ∀ o ∈ rest, ∀ zs, (o.lexemes ++ zs).length ≤ n → EndsLevels levels (next zs) →
      read p (o.lexemes ++ zs) = some (o.operand.operatorNot, zs))
    (hn : (ws ++ rest.flatMap Operation.write ++ ys).length ≤ n) (hys : EndsLevels (level :: levels) (next ys)) :
    read (leftAssoc (spellings level) p) (ws ++ rest.flatMap Operation.write ++ ys) =
      some ((e.operate rest).operatorNot, ys) := by
  have hends : EndsLevels levels (next ys) := ⟨hys.1, fun l hl => hys.2 l (List.mem_cons_of_mem level hl)⟩
  have hsigns : ∀ o ∈ rest, levelOp? (spellings level) o.sign = some o.op ∧ EndsLevels levels o.sign :=
    fun o ho => hlevel _ (signs o ho)
  rw [List.append_assoc] at hn ⊢
  have hleft : read p (ws ++ (rest.flatMap Operation.write ++ ys)) =
      some (e.operatorNot, rest.flatMap Operation.write ++ ys) := by
    refine first _ hn ?_
    cases rest with
    | nil => exact hends
    | cons o rest => exact (hsigns o List.mem_cons_self).2
  have hlength : (rest.flatMap Operation.write ++ ys).length ≤ n := by
    rw [List.length_append] at hn
    exact Nat.le_of_add_left_le hn
  have hchain : Chain (readOperation p (spellings level)) (rest.flatMap Operation.write ++ ys)
      (rest.map fun o => (o.op, o.operand.operatorNot)) ys := by
    refine chain_flatMap (EndsLevels levels) hends (fun o ho _ => (hsigns o ho).2)
      (fun o ho zs hzs hlen => ?_) hlength
    exact readOperation_cons (hsigns o ho).1 (operands o ho zs (Nat.le_of_succ_le hlen) hzs)
  rw [read_leftAssoc, hleft, Option.bind_some, hchain.readMany_eq (advances_binaryOp _).bind
    (readOperation_eq_none (hys.2 level List.mem_cons_self)), Expr.operatorNot_operate]

end

/-! ### Lists -/

theorem forall_mem_bracketed {P : Lexeme → Prop} (hopen : P (.symbol "(")) (hclose : P (.symbol ")"))
    {ws : List Lexeme} (hws : ∀ x ∈ ws, P x) : ∀ x ∈ bracketed ws, P x :=
  List.forall_mem_cons.2 ⟨hopen, List.forall_mem_append.2 ⟨hws, List.forall_mem_singleton.2 hclose⟩⟩

theorem forall_mem_separated {P : Lexeme → Prop} (hcomma : P .comma) {rows : List (List Lexeme)}
    (hrows : ∀ row ∈ rows, ∀ x ∈ row, P x) : ∀ x ∈ Lexeme.separated rows, P x := by
  cases rows with
  | nil => exact nofun
  | cons row rows =>
    obtain ⟨hrow, hrows⟩ := List.forall_mem_cons.1 hrows
    refine List.forall_mem_append.2 ⟨hrow, fun x hx => ?_⟩
    obtain ⟨ws, hws, hx⟩ := List.mem_flatMap.1 hx
    exact List.forall_mem_cons.2 ⟨hcomma, hrows ws hws⟩ x hx

theorem mem_separated {x : Lexeme} {ws : List Lexeme} {rows : List (List Lexeme)} (hx : x ∈ ws)
    (hws : ws ∈ rows) : x ∈ Lexeme.separated rows := by
  cases rows with
  | nil => cases hws
  | cons row rows =>
    rcases List.mem_cons.1 hws with rfl | hws
    · exact List.mem_append_left _ hx
    · exact List.mem_append_right _ (List.mem_flatMap.2 ⟨ws, hws, List.mem_cons_of_mem _ hx⟩)

/-- Items with a comma between two are read one after another. -/
theorem read_separated_lexemes {p : Parser α} [Readable p] {write : β → List Lexeme} {f : β → α} {n : Nat}
    {items : List β} {ys : List Lexeme} (hne : items ≠ []) (hys : (next ys).kind ≠ .comma)
    (h : ∀ b ∈ items, ∀ zs, next zs = .comma ∨ next zs = next ys → (write b ++ zs).length ≤ n →
      read p (write b ++ zs) = some (f b, zs))
    (hn : (Lexeme.separated (items.map write) ++ ys).length ≤ n) :
    read (separated p) (Lexeme.separated (items.map write) ++ ys) = some (items.map f, ys) := by
  obtain ⟨b, items, rfl⟩ := List.exists_cons_of_ne_nil hne
  have hsplit : Lexeme.separated ((b :: items).map write) ++ ys =
      write b ++ (items.flatMap (fun b => .comma :: write b) ++ ys) := by
    rw [List.map_cons, Lexeme.separated, List.flatMap_map, List.append_assoc]
  rw [hsplit] at hn ⊢
  have hfirst : read p (write b ++ (items.flatMap (fun b => .comma :: write b) ++ ys)) =
      some (f b, items.flatMap (fun b => .comma :: write b) ++ ys) := by
    refine h b List.mem_cons_self _ ?_ hn
    cases items with
    | nil => exact .inr rfl
    | cons c items => exact .inl rfl
  have hlength : (items.flatMap (fun b => .comma :: write b) ++ ys).length ≤ n := by
    rw [List.length_append] at hn
    exact Nat.le_of_add_left_le hn
  have hchain : Chain (readItem p) (items.flatMap (fun b => .comma :: write b) ++ ys) (items.map f) ys := by
    refine chain_flatMap (fun x => x = .comma ∨ x = next ys) (.inr rfl) (fun _ _ _ => .inl rfl)
      (fun c hc zs hzs hlen => ?_) hlength
    exact (readItem_eq_some_iff p).2
      ⟨",", _, rfl, h c (List.mem_cons_of_mem b hc) zs hzs (Nat.le_of_succ_le hlen)⟩
  rw [read_separated, hfirst, Option.map_some, hchain.readMany_eq (advances_readItem p)
    (readItem_eq_none hys), List.map_cons]

/-! ### Operands -/

theorem read_operand_eq_core {n : Nat} {x : Lexeme} {xs : List Lexeme} (hx : unaryOp? x = none) :
    read (operand (n + 1)) (x :: xs) = read (core (exprOver (operand n))) (x :: xs) := by
  rw [read_operand_succ, read_unaryOp, readNext, Lexeme.next_cons, hx]
  rfl

section
variable {p : Parser Expr} [Readable p] {name : String} {xs ys : List Lexeme}

theorem read_callOver_eq_none (h : (next xs).kind ≠ .word) : read (callOver p) xs = none := by
  rw [read_callOver, read_word_eq_none h, Option.bind_none]

theorem read_callOver_word_eq_none (h : next xs ≠ .symbol "(") :
    read (callOver p) (.word name :: xs) = none := by
  refine Option.eq_none_iff_forall_ne_some.2 fun x hx => ?_
  obtain ⟨zs, heq, -⟩ := (read_callOver_eq_some_iff p).1 hx
  obtain ⟨-, rfl⟩ := List.cons.inj heq
  exact h rfl

theorem read_variableOver_eq_none (h : (next xs).kind ≠ .word) : read (variableOver p) xs = none := by
  rw [read_variableOver, read_word_eq_none h, Option.bind_none]

theorem read_variableOver_word (h : name ∉ operatorWords) (xs : List Lexeme) :
    read (variableOver p) (.word name :: xs) =
      match read (operator "." >>= fun _ => word) xs with
      | some (key, ys) => some (.field name key, ys)
      | none => match readMany (read (between "[" "]" p)) xs with
        | ([], ys) => some (.var name, ys)
        | (i :: is, ys) => some (.index name (i :: is), ys) := by
  rw [read_variableOver, read_word_cons]
  exact if_neg h

theorem readNext_integer?_eq_none (h : (next xs).kind ≠ .integer) : readNext integer? xs = none := by
  rw [readNext, integer?, if_neg h, Option.map_none]

/-- Before a bracket, the bracketed expression is the only alternative. -/
theorem read_core_bracket (xs : List Lexeme) :
    read (core p) (.symbol "(" :: xs) = read (between "(" ")" p) (.symbol "(" :: xs) := by
  rw [read_core, read_callOver_eq_none (by simp), readNext_integer?_eq_none (by simp),
    read_variableOver_eq_none (by simp), Option.map_none, Option.map_none, Option.none_or, Option.none_or,
    Option.none_or]

/-- A name is a call if a list of arguments follows, and a variable otherwise. -/
theorem read_core_word (name : String) (xs : List Lexeme) : read (core p) (.word name :: xs) =
    ((read (callOver p) (.word name :: xs)).map fun x => (x.1.toExpr, x.2)).or
      (read (variableOver p) (.word name :: xs)) := by
  rw [read_core, readNext_integer?_eq_none (by simp), read_between_eq_none (by simp), Option.map_none,
    Option.none_or, Option.or_none]

theorem read_operand_bracket (n : Nat) (xs : List Lexeme) : read (operand (n + 1)) (.symbol "(" :: xs) =
    read (between "(" ")" (exprOver (operand n))) (.symbol "(" :: xs) := by
  rw [read_operand_eq_core (by simp [unaryOp?]), read_core_bracket]

theorem read_operand_closing (n : Nat) (xs : List Lexeme) :
    read (operand n) (.symbol ")" :: xs) = none := by
  cases n with
  | zero => rfl
  | succ n =>
    rw [read_operand_eq_core (by simp [unaryOp?]), read_core, read_callOver_eq_none (by simp),
      readNext_integer?_eq_none (by simp), read_variableOver_eq_none (by simp),
      read_between_eq_none (by simp)]
    rfl

theorem read_exprOver_closing (n : Nat) (xs : List Lexeme) :
    read (exprOver (operand n)) (.symbol ")" :: xs) = none := by
  simp only [read_exprOver, read_leftAssoc, read_operand_closing, Option.bind_none]

theorem unaryOp?_word (h : name ∉ operatorWords) : unaryOp? (.word name) = none := by
  have hne : name ≠ "not" := fun heq => h (by rw [heq]; decide)
  simp [unaryOp?, hne]

theorem unaryOp?_of_mem : ∀ y ∈ unaryOperators, unaryOp? y.1 = some y.2 := by decide

end

/-! ### What is derived is read -/

/-- As an operand that may nest deep enough, the expression is read from these lexemes. -/
def ReadsOperand (ws : List Lexeme) (e : Expr) : Prop := ∀ n ys, (ws ++ ys).length < n → EndsName (next ys) →
  read (operand n) (ws ++ ys) = some (e.operatorNot, ys)

/-- As an expression with operators of these levels it is. -/
def ReadsLevels (levels : List (List (Lexeme × BinaryOp))) (ws : List Lexeme) (e : Expr) : Prop :=
  ∀ n ys, (ws ++ ys).length < n → EndsLevels levels (next ys) →
    read (levelsOver (operand n) levels) (ws ++ ys) = some (e.operatorNot, ys)

/-- What can follow an expression. -/
def closers : List Lexeme := [.comma, .symbol ")", .symbol "]", .semicolon, .ending]

theorem endsLevels_of_closer : ∀ x ∈ closers, EndsLevels binaryOperators x := by decide

section
variable {ws : List Lexeme} {e : Expr} {n : Nat} {ys : List Lexeme}

theorem ReadsLevels.exprOver (h : ReadsLevels binaryOperators ws e) (hn : (ws ++ ys).length < n)
    (hys : next ys ∈ closers) : read (exprOver (operand n)) (ws ++ ys) = some (e.operatorNot, ys) := by
  rw [read_exprOver_eq_levelsOver]
  exact h n ys hn (endsLevels_of_closer _ hys)

theorem ReadsLevels.expr (h : ReadsLevels binaryOperators ws e) (hys : next ys ∈ closers) :
    read expr (ws ++ ys) = some (e.operatorNot, ys) := by
  rw [read_expr (Nat.lt_succ_self _)]
  exact h.exprOver (Nat.lt_succ_self _) hys

theorem ReadsOperand.levels (h : ReadsOperand ws e) : ReadsLevels [] ws e :=
  fun n ys hn hys => h n ys hn hys.1

theorem ReadsLevels.operate {level : List (Lexeme × BinaryOp)} {levels : List (List (Lexeme × BinaryOp))}
    {rest : List Operation} (hlevels : Unambiguous (level :: levels)) (first : ReadsLevels levels ws e)
    (signs : ∀ o ∈ rest, (o.sign, o.op) ∈ level)
    (operands : ∀ o ∈ rest, ReadsLevels levels o.lexemes o.operand) :
    ReadsLevels (level :: levels) (ws ++ rest.flatMap Operation.write) (e.operate rest) := by
  intro n ys hn hys
  obtain ⟨n, rfl⟩ : ∃ k, n = k + 1 := ⟨n - 1, by omega⟩
  exact read_leftAssoc_operate hlevels.1 signs (fun zs hzs => first (n + 1) zs (Nat.lt_succ_of_le hzs))
    (fun o ho zs hzs => operands o ho (n + 1) zs (Nat.lt_succ_of_le hzs)) (Nat.le_of_lt_succ hn) hys

theorem readsOperand_literal {digits : String} {m : Int} (h : integer? ⟨.integer, digits⟩ = some m) :
    ReadsOperand [⟨.integer, digits⟩] (.literal m) := by
  intro n ys hn _
  obtain ⟨n, rfl⟩ : ∃ k, n = k + 1 := ⟨n - 1, by omega⟩
  have hread : readNext integer? (⟨.integer, digits⟩ :: ys) = some (m, ys) := by
    rw [readNext, Lexeme.next_cons, h]
    rfl
  rw [List.singleton_append, read_operand_eq_core (by simp [unaryOp?]), read_core,
    read_callOver_eq_none (by simp), hread]
  rfl

theorem readsOperand_bracketed (h : ReadsLevels binaryOperators ws e) : ReadsOperand (bracketed ws) e := by
  intro n ys hn _
  obtain ⟨n, rfl⟩ : ∃ k, n = k + 1 := ⟨n - 1, by omega⟩
  have hxs : bracketed ws ++ ys = .symbol "(" :: (ws ++ .symbol ")" :: ys) := by simp [bracketed]
  rw [hxs] at hn ⊢
  rw [read_operand_bracket, read_between_eq_some_iff]
  exact ⟨_, rfl, h.exprOver (Nat.lt_of_succ_lt_succ hn) (by simp [closers])⟩

theorem readsOperand_unary {x : Lexeme} {op : UnaryOp} (hx : unaryOp? x = some op) (h : ReadsOperand ws e) :
    ReadsOperand (x :: ws) (.unary op e) := by
  intro n ys hn hys
  obtain ⟨n, rfl⟩ : ∃ k, n = k + 1 := ⟨n - 1, by omega⟩
  have hop : read unaryOp (x :: (ws ++ ys)) = some (op, ws ++ ys) :=
    read_unaryOp_eq_some_iff.2 ⟨x, rfl, hx⟩
  rw [List.cons_append, read_operand_succ, hop, Option.bind_some, h n ys (Nat.lt_of_succ_lt_succ hn) hys]
  rfl

/-! ### Names -/

theorem readsOperand_field {name key : String} (hname : name ∉ operatorWords) :
    ReadsOperand [.word name, .operator ".", .word key] (.field name key) := by
  intro n ys hn _
  obtain ⟨n, rfl⟩ : ∃ k, n = k + 1 := ⟨n - 1, by omega⟩
  have hxs : [.word name, .operator ".", .word key] ++ ys = .word name :: .operator "." :: .word key :: ys := rfl
  have hkey : read (operator "." >>= fun _ => word) (.operator "." :: .word key :: ys) = some (key, ys) := by
    rw [read_bind, read_operator_eq_some_iff (u := ()).2 rfl]
    exact read_word_eq_some_iff.2 rfl
  rw [hxs, read_operand_eq_core (unaryOp?_word hname), read_core_word,
    read_callOver_word_eq_none (by simp), read_variableOver_word hname, hkey]
  rfl

theorem forall_mem_writeIndex {P : Lexeme → Prop} (hopen : P (.symbol "[")) (hclose : P (.symbol "]"))
    {i : Phrase} (hi : ∀ x ∈ i.1, P x) : ∀ x ∈ i.writeIndex, P x :=
  List.forall_mem_cons.2 ⟨hopen, List.forall_mem_append.2 ⟨hi, List.forall_mem_singleton.2 hclose⟩⟩

theorem readMany_indices {p : Parser Expr} [Readable p] {is : List Phrase}
    (h : ∀ i ∈ is, ∀ zs, (i.1 ++ .symbol "]" :: zs).length < (is.flatMap Phrase.writeIndex ++ ys).length →
      read p (i.1 ++ .symbol "]" :: zs) = some (i.2.operatorNot, .symbol "]" :: zs))
    (hys : next ys ≠ .symbol "[") :
    readMany (read (between "[" "]" p)) (is.flatMap Phrase.writeIndex ++ ys) =
      (is.map fun i => i.2.operatorNot, ys) := by
  have hchain : Chain (read (between "[" "]" p)) (is.flatMap Phrase.writeIndex ++ ys)
      (is.map fun i => i.2.operatorNot) ys := by
    refine chain_flatMap (fun _ => True) trivial (fun _ _ _ => trivial) (fun i hi zs _ hlen => ?_)
      (Nat.le_refl _)
    have hxs : Phrase.writeIndex i ++ zs = .symbol "[" :: (i.1 ++ .symbol "]" :: zs) := by
      simp [Phrase.writeIndex]
    rw [hxs] at hlen ⊢
    exact (read_between_eq_some_iff p).2 ⟨_, rfl, h i hi zs hlen⟩
  exact hchain.readMany_eq (advances_between p) (read_between_eq_none hys)

/-- A name with its indices, perhaps none. -/
theorem read_operand_name {name : String} (is : List Phrase) (hname : name ∉ operatorWords)
    (his : ∀ i ∈ is, ReadsLevels binaryOperators i.1 i.2)
    (hn : (is.flatMap Phrase.writeIndex ++ ys).length < n) (hys : EndsName (next ys)) :
    read (operand (n + 1)) (.word name :: (is.flatMap Phrase.writeIndex ++ ys)) =
      some (match is.map fun i => i.2.operatorNot with
        | [] => .var name
        | i :: is => .index name (i :: is), ys) := by
  have hnext : next (is.flatMap Phrase.writeIndex ++ ys) ≠ .symbol "(" ∧
      next (is.flatMap Phrase.writeIndex ++ ys) ≠ .operator "." := by
    cases is with
    | nil => exact ⟨hys.1, hys.2.2⟩
    | cons i is => simp [Phrase.writeIndex]
  have hdot : read (operator "." >>= fun _ => word) (is.flatMap Phrase.writeIndex ++ ys) = none := by
    refine Option.eq_none_iff_forall_ne_some.2 fun x hx => ?_
    rw [read_bind] at hx
    obtain ⟨y, hy, -⟩ := Option.bind_eq_some_iff.1 hx
    exact hnext.2 (by rw [read_operator_eq_some_iff.1 hy]; rfl)
  have hmany : readMany (read (between "[" "]" (exprOver (operand n)))) (is.flatMap Phrase.writeIndex ++ ys) =
      (is.map fun i => i.2.operatorNot, ys) :=
    readMany_indices (fun i hi zs hzs => (his i hi).exprOver (Nat.lt_trans hzs hn) (by simp [closers]))
      hys.2.1
  rw [read_operand_eq_core (unaryOp?_word hname), read_core_word, read_callOver_word_eq_none hnext.1,
    read_variableOver_word hname, hdot, hmany]
  cases is <;> rfl

theorem readsOperand_var {name : String} (hname : name ∉ operatorWords) :
    ReadsOperand [.word name] (.var name) := by
  intro n ys hn hys
  obtain ⟨n, rfl⟩ : ∃ k, n = k + 1 := ⟨n - 1, by omega⟩
  exact read_operand_name [] hname nofun (Nat.lt_of_succ_lt_succ hn) hys

theorem readsOperand_index {name : String} {is : List Phrase} (hname : name ∉ operatorWords) (hne : is ≠ [])
    (his : ∀ i ∈ is, ReadsLevels binaryOperators i.1 i.2) :
    ReadsOperand (.word name :: is.flatMap Phrase.writeIndex) (.index name (is.map Prod.snd)) := by
  intro n ys hn hys
  obtain ⟨n, rfl⟩ : ∃ k, n = k + 1 := ⟨n - 1, by omega⟩
  obtain ⟨i, is, rfl⟩ := List.exists_cons_of_ne_nil hne
  have hread := read_operand_name (i :: is) hname his (Nat.lt_of_succ_lt_succ hn) hys
  rw [List.cons_append, hread, Expr.operatorNot, Expr.operatorNotAll_eq_map, List.map_map]
  rfl

/-! ### Calls -/

section
variable {name : String} {args : List Phrase}

/-- The arguments of a call and the bracket behind them. -/
theorem read_arguments (hargs : ∀ a ∈ args, ReadsLevels binaryOperators a.1 a.2)
    (hn : (Lexeme.separated (args.map Prod.fst) ++ .symbol ")" :: ys).length < n) :
    read (separatedOrNone (exprOver (operand n))) (Lexeme.separated (args.map Prod.fst) ++ .symbol ")" :: ys) =
      some (args.map fun a => a.2.operatorNot, .symbol ")" :: ys) := by
  cases args with
  | nil =>
    have hxs : Lexeme.separated (([] : List Phrase).map Prod.fst) ++ .symbol ")" :: ys = .symbol ")" :: ys := rfl
    rw [hxs, read_separatedOrNone, read_separated, read_exprOver_closing]
    rfl
  | cons a args =>
    have hread : read (separated (exprOver (operand n)))
        (Lexeme.separated ((a :: args).map Prod.fst) ++ .symbol ")" :: ys) =
          some ((a :: args).map fun a => a.2.operatorNot, .symbol ")" :: ys) := by
      refine read_separated_lexemes (n := n - 1) (List.cons_ne_nil a args) (by simp)
        (fun b hb zs hzs hlen => (hargs b hb).exprOver (by omega) ?_) (by omega)
      rcases hzs with hzs | hzs <;> simp [hzs, closers]
    rw [read_separatedOrNone, hread]
    rfl

theorem writeCall_append (name : String) (args : List Phrase) (ys : List Lexeme) : writeCall name args ++ ys =
    .word name :: .symbol "(" :: (Lexeme.separated (args.map Prod.fst) ++ .symbol ")" :: ys) := by
  simp [writeCall, bracketed]

theorem read_callOver_lexemes (hargs : ∀ a ∈ args, ReadsLevels binaryOperators a.1 a.2)
    (hn : (writeCall name args ++ ys).length < n + 2) :
    read (callOver (exprOver (operand n))) (writeCall name args ++ ys) =
      some (⟨name, args.map fun a => a.2.operatorNot⟩, ys) := by
  rw [writeCall_append] at hn ⊢
  exact (read_callOver_eq_some_iff _).2 ⟨_, rfl, read_arguments hargs (by simpa using hn)⟩

/-- Behind the arguments of a call of `not` there is no operand: an empty list is none, and a longer
one has a comma where the bracket should close. -/
theorem read_operand_arguments_eq_none (hargs : ∀ a ∈ args, ReadsLevels binaryOperators a.1 a.2)
    (hlength : args.length ≠ 1) (hn : (bracketed (Lexeme.separated (args.map Prod.fst)) ++ ys).length < n) :
    read (operand n) (bracketed (Lexeme.separated (args.map Prod.fst)) ++ ys) = none := by
  obtain ⟨n, rfl⟩ : ∃ k, n = k + 1 := ⟨n - 1, by omega⟩
  have hxs : bracketed (Lexeme.separated (args.map Prod.fst)) ++ ys =
      .symbol "(" :: (Lexeme.separated (args.map Prod.fst) ++ .symbol ")" :: ys) := by simp [bracketed]
  rw [hxs] at hn ⊢
  rw [read_operand_bracket]
  refine Option.eq_none_iff_forall_ne_some.2 fun x hx => ?_
  obtain ⟨zs, heq, hread⟩ := (read_between_eq_some_iff _).1 hx
  obtain ⟨-, rfl⟩ := List.cons.inj heq
  rcases args with _ | ⟨a, _ | ⟨b, args⟩⟩
  · have hnone := read_exprOver_closing n ys
    exact absurd (hread.symm.trans hnone) nofun
  · exact hlength rfl
  · have hsplit : Lexeme.separated ((a :: b :: args).map Prod.fst) ++ .symbol ")" :: ys =
        a.1 ++ .comma :: (Lexeme.separated ((b :: args).map Prod.fst) ++ .symbol ")" :: ys) := by
      simp [Lexeme.separated]
    rw [hsplit] at hn hread
    rw [(hargs a List.mem_cons_self).exprOver (Nat.lt_of_succ_lt_succ hn) (by simp [closers])] at hread
    simp at hread

/-- Behind `not` one argument in its brackets is read as an operand, before a call is tried. -/
theorem readsOperand_call (hargs : ∀ a ∈ args, ReadsLevels binaryOperators a.1 a.2) :
    ReadsOperand (writeCall name args) (.call name (args.map Prod.snd)) := by
  intro n ys hn hys
  obtain ⟨n, rfl⟩ : ∃ k, n = k + 1 := ⟨n - 1, by omega⟩
  have hcore : read (core (exprOver (operand n))) (writeCall name args ++ ys) =
      some (.call name (args.map fun a => a.2.operatorNot), ys) := by
    rw [read_core, read_callOver_lexemes hargs (Nat.lt_succ_of_lt hn)]
    rfl
  have hmap : Expr.operatorNotAll (args.map Prod.snd) = args.map fun a => a.2.operatorNot := by
    rw [Expr.operatorNotAll_eq_map, List.map_map]
    rfl
  have hlength : (bracketed (Lexeme.separated (args.map Prod.fst)) ++ ys).length < n :=
    Nat.lt_of_succ_lt_succ hn
  rw [read_operand_succ, hcore, Expr.operatorNot, hmap, writeCall, List.cons_append, read_unaryOp, readNext,
    Lexeme.next_cons, List.tail_cons]
  by_cases hone : name = "not" ∧ args.length = 1
  · obtain ⟨rfl, hone⟩ := hone
    obtain ⟨a, rfl⟩ := List.length_eq_one_iff.1 hone
    have hsingle : Lexeme.separated ([a].map Prod.fst) = a.1 := List.append_nil _
    rw [hsingle] at hlength ⊢
    have hread := readsOperand_bracketed (hargs a List.mem_cons_self) n ys hlength hys
    simp [unaryOp?, hread, Expr.callOrNot]
  · rw [Expr.callOrNot_of_ne (by simpa using hone)]
    by_cases hnot : name = "not"
    · have hnone := read_operand_arguments_eq_none hargs (fun h => hone ⟨hnot, h⟩) hlength
      simp [unaryOp?, hnot, hnone]
    · simp [unaryOp?, hnot]

end

/-! ### All forms -/

end
end Parser

/-- An integer that is read as the value of its digits. -/
def Lexeme.InRange (x : Lexeme) : Prop :=
  x.kind = .integer → Parser.integer? x = some (decimalValue x.literal.toList : Int)

namespace ExprForm
open BoardGame.Parser (Unambiguous ReadsLevels ReadsOperand)

/-- The expression is read from these lexemes where the form is expected. -/
def ReadsBack : ExprForm → List Lexeme → Expr → Prop
  | .level levels, ws, e => Unambiguous levels → ReadsLevels levels ws e
  | .operand, ws, e | .core, ws, e => ReadsOperand ws e
  | .call, ws, e => ∃ name args, (∀ a ∈ args, ReadsLevels binaryOperators a.1 a.2) ∧
      ws = writeCall name args ∧ e = .call name (args.map Prod.snd)

theorem Derives.readsBack {form : ExprForm} {ws : List Lexeme} {e : Expr} (h : Derives form ws e)
    (hws : ∀ x ∈ ws, x.InRange) : form.ReadsBack ws e := by
  induction h with
  | bare _ ih => exact fun _ => (ih hws).levels
  | level _ signs _ ihfirst ihoperands =>
    intro hlevels
    refine .operate hlevels (ihfirst (fun x hx => hws x (List.mem_append_left _ hx)) hlevels.2) signs
      fun o ho => ihoperands o ho (fun x hx => hws x ?_) hlevels.2
    exact List.mem_append_right _ (List.mem_flatMap.2 ⟨o, ho, List.mem_cons_of_mem _ hx⟩)
  | unary sign _ ih =>
    exact Parser.readsOperand_unary (Parser.unaryOp?_of_mem _ sign) (ih (List.forall_mem_cons.1 hws).2)
  | core _ ih => exact ih hws
  | applied _ ih =>
    obtain ⟨name, args, hargs, rfl, rfl⟩ := ih hws
    exact Parser.readsOperand_call hargs
  | literal digits => exact Parser.readsOperand_literal (hws _ List.mem_cons_self rfl)
  | var hname => exact Parser.readsOperand_var hname
  | field hname key => exact Parser.readsOperand_field hname
  | index hname hne _ ih =>
    refine Parser.readsOperand_index hname hne fun i hi =>
      ih i hi (fun x hx => hws x ?_) Parser.unambiguous_binaryOperators
    refine List.mem_cons_of_mem _ (List.mem_flatMap.2 ⟨i, hi, ?_⟩)
    exact List.mem_cons_of_mem _ (List.mem_append_left _ hx)
  | group _ ih =>
    refine Parser.readsOperand_bracketed (ih (fun x hx => hws x ?_) Parser.unambiguous_binaryOperators)
    exact List.mem_cons_of_mem _ (List.mem_append_left _ hx)
  | call name _ ih =>
    refine ⟨name, _, fun a ha => ih a ha (fun x hx => hws x ?_) Parser.unambiguous_binaryOperators, rfl, rfl⟩
    refine List.mem_cons_of_mem _ (List.mem_cons_of_mem _ (List.mem_append_left _ ?_))
    exact Parser.mem_separated hx (List.mem_map_of_mem ha)

/-- The levels of the form are levels of operators. -/
def Proper : ExprForm → Prop
  | .level levels => Unambiguous levels
  | _ => True

theorem Derives.kind_ne_endOfInput {form : ExprForm} {ws : List Lexeme} {e : Expr} (h : Derives form ws e)
    (hform : form.Proper) : ∀ x ∈ ws, x.kind ≠ .endOfInput := by
  induction h with
  | bare _ ih | core _ ih | applied _ ih => exact ih trivial
  | level _ signs _ ihfirst ihoperands =>
    refine List.forall_mem_append.2 ⟨ihfirst hform.2, fun x hx => ?_⟩
    obtain ⟨o, ho, hx⟩ := List.mem_flatMap.1 hx
    rcases List.mem_cons.1 hx with rfl | hx
    · exact Parser.kind_ne_endOfInput_of_levelOp? (hform.1 _ (signs o ho)).1
    · exact ihoperands o ho hform.2 x hx
  | unary sign _ ih =>
    have hsigns : ∀ y ∈ unaryOperators, y.1.kind ≠ .endOfInput := by decide
    exact List.forall_mem_cons.2 ⟨hsigns _ sign, ih trivial⟩
  | literal digits => simp
  | var _ => simp
  | field _ _ => simp
  | index _ _ _ ih =>
    refine List.forall_mem_cons.2 ⟨nofun, fun x hx => ?_⟩
    obtain ⟨i, hi, hx⟩ := List.mem_flatMap.1 hx
    exact Parser.forall_mem_writeIndex nofun nofun (ih i hi Parser.unambiguous_binaryOperators) x hx
  | group _ ih =>
    exact Parser.forall_mem_bracketed nofun nofun (ih Parser.unambiguous_binaryOperators)
  | call name _ ih =>
    refine List.forall_mem_cons.2 ⟨nofun, Parser.forall_mem_bracketed nofun nofun
      (Parser.forall_mem_separated nofun ?_)⟩
    exact List.forall_mem_map.2 fun a ha => ih a ha Parser.unambiguous_binaryOperators

end ExprForm
end BoardGame
