import BoardGame.Proofs.Grammar.Nesting

/-!
# Balanced brackets

What an expression or a movement reads has its round brackets in pairs, and a comma in it stands between
brackets. So the place where the brackets around it close, or where the next comma stands, is the same
seen from before it and from after it (`Keeps`). This tells the group `(m)` from the letter `(x, y, c)`,
and the operand of `not` from the arguments of a call of that name.
-/

namespace BoardGame.Parser
open Lexeme (next)
variable {α β : Type} {l : Nat}

/-- What is left from the comma or the closing bracket on that stands at level 0, from level `d`. -/
def skip : Nat → List Lexeme → List Lexeme
  | _, [] => []
  | 0, x :: xs =>
    if x = ⟨.symbol, "("⟩ then skip 1 xs
    else if x = ⟨.symbol, ")"⟩ ∨ x.kind = .comma then x :: xs
    else skip 0 xs
  | d + 1, x :: xs =>
    if x = ⟨.symbol, "("⟩ then skip (d + 2) xs
    else if x = ⟨.symbol, ")"⟩ then skip d xs
    else skip (d + 1) xs

/-- Neither a round bracket nor a comma. -/
def Plain (x : Lexeme) : Prop := x ≠ ⟨.symbol, "("⟩ ∧ x ≠ ⟨.symbol, ")"⟩ ∧ x.kind ≠ .comma

section
variable (d : Nat) (xs : List Lexeme)

theorem skip_opening : skip d (⟨.symbol, "("⟩ :: xs) = skip (d + 1) xs := by
  cases d <;> simp [skip]

theorem skip_closing_zero : skip 0 (⟨.symbol, ")"⟩ :: xs) = ⟨.symbol, ")"⟩ :: xs := by
  simp [skip]

theorem skip_closing_succ : skip (d + 1) (⟨.symbol, ")"⟩ :: xs) = skip d xs := by
  simp [skip]

theorem skip_comma_zero (literal : String) :
    skip 0 (⟨.comma, literal⟩ :: xs) = ⟨.comma, literal⟩ :: xs := by
  simp [skip]

theorem skip_comma_succ (literal : String) :
    skip (d + 1) (⟨.comma, literal⟩ :: xs) = skip (d + 1) xs := by
  simp [skip]

theorem skip_plain {x : Lexeme} (h : Plain x) : skip d (x :: xs) = skip d xs := by
  cases d <;> simp [skip, h.1, h.2.1, h.2.2]

theorem plain_of_kind {x : Lexeme} (hsymbol : x.kind ≠ .symbol) (hcomma : x.kind ≠ .comma) :
    Plain x := by
  refine ⟨?_, ?_, hcomma⟩ <;>
  · rintro rfl
    exact hsymbol rfl

theorem skip_word (literal : String) : skip d (⟨.word, literal⟩ :: xs) = skip d xs :=
  skip_plain d xs (plain_of_kind nofun nofun)

theorem skip_operator (literal : String) : skip d (⟨.operator, literal⟩ :: xs) = skip d xs :=
  skip_plain d xs (plain_of_kind nofun nofun)

end

/-- From level `l` on, the reading starts and ends on the same side of what closes the level. -/
def Keeps (l : Nat) (r : Reading α) : Prop :=
  ∀ xs a ys, r xs = some (a, ys) → ∀ d, skip (d + l) xs = skip (d + l) ys

theorem Keeps.mono {r : Reading α} (h : Keeps 0 r) : Keeps l r :=
  fun xs a ys hr d => h xs a ys hr (d + l)

theorem Keeps.chain {r : Reading α} (h : Keeps l r) {xs ys : List Lexeme} {as : List α}
    (hchain : Chain r xs as ys) (d : Nat) : skip (d + l) xs = skip (d + l) ys := by
  induction hchain with
  | nil => rfl
  | cons head _ ih => exact (h _ _ _ head d).trans ih

theorem Keeps.readMany {r : Reading α} (h : Keeps l r) (xs : List Lexeme) (d : Nat) :
    skip (d + l) xs = skip (d + l) (readMany r xs).2 := h.chain (chain_readMany r xs) d

theorem keeps_of_cons {r : Reading α} (h : ∀ xs a ys, r xs = some (a, ys) → ∃ x, xs = x :: ys ∧ Plain x) :
    Keeps l r := by
  intro xs a ys hr d
  obtain ⟨x, rfl, hx⟩ := h xs a ys hr
  exact skip_plain _ _ hx

theorem keeps_word : Keeps l (read word) := keeps_of_cons fun _ a _ h =>
  ⟨⟨.word, a⟩, read_word_eq_some_iff.1 h, plain_of_kind nofun nofun⟩

theorem keeps_operator (literal : String) : Keeps l (read (operator literal)) := keeps_of_cons
  fun _ _ _ h => ⟨_, read_operator_eq_some_iff.1 h, plain_of_kind nofun nofun⟩

section
variable {p : Parser α} [Readable p]

theorem Keeps.bind {k : α → Parser β} [∀ a, Readable (k a)] (hp : Keeps l (read p))
    (hk : ∀ a, Keeps l (read (k a))) : Keeps l (read (p >>= k)) := by
  intro xs b zs h d
  rw [read_bind] at h
  obtain ⟨⟨a, ys⟩, ha, hb⟩ := Option.bind_eq_some_iff.1 h
  exact (hp xs a ys ha d).trans (hk a ys b zs hb d)

theorem keeps_pure (a : α) : Keeps l (read (pure a)) := by
  intro xs b ys h d
  cases h
  rfl

/-- Between round brackets, what keeps level 1 keeps the level around them. -/
theorem Keeps.brackets (h : Keeps (l + 1) (read p)) : Keeps l (read (between "(" ")" p)) := by
  intro xs a ys hread d
  obtain ⟨zs, rfl, hp⟩ := (read_between_eq_some_iff p).1 hread
  have hskip := h zs a _ hp d
  rw [← Nat.add_assoc, skip_closing_succ] at hskip
  rw [skip_opening, hskip]

theorem Keeps.between {left right : String} (hleft : Plain ⟨.symbol, left⟩)
    (hright : Plain ⟨.symbol, right⟩) (h : Keeps l (read p)) : Keeps l (read (between left right p)) := by
  intro xs a ys hread d
  obtain ⟨zs, rfl, hp⟩ := (read_between_eq_some_iff p).1 hread
  rw [skip_plain _ _ hleft, h zs a _ hp d, skip_plain _ _ hright]

theorem Keeps.optional (h : Keeps l (read p)) : Keeps l (read (optional p)) := by
  intro xs a ys hread d
  rw [read_optional] at hread
  cases hp : read p xs with
  | none =>
    simp only [hp] at hread
    cases hread
    rfl
  | some x =>
    simp only [hp] at hread
    cases hread
    exact h xs x.1 x.2 hp d

theorem Keeps.separatedOrNone (h : Keeps (l + 1) (read p)) : Keeps (l + 1) (read (separatedOrNone p)) := by
  have hitem : Keeps (l + 1) (readItem p) := by
    intro xs a ys hread d
    obtain ⟨literal, zs, rfl, hp⟩ := (readItem_eq_some_iff p).1 hread
    rw [← Nat.add_assoc, skip_comma_succ, Nat.add_assoc, h zs a ys hp d]
  intro xs as ys hread d
  rw [read_separatedOrNone, read_separated] at hread
  cases hp : read p xs with
  | none =>
    rw [hp] at hread
    cases hread
    rfl
  | some x =>
    rw [hp] at hread
    cases hread
    exact (h xs x.1 x.2 hp d).trans (hitem.readMany x.2 d)

end

/-! ### Expressions -/

section
variable {p : Parser Expr} [Readable p]

theorem Keeps.leftAssoc (level : List (String × BinaryOp)) (h : Keeps 0 (read p)) :
    Keeps 0 (read (leftAssoc level p)) := by
  have hop : Keeps 0 (read (binaryOp level)) := by
    refine keeps_of_cons fun xs op ys hread => ?_
    obtain ⟨x, hxs, hx⟩ := (readNext_eq_some_iff (show levelOp? level .ending = none from rfl)).1 hread
    obtain ⟨hkind, -⟩ := Option.ite_none_right_eq_some.1 hx
    refine ⟨x, hxs, ?_⟩
    rcases hkind with hkind | hkind <;> exact plain_of_kind (by simp [hkind]) (by simp [hkind])
  have hoperation : Keeps 0 (readOperation p level) := hop.bind fun op => h.bind fun e => keeps_pure _
  intro xs e ys hread d
  rw [read_leftAssoc] at hread
  obtain ⟨x, hx, hrest⟩ := Option.bind_eq_some_iff.1 hread
  cases hrest
  exact (h xs x.1 x.2 hx d).trans (hoperation.readMany x.2 d)

theorem Keeps.exprOver (h : Keeps 0 (read p)) : Keeps 0 (read (exprOver p)) := by
  have hlevels := (((h.leftAssoc productOperators).leftAssoc sumOperators).leftAssoc
    comparisonOperators).leftAssoc logicOperators
  intro xs e ys hread
  rw [read_exprOver] at hread
  exact hlevels xs e ys hread

theorem Keeps.callOver (h : Keeps 0 (read p)) : Keeps l (read (callOver p)) := by
  have hargs : Keeps (l + 1) (read (Parser.separatedOrNone p)) := h.mono.separatedOrNone
  intro xs c ys hread d
  obtain ⟨zs, rfl, hzs⟩ := (read_callOver_eq_some_iff p).1 hread
  have hskip := hargs zs c.args _ hzs d
  rw [← Nat.add_assoc, skip_closing_succ] at hskip
  rw [skip_word, skip_opening, hskip]

theorem Keeps.variableOver (h : Keeps 0 (read p)) : Keeps l (read (variableOver p)) := by
  have hindex : Keeps l (read (Parser.between "[" "]" p)) := h.mono.between (by simp [Plain]) (by simp [Plain])
  intro xs e ys hread d
  obtain ⟨name, zs, rfl, -, hzs⟩ := read_variableOver_eq_some p hread
  rw [skip_word]
  rcases hzs with ⟨key, rfl, -⟩ | ⟨is, hmany, -⟩
  · rw [skip_operator, skip_word]
  · rw [hindex.readMany zs d, hmany]

theorem keeps_integer : Keeps l (readNext integer?) := by
  refine keeps_of_cons fun xs n ys hread => ?_
  obtain ⟨x, hxs, hx⟩ := (readNext_eq_some_iff (show integer? .ending = none from rfl)).1 hread
  obtain ⟨hkind, -⟩ := Option.ite_none_right_eq_some.1 hx
  exact ⟨x, hxs, plain_of_kind (by simp [hkind]) (by simp [hkind])⟩

theorem keeps_unaryOp : Keeps l (read unaryOp) := by
  refine keeps_of_cons fun xs op ys hread => ?_
  obtain ⟨x, hxs, hx⟩ := read_unaryOp_eq_some_iff.1 hread
  refine ⟨x, hxs, ?_⟩
  unfold unaryOp? at hx
  by_cases hnot : x = ⟨.operator, "!"⟩ ∨ x = ⟨.word, "not"⟩
  · rcases hnot with rfl | rfl <;> exact plain_of_kind nofun nofun
  · rw [if_neg hnot] at hx
    obtain ⟨rfl, -⟩ := Option.ite_none_right_eq_some.1 hx
    exact plain_of_kind nofun nofun

theorem Keeps.core (h : Keeps 0 (read p)) : Keeps 0 (read (core p)) := by
  intro xs e ys hread d
  rw [read_core, Option.or_eq_some_iff, Option.or_eq_some_iff, Option.or_eq_some_iff] at hread
  rcases hread with hcall | ⟨-, hinteger | ⟨-, hvariable | ⟨-, hgroup⟩⟩⟩
  · obtain ⟨x, hx, heq⟩ := Option.map_eq_some_iff.1 hcall
    cases heq
    exact h.callOver xs x.1 x.2 hx d
  · obtain ⟨x, hx, heq⟩ := Option.map_eq_some_iff.1 hinteger
    cases heq
    exact keeps_integer xs x.1 x.2 hx d
  · exact h.variableOver xs e ys hvariable d
  · exact h.mono.brackets xs e ys hgroup d

theorem keeps_operand (n : Nat) : Keeps 0 (read (operand n)) := by
  induction n with
  | zero => exact nofun
  | succ n ih =>
    intro xs e ys hread d
    rw [read_operand_succ, Option.or_eq_some_iff] at hread
    rcases hread with hread | ⟨-, hread⟩
    · obtain ⟨x, hop, hread⟩ := Option.bind_eq_some_iff.1 hread
      obtain ⟨y, hy, hread⟩ := Option.bind_eq_some_iff.1 hread
      cases hread
      exact (keeps_unaryOp xs x.1 x.2 hop d).trans (ih x.2 y.1 y.2 hy d)
    · exact ih.exprOver.core xs e ys hread d

theorem keeps_expr : Keeps l (read expr) := by
  intro xs e ys hread d
  rw [read_expr (Nat.lt_succ_self xs.length)] at hread
  exact (keeps_operand _).exprOver.mono xs e ys hread d

end

/-! ### Movements -/

theorem keeps_call : Keeps l (read call) := by
  intro xs c ys hread d
  rw [read_call] at hread
  exact keeps_expr.callOver xs c ys hread d

theorem keeps_condition : Keeps l (read condition) := by
  intro xs c ys hread d
  rw [read_condition, Option.or_eq_some_iff] at hread
  rcases hread with hread | ⟨-, hread⟩
  · obtain ⟨x, hx, heq⟩ := Option.bind_eq_some_iff.1 hread
    cases heq
    exact keeps_call xs x.1 x.2 hx d
  · obtain ⟨x, hx, heq⟩ := Option.bind_eq_some_iff.1 hread
    cases heq
    exact keeps_word xs x.1 x.2 hx d

theorem keeps_letter : Keeps 0 (read letter) := by
  intro xs m ys hread d
  obtain ⟨c, c', xs₁, xs₂, xs₃, xs₄, rfl, hdx, hdy, hcond, heffect⟩ := read_letter_eq_some_iff.1 hread
  have hcall : Keeps 0 (read (between "\x7b" "\x7d" call)) :=
    keeps_call.between (by simp [Plain]) (by simp [Plain])
  calc skip d (⟨.symbol, "("⟩ :: xs₁)
      = skip (d + 1) xs₁ := skip_opening d xs₁
    _ = skip (d + 1) (⟨.comma, c⟩ :: xs₂) := keeps_expr xs₁ _ _ hdx d
    _ = skip (d + 1) xs₂ := skip_comma_succ d xs₂ c
    _ = skip (d + 1) (⟨.comma, c'⟩ :: xs₃) := keeps_expr xs₂ _ _ hdy d
    _ = skip (d + 1) xs₃ := skip_comma_succ d xs₃ c'
    _ = skip (d + 1) (⟨.symbol, ")"⟩ :: xs₄) := keeps_condition xs₃ _ _ hcond d
    _ = skip d xs₄ := skip_closing_succ d xs₄
    _ = skip d ys := hcall.optional xs₄ _ _ heffect d

section
variable {p : Parser Movement} [Readable p]

theorem keeps_readRepetition (inner : Movement) : Keeps 0 (readRepetition inner) := by
  intro xs m ys hread d
  rcases readRepetition_eq_some hread with ⟨x, wrap, rfl, hx, -⟩ | ⟨-, rfl⟩
  · rcases repetition?_eq_some hx with ⟨rfl, -⟩ | ⟨rfl, -⟩ | ⟨rfl, -⟩ <;> exact skip_operator d ys _
  · rfl

theorem Keeps.repeated (h : Keeps 0 (read p)) : Keeps 0 (read (repeated p)) := by
  intro xs m ys hread d
  rw [read_repeated, read_term] at hread
  obtain ⟨x, hterm, hrepetition⟩ := Option.bind_eq_some_iff.1 hread
  refine Eq.trans ?_ (keeps_readRepetition x.1 x.2 m ys hrepetition d)
  rw [Option.or_eq_some_iff, Option.or_eq_some_iff] at hterm
  rcases hterm with hcall | ⟨-, hgroup | ⟨-, hletter⟩⟩
  · obtain ⟨y, hy, heq⟩ := Option.bind_eq_some_iff.1 hcall
    cases heq
    exact keeps_call xs y.1 y.2 hy d
  · exact h.mono.brackets xs x.1 x.2 hgroup d
  · obtain ⟨y, hy, heq⟩ := Option.bind_eq_some_iff.1 hletter
    cases heq
    exact keeps_letter xs y.1 y.2 hy d

theorem Keeps.concatenation (h : Keeps 0 (read p)) : Keeps 0 (read (concatenation p)) := by
  intro xs m ys hread d
  rw [read_concatenation] at hread
  obtain ⟨x, hx, heq⟩ := Option.bind_eq_some_iff.1 hread
  cases heq
  exact (h.repeated xs x.1 x.2 hx d).trans (h.repeated.readMany x.2 d)

end

theorem keeps_movementWithin (n : Nat) : Keeps 0 (read (movementWithin n)) := by
  induction n with
  | zero => exact nofun
  | succ n ih =>
    intro xs m ys hread d
    rw [read_movementWithin_succ] at hread
    obtain ⟨x, hx, hread⟩ := Option.bind_eq_some_iff.1 hread
    refine (ih.concatenation xs x.1 x.2 hx d).trans ?_
    have hunion : Keeps 0 (read (operator "|" >>= fun _ => movementWithin n)) :=
      (keeps_operator "|").bind fun _ => ih
    cases hright : read (operator "|" >>= fun _ => movementWithin n) x.2 with
    | none =>
      simp only [hright] at hread
      cases hread
      rfl
    | some y =>
      simp only [hright] at hread
      cases hread
      exact hunion x.2 y.1 y.2 hright d

end BoardGame.Parser
