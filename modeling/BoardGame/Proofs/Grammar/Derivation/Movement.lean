import BoardGame.Proofs.Grammar.Balance
import BoardGame.Proofs.Grammar.Derivation.Expr

/-!
# The grammar of movements

The rules (`MovementForm.Derives`), and that whatever they derive is read (`MovementForm.Derives.readsBack`).
A term stops at the operators that repeat it, a row at anything that starts no term, and a letter is no
group, since a comma stands between its brackets.
-/

namespace BoardGame
open Lexeme (next word symbol operator separated bracketed)

/-! ### The rules -/

/-- The operators that stand behind a term. -/
def repetitions : List (Lexeme × (Movement → Movement)) :=
  [(operator "*", .star), (operator "+", .plus), (operator "?", .optional)]

/-- The lexemes are the condition: a name or a call. -/
def Condition.Derives : Condition → List Lexeme → Prop
  | named name, ws => ws = [word name]
  | call c, ws => ExprForm.call.Derives ws c.toExpr

/-- The lexemes are the effect of a letter: nothing or a call in its brackets. -/
def Letter.EffectDerives : Option Call → List Lexeme → Prop
  | none, ws => ws = []
  | some c, ws => ∃ vs, ws = symbol "\x7b" :: vs ++ [symbol "\x7d"] ∧ ExprForm.call.Derives vs c.toExpr

theorem Condition.Derives.kind_ne_endOfInput {c : Condition} {ws : List Lexeme} (h : c.Derives ws) :
    ∀ x ∈ ws, x.kind ≠ .endOfInput := by
  cases c with
  | named name =>
    obtain rfl : ws = [word name] := h
    exact List.forall_mem_singleton.2 nofun
  | call c => exact ExprForm.Derives.kind_ne_endOfInput h trivial

theorem Letter.EffectDerives.kind_ne_endOfInput {effect : Option Call} {ws : List Lexeme}
    (h : EffectDerives effect ws) : ∀ x ∈ ws, x.kind ≠ .endOfInput := by
  cases effect with
  | none =>
    obtain rfl : ws = [] := h
    exact nofun
  | some c =>
    obtain ⟨vs, rfl, hvs⟩ := h
    exact List.forall_mem_append.2 ⟨List.forall_mem_cons.2 ⟨nofun, hvs.kind_ne_endOfInput trivial⟩,
      List.forall_mem_singleton.2 nofun⟩

/-- Lexemes with the movement they stand for. -/
abbrev MovementPhrase := List Lexeme × Movement

inductive MovementForm where
  /-- Alternatives. -/
  | union
  /-- Terms one after another. -/
  | row
  /-- A term that may be repeated. -/
  | repeated
  | term

namespace MovementForm

/-- The lexemes are of the form, and the movement is what they stand for. -/
inductive Derives : MovementForm → List Lexeme → Movement → Prop
  | alone {ws : List Lexeme} {m : Movement} (h : Derives .row ws m) : Derives .union ws m
  | union {vs ws : List Lexeme} {l r : Movement} (left : Derives .row vs l) (right : Derives .union ws r) :
    Derives .union (vs ++ operator "|" :: ws) (.union l r)
  | row {ws : List Lexeme} {m : Movement} {rest : List MovementPhrase} (first : Derives .repeated ws m)
    (h : ∀ p ∈ rest, Derives .repeated p.1 p.2) :
    Derives .row (ws ++ rest.flatMap Prod.fst) (Parser.concatAll m (rest.map Prod.snd))
  | once {ws : List Lexeme} {m : Movement} (h : Derives .term ws m) : Derives .repeated ws m
  | repeated {x : Lexeme} {wrap : Movement → Movement} {ws : List Lexeme} {m : Movement}
    (h : Derives .term ws m) (sign : (x, wrap) ∈ repetitions) : Derives .repeated (ws ++ [x]) (wrap m)
  | expand {ws : List Lexeme} {c : Call} (h : ExprForm.call.Derives ws c.toExpr) : Derives .term ws (.expand c)
  | group {ws : List Lexeme} {m : Movement} (h : Derives .union ws m) : Derives .term (bracketed ws) m
  | letter {xs ys cs es : List Lexeme} {l : Letter} (dx : ExprForm.expression.Derives xs l.dx)
    (dy : ExprForm.expression.Derives ys l.dy) (condition : l.condition.Derives cs)
    (effect : Letter.EffectDerives l.effect es) :
    Derives .term (bracketed (separated [xs, ys, cs]) ++ es) (.letter l)

end MovementForm

/-! ### The operator `not` in a movement -/

/-- A call that stands by itself is none of `not`; only its arguments are operands. -/
def Call.operatorNot (c : Call) : Call := ⟨c.name, c.args.map Expr.operatorNot⟩

def Condition.operatorNot : Condition → Condition
  | named name => named name
  | call c => call c.operatorNot

def Letter.operatorNot (l : Letter) : Letter :=
  ⟨l.dx.operatorNot, l.dy.operatorNot, l.condition.operatorNot, l.effect.map Call.operatorNot⟩

/-- The movement with the operator for each call of `not` with one argument in its expressions. -/
def Movement.operatorNot : Movement → Movement
  | letter l => letter l.operatorNot
  | concat left right => concat left.operatorNot right.operatorNot
  | union left right => union left.operatorNot right.operatorNot
  | star inner => star inner.operatorNot
  | plus inner => plus inner.operatorNot
  | optional inner => optional inner.operatorNot
  | expand c => expand c.operatorNot

theorem Movement.operatorNot_concatAll (m : Movement) (ms : List Movement) :
    (Parser.concatAll m ms).operatorNot = Parser.concatAll m.operatorNot (ms.map operatorNot) := by
  induction ms generalizing m with
  | nil => rfl
  | cons n ms ih => rw [Parser.concatAll, operatorNot, ih, List.map_cons, Parser.concatAll]

namespace Parser
variable {α : Type}

theorem mem_bracketed {x : Lexeme} {ws : List Lexeme} (hx : x ∈ ws) : x ∈ bracketed ws :=
  List.mem_append_left _ (List.mem_cons_of_mem _ hx)

/-! ### Calls -/

section
variable {ws ys : List Lexeme} {c : Call}

theorem read_call_eq_none {xs : List Lexeme} (h : (next xs).kind ≠ .word) : read call xs = none := by
  rw [read_call, read_callOver_eq_none h]

theorem advances_call : Advances (read call) := advances_word.bind.attempt

theorem read_call_of_derives (h : ExprForm.call.Derives ws c.toExpr) (hws : ∀ x ∈ ws, x.InRange)
    (ys : List Lexeme) : read call (ws ++ ys) = some (c.operatorNot, ys) := by
  obtain ⟨name, args, hargs, rfl, heq⟩ := h.readsBack hws
  obtain ⟨hname, hmap⟩ := Expr.call.inj heq
  have hagree : AgreeTo (writeCall name args ++ ys).length (read expr)
      (read (exprOver (operand ((writeCall name args ++ ys).length + 1)))) :=
    fun xs hxs => read_expr (Nat.lt_succ_of_le hxs)
  rw [read_call, hagree.callOver _ (Nat.le_succ _), read_callOver_lexemes hargs (by omega), Call.operatorNot,
    hname, hmap, List.map_map]
  rfl

theorem read_condition_of_derives {c : Condition} (h : c.Derives ws) (hws : ∀ x ∈ ws, x.InRange)
    (hys : next ys = .symbol ")") : read condition (ws ++ ys) = some (c.operatorNot, ys) := by
  rw [read_condition]
  cases c with
  | named name =>
    obtain rfl : ws = [.word name] := h
    rw [List.singleton_append, read_call, read_callOver_word_eq_none (by simp [hys]),
      read_word_eq_some_iff.2 rfl]
    rfl
  | call c =>
    rw [read_call_of_derives h hws]
    rfl

theorem read_effect_of_derives {effect : Option Call} (h : Letter.EffectDerives effect ws)
    (hws : ∀ x ∈ ws, x.InRange) (hys : next ys ≠ .symbol "\x7b") :
    read (optional (between "\x7b" "\x7d" call)) (ws ++ ys) = some (effect.map Call.operatorNot, ys) := by
  rw [read_optional]
  cases effect with
  | none =>
    obtain rfl : ws = [] := h
    rw [List.nil_append, read_between_eq_none hys]
    rfl
  | some c =>
    obtain ⟨vs, rfl, hvs⟩ := h
    have hrange : ∀ x ∈ vs, x.InRange := fun x hx =>
      hws x (List.mem_append_left _ (List.mem_cons_of_mem _ hx))
    have hread : read (between "\x7b" "\x7d" call) (.symbol "\x7b" :: (vs ++ .symbol "\x7d" :: ys)) =
        some (c.operatorNot, ys) :=
      (read_between_eq_some_iff _).2 ⟨_, rfl, read_call_of_derives hvs hrange _⟩
    have hxs : .symbol "\x7b" :: vs ++ [.symbol "\x7d"] ++ ys =
        .symbol "\x7b" :: (vs ++ .symbol "\x7d" :: ys) := by simp
    rw [hxs, hread]
    rfl

end

/-! ### Letters -/

/-- The lexemes of a letter with its effect, and what follows. -/
theorem letter_append (xs ys cs es zs : List Lexeme) :
    bracketed (Lexeme.separated [xs, ys, cs]) ++ es ++ zs =
      .symbol "(" :: (xs ++ .comma :: (ys ++ .comma :: (cs ++ .symbol ")" :: (es ++ zs)))) := by
  simp [bracketed, Lexeme.separated]

section
variable {xs ys cs es zs : List Lexeme} {l : Letter}

theorem read_expr_of_derives {ws : List Lexeme} {e : Expr} (h : ExprForm.expression.Derives ws e)
    (hws : ∀ x ∈ ws, x.InRange) (hys : next ys ∈ closers) : read expr (ws ++ ys) = some (e.operatorNot, ys) :=
  (h.readsBack hws unambiguous_binaryOperators).expr hys

theorem read_letter_of_derives (dx : ExprForm.expression.Derives xs l.dx)
    (dy : ExprForm.expression.Derives ys l.dy) (condition : l.condition.Derives cs)
    (effect : Letter.EffectDerives l.effect es)
    (hrange : ∀ x ∈ bracketed (Lexeme.separated [xs, ys, cs]) ++ es, x.InRange) (hzs : next zs ≠ .symbol "\x7b") :
    read letter (bracketed (Lexeme.separated [xs, ys, cs]) ++ es ++ zs) = some (l.operatorNot, zs) := by
  have hmem : ∀ ws ∈ [xs, ys, cs], ∀ x ∈ ws, x.InRange := fun ws hws x hx =>
    hrange x (List.mem_append_left _ (mem_bracketed (mem_separated hx hws)))
  simp only [List.forall_mem_cons] at hmem
  obtain ⟨hxs, hys, hcs, -⟩ := hmem
  rw [letter_append]
  exact read_letter_eq_some_iff.2 ⟨",", ",", _, _, _, _, rfl, read_expr_of_derives dx hxs (by simp [closers]),
    read_expr_of_derives dy hys (by simp [closers]), read_condition_of_derives condition hcs rfl,
    read_effect_of_derives effect (fun x hx => hrange x (List.mem_append_right _ hx)) hzs⟩

/-- A letter is no group: at the level of its bracket stands a comma. -/
theorem read_group_letter_eq_none (dx : ExprForm.expression.Derives xs l.dx) (hxs : ∀ x ∈ xs, x.InRange)
    (n : Nat) (zs : List Lexeme) :
    read (between "(" ")" (movementWithin n)) (.symbol "(" :: (xs ++ .comma :: zs)) = none := by
  have hread : read expr (xs ++ .comma :: zs) = some (l.dx.operatorNot, .comma :: zs) :=
    read_expr_of_derives dx hxs (by simp [closers])
  have hcomma : skip 0 (xs ++ .comma :: zs) = .comma :: zs :=
    (keeps_expr (l := 0) _ _ _ hread 0).trans (skip_comma_zero zs ",")
  refine Option.eq_none_iff_forall_ne_some.2 fun x hx => ?_
  obtain ⟨ws, heq, hgroup⟩ := (read_between_eq_some_iff _).1 hx
  obtain ⟨-, rfl⟩ := List.cons.inj heq
  have hskip := keeps_movementWithin n _ _ _ hgroup 0
  rw [Nat.add_zero, skip_closing_zero, hcomma] at hskip
  simp at hskip

end

/-! ### Terms -/

/-- Nothing that goes on with the term before it. -/
def EndsTerm (x : Lexeme) : Prop := repetition? x.toToken = none ∧ x ≠ .symbol "\x7b"

/-- What a movement can start with. -/
def StartsTerm (x : Lexeme) : Prop := x.kind = .word ∨ x = .symbol "("

theorem StartsTerm.endsTerm {x : Lexeme} (h : StartsTerm x) : EndsTerm x := by
  rcases h with h | rfl
  · have hne : ∀ literal, x ≠ .symbol literal ∧ x ≠ .operator literal := by
      intro literal
      constructor <;>
      · rintro rfl
        simp at h
    refine ⟨Option.eq_none_iff_forall_ne_some.2 fun wrap hwrap => ?_, (hne _).1⟩
    rcases repetition?_eq_some hwrap with ⟨hx, -⟩ | ⟨hx, -⟩ | ⟨hx, -⟩ <;> exact (hne _).2 hx
  · exact ⟨rfl, by simp⟩

theorem repetition?_of_mem {x : Lexeme} {wrap : Movement → Movement} (h : (x, wrap) ∈ repetitions) :
    repetition? x.toToken = some wrap ∧ x ≠ .symbol "\x7b" ∧
      ∀ m, (wrap m).operatorNot = wrap m.operatorNot := by
  simp only [repetitions, List.mem_cons, List.not_mem_nil, or_false, Prod.mk.injEq] at h
  rcases h with ⟨rfl, rfl⟩ | ⟨rfl, rfl⟩ | ⟨rfl, rfl⟩ <;> exact ⟨rfl, by simp, fun _ => rfl⟩

section
variable {p : Parser Movement} [Readable p] {xs ys : List Lexeme} {m : Movement}

theorem read_term_eq_none (h : ¬ StartsTerm (next xs)) : read (term p) xs = none := by
  have hletter : read letter xs = none := by
    refine Option.eq_none_iff_forall_ne_some.2 fun x hx => ?_
    obtain ⟨_, _, _, _, _, _, rfl, -⟩ := read_letter_eq_some_iff.1 hx
    exact h (.inr rfl)
  rw [read_term, read_call_eq_none fun hx => h (.inl hx), read_between_eq_none fun hx => h (.inr hx), hletter]
  rfl

theorem read_repeated_eq_none (h : ¬ StartsTerm (next xs)) : read (repeated p) xs = none := by
  rw [read_repeated, read_term_eq_none h, Option.bind_none]

theorem advances_letter : Advances (read letter) := by
  intro xs l ys h
  obtain ⟨_, _, xs₁, xs₂, xs₃, xs₄, rfl, hdx, hdy, hcondition, heffect⟩ := read_letter_eq_some_iff.1 h
  have h₁ := length_le_of_read hdx
  have h₂ := length_le_of_read hdy
  have h₃ := length_le_of_read hcondition
  have h₄ := length_le_of_read heffect
  simp only [List.length_cons] at h₁ h₂ h₃ ⊢
  omega

theorem advances_term : Advances (read (term p)) :=
  advances_call.bind.orElse ((advances_between p).orElse advances_letter.bind)

theorem advances_repeated : Advances (read (repeated p)) := by
  intro xs m ys h
  rw [read_repeated] at h
  obtain ⟨x, hterm, hrepetition⟩ := Option.bind_eq_some_iff.1 h
  exact Nat.lt_of_le_of_lt (suffix_of_readRepetition hrepetition).length_le
    (advances_term xs x.1 x.2 hterm)

theorem read_repeated_of_endsTerm (h : read (term p) xs = some (m, ys)) (hys : EndsTerm (next ys)) :
    read (repeated p) xs = some (m, ys) := by
  rw [read_repeated, h, Option.bind_some, readRepetition, hys.1]

theorem read_repeated_of_repetition {x : Lexeme} {wrap : Movement → Movement}
    (h : read (term p) xs = some (m, x :: ys)) (hx : repetition? x.toToken = some wrap) :
    read (repeated p) xs = some (wrap m, ys) := by
  rw [read_repeated, h, Option.bind_some, readRepetition, Lexeme.next_cons, hx]
  rfl

theorem read_term_group (h : read p (xs ++ .symbol ")" :: ys) = some (m, .symbol ")" :: ys)) :
    read (term p) (bracketed xs ++ ys) = some (m, ys) := by
  have hxs : bracketed xs ++ ys = .symbol "(" :: (xs ++ .symbol ")" :: ys) := by simp [bracketed]
  rw [hxs, read_term, read_call_eq_none (by simp), (read_between_eq_some_iff p).2 ⟨_, rfl, h⟩]
  rfl

end

/-! ### What is derived is read -/

/-- Nothing that goes on with a row. -/
def EndsRow (x : Lexeme) : Prop := EndsTerm x ∧ ¬ StartsTerm x

/-- What can follow a movement. -/
def EndsMovement (x : Lexeme) : Prop := x = .symbol ")" ∨ x = .semicolon ∨ x = .ending

theorem EndsMovement.endsRow {x : Lexeme} (h : EndsMovement x) : EndsRow x := by
  rcases h with rfl | rfl | rfl <;> exact ⟨⟨rfl, by simp [Lexeme.ending]⟩, by simp [StartsTerm, Lexeme.ending]⟩

theorem endsRow_bar : EndsRow (.operator "|") :=
  ⟨⟨by simp [repetition?, Token.is, Lexeme.toToken], by simp⟩, by simp [StartsTerm]⟩

end Parser

namespace MovementForm
open BoardGame.Parser

/-- The parser of the form, in which movements nest `n` deep. -/
def parser (n : Nat) : MovementForm → Parser Movement
  | .union => movementWithin (n + 1)
  | .row => Parser.concatenation (movementWithin n)
  | .repeated => Parser.repeated (movementWithin n)
  | .term => Parser.term (movementWithin n)

instance (n : Nat) : ∀ form : MovementForm, Readable (form.parser n)
  | .union => inferInstanceAs (Readable (movementWithin (n + 1)))
  | .row => inferInstanceAs (Readable (Parser.concatenation (movementWithin n)))
  | .repeated => inferInstanceAs (Readable (Parser.repeated (movementWithin n)))
  | .term => inferInstanceAs (Readable (Parser.term (movementWithin n)))

/-- Nothing that goes on with the form. -/
def Ends : MovementForm → Lexeme → Prop
  | .union => EndsMovement
  | .row => EndsRow
  | .repeated => EndsTerm
  | .term => (· ≠ .symbol "\x7b")

/-- The movement is read from these lexemes where the form is expected. -/
def ReadsBack (form : MovementForm) (ws : List Lexeme) (m : Movement) : Prop :=
  ∀ n ys, (ws ++ ys).length ≤ n → form.Ends (next ys) →
    read (form.parser n) (ws ++ ys) = some (m.operatorNot, ys)

section
variable {ws : List Lexeme} {m : Movement}

theorem readsBack_alone (h : ReadsBack .row ws m) : ReadsBack .union ws m := by
  intro n ys hn hys
  have hbar : read (operator "|" >>= fun _ => movementWithin n) ys = none := by
    refine Option.eq_none_iff_forall_ne_some.2 fun x hx => ?_
    rw [read_bind] at hx
    obtain ⟨y, hy, -⟩ := Option.bind_eq_some_iff.1 hx
    rw [read_operator_eq_some_iff.1 hy] at hys
    rcases hys with hys | hys | hys <;> simp [Lexeme.ending] at hys
  have hrow : read (Parser.concatenation (movementWithin n)) (ws ++ ys) = some (m.operatorNot, ys) :=
    h n ys hn hys.endsRow
  have hread : read (movementWithin (n + 1)) (ws ++ ys) = some (m.operatorNot, ys) := by
    rw [read_movementWithin_succ, hrow]
    simp only [Option.bind_some, hbar]
  exact hread

theorem readsBack_union {vs : List Lexeme} {l : Movement} (hleft : ReadsBack .row vs l)
    (hright : ReadsBack .union ws m) : ReadsBack .union (vs ++ .operator "|" :: ws) (.union l m) := by
  intro n ys hn hys
  rw [List.append_assoc, List.cons_append] at hn ⊢
  have hlength : (ws ++ ys).length + 1 ≤ n :=
    Nat.le_of_add_left_le (by rwa [List.length_append, List.length_cons] at hn)
  obtain ⟨n, rfl⟩ : ∃ k, n = k + 1 := ⟨n - 1, by omega⟩
  have hfirst : read (Parser.concatenation (movementWithin (n + 1))) (vs ++ .operator "|" :: (ws ++ ys)) =
      some (l.operatorNot, .operator "|" :: (ws ++ ys)) := hleft (n + 1) _ hn endsRow_bar
  have hsecond : read (operator "|" >>= fun _ => movementWithin (n + 1)) (.operator "|" :: (ws ++ ys)) =
      some (m.operatorNot, ys) := by
    have hmovement : read (movementWithin (n + 1)) (ws ++ ys) = some (m.operatorNot, ys) :=
      hright n ys (Nat.le_of_succ_le_succ hlength) hys
    rw [read_bind, read_operator_cons, Option.bind_some, hmovement]
  have hread : read (movementWithin (n + 1 + 1)) (vs ++ .operator "|" :: (ws ++ ys)) =
      some (.union l.operatorNot m.operatorNot, ys) := by
    rw [read_movementWithin_succ, hfirst]
    simp only [Option.bind_some, hsecond]
  exact hread

theorem readsBack_row {rest : List MovementPhrase} (hfirst : ReadsBack .repeated ws m)
    (hstarts : ∀ p ∈ rest, ∀ ys, StartsTerm (next (p.1 ++ ys))) (hrest : ∀ p ∈ rest, ReadsBack .repeated p.1 p.2) :
    ReadsBack .row (ws ++ rest.flatMap Prod.fst) (concatAll m (rest.map Prod.snd)) := by
  intro n ys hn hys
  rw [List.append_assoc] at hn ⊢
  have hhead : read (Parser.repeated (movementWithin n)) (ws ++ (rest.flatMap Prod.fst ++ ys)) =
      some (m.operatorNot, rest.flatMap Prod.fst ++ ys) := by
    refine hfirst n _ hn ?_
    cases rest with
    | nil => exact hys.1
    | cons p rest =>
      rw [List.flatMap_cons, List.append_assoc]
      exact (hstarts p List.mem_cons_self _).endsTerm
  have hchain : Chain (read (Parser.repeated (movementWithin n))) (rest.flatMap Prod.fst ++ ys)
      (rest.map fun p => p.2.operatorNot) ys :=
    chain_flatMap EndsTerm hys.1 (fun p hp zs => (hstarts p hp zs).endsTerm)
      (fun p hp zs hzs hlen => hrest p hp n zs hlen hzs)
      (Nat.le_of_add_left_le (by rwa [List.length_append] at hn))
  have hread : read (Parser.concatenation (movementWithin n)) (ws ++ (rest.flatMap Prod.fst ++ ys)) =
      some ((concatAll m (rest.map Prod.snd)).operatorNot, ys) := by
    rw [read_concatenation, hhead, Option.bind_some,
      hchain.readMany_eq advances_repeated (read_repeated_eq_none hys.2), Movement.operatorNot_concatAll,
      List.map_map]
    rfl
  exact hread

theorem readsBack_repeated {x : Lexeme} {wrap : Movement → Movement} (h : ReadsBack .term ws m)
    (sign : (x, wrap) ∈ repetitions) : ReadsBack .repeated (ws ++ [x]) (wrap m) := by
  intro n ys hn _
  obtain ⟨hwrap, hx, hnot⟩ := repetition?_of_mem sign
  rw [List.append_assoc, List.singleton_append] at hn ⊢
  rw [hnot]
  exact read_repeated_of_repetition (h n _ hn hx) hwrap

theorem readsBack_group (h : ReadsBack .union ws m) : ReadsBack .term (bracketed ws) m := by
  intro n ys hn _
  have hlength : (ws ++ .symbol ")" :: ys).length + 1 ≤ n := by
    simpa [bracketed] using hn
  obtain ⟨n, rfl⟩ : ∃ k, n = k + 1 := ⟨n - 1, by omega⟩
  exact read_term_group (h n _ (Nat.le_of_succ_le_succ hlength) (.inl rfl))

theorem readsBack_letter {xs ys cs es : List Lexeme} {l : Letter} (dx : ExprForm.expression.Derives xs l.dx)
    (dy : ExprForm.expression.Derives ys l.dy) (condition : l.condition.Derives cs)
    (effect : Letter.EffectDerives l.effect es)
    (hrange : ∀ x ∈ bracketed (Lexeme.separated [xs, ys, cs]) ++ es, x.InRange) :
    ReadsBack .term (bracketed (Lexeme.separated [xs, ys, cs]) ++ es) (.letter l) := by
  intro n zs _ hzs
  have hread := read_letter_of_derives dx dy condition effect hrange hzs
  have hxs : ∀ x ∈ xs, x.InRange := fun x hx =>
    hrange x (List.mem_append_left _ (mem_bracketed (mem_separated hx List.mem_cons_self)))
  have hgroup := read_group_letter_eq_none dx hxs n
  have hterm : read (Parser.term (movementWithin n)) (bracketed (Lexeme.separated [xs, ys, cs]) ++ es ++ zs) =
      some (.letter l.operatorNot, zs) := by
    rw [letter_append] at hread ⊢
    rw [read_term, read_call_eq_none (by simp), hgroup, hread]
    rfl
  exact hterm

end

theorem Derives.startsTerm {form : MovementForm} {ws : List Lexeme} {m : Movement} (h : Derives form ws m)
    (ys : List Lexeme) : StartsTerm (next (ws ++ ys)) := by
  induction h generalizing ys with
  | alone _ ih | once _ ih => exact ih ys
  | union _ _ ihleft =>
    rw [List.append_assoc]
    exact ihleft _
  | row _ _ ihfirst =>
    rw [List.append_assoc]
    exact ihfirst _
  | repeated _ _ ih =>
    rw [List.append_assoc]
    exact ih _
  | expand h =>
    obtain ⟨name, args, -, rfl, -⟩ := h.call_inv
    exact .inl rfl
  | group _ _ => exact .inr rfl
  | letter _ _ _ _ => exact .inr rfl

theorem Derives.readsBack {form : MovementForm} {ws : List Lexeme} {m : Movement} (h : Derives form ws m)
    (hws : ∀ x ∈ ws, x.InRange) : form.ReadsBack ws m := by
  induction h with
  | alone _ ih => exact readsBack_alone (ih hws)
  | union _ _ ihleft ihright =>
    obtain ⟨hvs, hws⟩ := List.forall_mem_append.1 hws
    exact readsBack_union (ihleft hvs) (ihright (List.forall_mem_cons.1 hws).2)
  | row _ hrest ihfirst ihrest =>
    obtain ⟨hws, hrow⟩ := List.forall_mem_append.1 hws
    refine readsBack_row (ihfirst hws) (fun p hp => (hrest p hp).startsTerm) fun p hp => ihrest p hp fun x hx => ?_
    exact hrow x (List.mem_flatMap.2 ⟨p, hp, hx⟩)
  | once _ ih => exact fun n ys hn hys => read_repeated_of_endsTerm (ih hws n ys hn hys.2) hys
  | repeated _ sign ih => exact readsBack_repeated (ih (List.forall_mem_append.1 hws).1) sign
  | @expand ws c h =>
    intro n ys _ _
    have hterm : read (Parser.term (movementWithin n)) (ws ++ ys) = some (.expand c.operatorNot, ys) := by
      rw [read_term, read_call_of_derives h hws]
      rfl
    exact hterm
  | group _ ih => exact readsBack_group (ih fun x hx => hws x (mem_bracketed hx))
  | letter dx dy condition effect => exact readsBack_letter dx dy condition effect hws

theorem Derives.kind_ne_endOfInput {form : MovementForm} {ws : List Lexeme} {m : Movement}
    (h : Derives form ws m) : ∀ x ∈ ws, x.kind ≠ .endOfInput := by
  induction h with
  | alone _ ih | once _ ih => exact ih
  | union _ _ ihleft ihright => exact List.forall_mem_append.2 ⟨ihleft, List.forall_mem_cons.2 ⟨nofun, ihright⟩⟩
  | row _ _ ihfirst ihrest =>
    refine List.forall_mem_append.2 ⟨ihfirst, fun x hx => ?_⟩
    obtain ⟨p, hp, hx⟩ := List.mem_flatMap.1 hx
    exact ihrest p hp x hx
  | repeated _ sign ih =>
    obtain ⟨hwrap, -⟩ := repetition?_of_mem sign
    refine List.forall_mem_append.2 ⟨ih, List.forall_mem_singleton.2 ?_⟩
    rcases repetition?_eq_some hwrap with ⟨rfl, -⟩ | ⟨rfl, -⟩ | ⟨rfl, -⟩ <;> exact nofun
  | expand h => exact h.kind_ne_endOfInput trivial
  | group _ ih => exact forall_mem_bracketed nofun nofun ih
  | letter dx dy condition effect =>
    refine List.forall_mem_append.2 ⟨forall_mem_bracketed nofun nofun (forall_mem_separated nofun ?_), ?_⟩
    · simp only [List.forall_mem_cons]
      exact ⟨dx.kind_ne_endOfInput unambiguous_binaryOperators, dy.kind_ne_endOfInput unambiguous_binaryOperators,
        condition.kind_ne_endOfInput, nofun⟩
    · exact Letter.EffectDerives.kind_ne_endOfInput effect

end MovementForm

/-- A movement is read from the lexemes that derive it. -/
theorem Parser.read_movement_of_derives {ws ys : List Lexeme} {m : Movement}
    (h : MovementForm.union.Derives ws m) (hws : ∀ x ∈ ws, x.InRange) (hys : EndsMovement (next ys)) :
    read movement (ws ++ ys) = some (m.operatorNot, ys) := by
  rw [read_movement (Nat.lt_succ_self _)]
  exact h.readsBack hws _ ys (Nat.le_refl _) hys

end BoardGame
