import BoardGame.Proofs.Grammar.Derivation.Movement
import BoardGame.Proofs.Grammar.Texts

/-!
# What is read is derived

From the lexemes of a text a parser takes what the grammar derives for its result (`Sound`), one lemma a
combinator and by induction on the nesting for operands (`sound_operand`).
-/

namespace BoardGame
open Lexeme (next bracketed Scanned)

namespace Parser
variable {α β γ : Type}

/-! ### Combinators -/

/-- What is read from scanned lexemes is a result with lexemes that `Q` admits for it. -/
def Sound (Q : List Lexeme → α → Prop) (r : Reading α) : Prop :=
  ∀ xs a ys, (∀ x ∈ xs, x.Scanned) → r xs = some (a, ys) → ∃ ws, xs = ws ++ ys ∧ Q ws a

section
variable {r s : Reading α} {Q R : List Lexeme → α → Prop}

theorem Sound.mono (h : Sound Q r) (hQ : ∀ ws a, Q ws a → R ws a) : Sound R r := by
  intro xs a ys hxs hr
  obtain ⟨ws, rfl, hws⟩ := h xs a ys hxs hr
  exact ⟨ws, rfl, hQ ws a hws⟩

/-- A row of readings is a row of items. -/
theorem Sound.chain {write : γ → List Lexeme} {f : γ → α} {P : γ → Prop}
    (h : Sound (fun ws a => ∃ c, P c ∧ ws = write c ∧ a = f c) r) {xs ys : List Lexeme} {as : List α}
    (hchain : Chain r xs as ys) (hxs : ∀ x ∈ xs, x.Scanned) :
    ∃ cs : List γ, (∀ c ∈ cs, P c) ∧ xs = cs.flatMap write ++ ys ∧ as = cs.map f := by
  induction hchain with
  | nil => exact ⟨[], nofun, rfl, rfl⟩
  | cons head _ ih =>
    obtain ⟨_, rfl, c, hc, rfl, rfl⟩ := h _ _ _ hxs head
    obtain ⟨cs, hcs, rfl, rfl⟩ := ih (List.forall_mem_append.1 hxs).2
    exact ⟨c :: cs, List.forall_mem_cons.2 ⟨hc, hcs⟩, by rw [List.flatMap_cons, List.append_assoc], rfl⟩

end

section
variable {p : Parser α} [Readable p] {Q : List Lexeme → α → Prop}

theorem Sound.between (left right : String) (h : Sound Q (read p)) :
    Sound (fun ws a => ∃ vs, ws = .symbol left :: vs ++ [.symbol right] ∧ Q vs a)
      (read (between left right p)) := by
  intro xs a ys hxs hr
  obtain ⟨zs, rfl, hp⟩ := (read_between_eq_some_iff p).1 hr
  obtain ⟨vs, rfl, hvs⟩ := h zs a _ (List.forall_mem_cons.1 hxs).2 hp
  exact ⟨_, by simp, vs, rfl, hvs⟩

theorem comma_of_scanned {literal : String} (h : Lexeme.Scanned ⟨.comma, literal⟩) : literal = "," :=
  h.text_of_kind nofun

theorem Sound.separated (h : Sound Q (read p)) :
    Sound (fun ws as => ∃ cs : List (List Lexeme × α), cs ≠ [] ∧ (∀ c ∈ cs, Q c.1 c.2) ∧
      ws = Lexeme.separated (cs.map Prod.fst) ∧ as = cs.map Prod.snd) (read (separated p)) := by
  have hitem : Sound (fun ws a => ∃ c : List Lexeme × α, Q c.1 c.2 ∧ ws = .comma :: c.1 ∧ a = c.2)
      (readItem p) := by
    intro xs a ys hxs hr
    obtain ⟨literal, zs, rfl, hp⟩ := (readItem_eq_some_iff p).1 hr
    obtain ⟨hcomma, hzs⟩ := List.forall_mem_cons.1 hxs
    obtain rfl := comma_of_scanned hcomma
    obtain ⟨vs, rfl, hvs⟩ := h zs a ys hzs hp
    exact ⟨.comma :: vs, rfl, (vs, a), hvs, rfl, rfl⟩
  intro xs as ys hxs hr
  rw [read_separated] at hr
  obtain ⟨⟨a, zs⟩, hfirst, heq⟩ := Option.map_eq_some_iff.1 hr
  obtain ⟨vs, rfl, hvs⟩ := h xs a zs hxs hfirst
  obtain ⟨cs, hcs, hzs, has⟩ := hitem.chain (chain_readMany (readItem p) zs) (List.forall_mem_append.1 hxs).2
  cases heq
  refine ⟨_, ?_, (vs, a) :: cs, List.cons_ne_nil _ _, List.forall_mem_cons.2 ⟨hvs, hcs⟩, rfl, by rw [has]; rfl⟩
  rw [List.map_cons, Lexeme.separated, List.flatMap_map, List.append_assoc]
  exact congrArg (vs ++ ·) hzs

theorem Sound.separatedOrNone (h : Sound Q (read p)) :
    Sound (fun ws as => ∃ cs : List (List Lexeme × α), (∀ c ∈ cs, Q c.1 c.2) ∧
      ws = Lexeme.separated (cs.map Prod.fst) ∧ as = cs.map Prod.snd) (read (separatedOrNone p)) := by
  intro xs as ys hxs hr
  rw [read_separatedOrNone] at hr
  cases hp : read (Parser.separated p) xs with
  | none =>
    rw [hp] at hr
    cases hr
    exact ⟨[], rfl, [], nofun, rfl, rfl⟩
  | some x =>
    rw [hp] at hr
    cases hr
    obtain ⟨ws, hxs, cs, -, hcs⟩ := h.separated xs x.1 x.2 hxs hp
    exact ⟨ws, hxs, cs, hcs⟩

end

/-! ### Operators -/

/-- Of words and operators, a text is of one kind only. -/
theorem not_isWord_of_mem_operators {s : String} (hs : s ∈ operators) : ¬ IsWord s := by
  rintro ⟨c, cs, hcons, hc, -⟩
  have hstarts : ∀ s ∈ operators, s.toList.head?.any isWordStart = false := by decide
  have hhead := hstarts s hs
  rw [hcons, List.head?_cons, Option.any_some, hc] at hhead
  cases hhead

/-- The operators of a level are spelled as operators and words are. -/
theorem spelled_binaryOperators : ∀ level ∈ binaryOperators, ∀ y ∈ level,
    y.1.kind = .operator ∧ y.1.literal ∈ operators ∨ y.1.kind = .word ∧ y.1.literal ∉ operators := by decide

theorem mem_of_levelOp? {level : List (Lexeme × BinaryOp)} (hlevel : level ∈ binaryOperators) {x : Lexeme}
    {op : BinaryOp} (hx : x.Scanned) (h : levelOp? (spellings level) x = some op) : (x, op) ∈ level := by
  obtain ⟨hkind, hlookup⟩ := Option.ite_none_right_eq_some.1 h
  obtain ⟨before, after, hsplit, -⟩ := List.lookup_eq_some_iff.1 hlookup
  have hmem : (x.literal, op) ∈ spellings level := by
    rw [hsplit]
    exact List.mem_append_right _ List.mem_cons_self
  obtain ⟨y, hy, heq⟩ := List.mem_map.1 hmem
  obtain ⟨hliteral, hop⟩ := Prod.mk.inj heq
  have hsame : y.1.kind = x.kind := by
    have htext := hx.text_of_kind (kind_ne_endOfInput_of_levelOp? h)
    rcases hkind with hkind | hkind <;> rw [hkind] at htext ⊢
    · exact ((spelled_binaryOperators level hlevel y hy).resolve_right fun hword =>
        hword.2 (hliteral ▸ htext)).1
    · exact ((spelled_binaryOperators level hlevel y hy).resolve_left fun hoperator =>
        not_isWord_of_mem_operators hoperator.2 (hliteral ▸ htext)).1
  have hxy : y = (x, op) := Prod.ext (Lexeme.ext hsame hliteral) hop
  rwa [← hxy]

theorem mem_of_unaryOp? {x : Lexeme} {op : UnaryOp} (h : unaryOp? x = some op) : (x, op) ∈ unaryOperators := by
  unfold unaryOp? at h
  by_cases hnot : x = ⟨.operator, "!"⟩ ∨ x = ⟨.word, "not"⟩
  · rw [if_pos hnot] at h
    cases h
    rcases hnot with rfl | rfl <;> decide
  · rw [if_neg hnot] at h
    obtain ⟨rfl, heq⟩ := Option.ite_none_right_eq_some.1 h
    cases heq
    decide

/-! ### Expressions -/

open ExprForm (Derives expression)

section
variable {p : Parser Expr} [Readable p]

theorem Sound.leftAssoc {level : List (Lexeme × BinaryOp)} {levels : List (List (Lexeme × BinaryOp))}
    (hlevel : level ∈ binaryOperators) (h : Sound (Derives (.level levels)) (read p)) :
    Sound (Derives (.level (level :: levels))) (read (leftAssoc (spellings level) p)) := by
  have hoperation : Sound (fun ws y => ∃ o : Operation, ((o.sign, o.op) ∈ level ∧
      Derives (.level levels) o.lexemes o.operand) ∧ ws = o.write ∧ y = (o.op, o.operand))
      (readOperation p (spellings level)) := by
    intro xs y zs hxs hr
    obtain ⟨⟨op, ys⟩, hop, hr⟩ := Option.bind_eq_some_iff.1 hr
    obtain ⟨⟨e, zs⟩, he, ⟨⟩⟩ := Option.bind_eq_some_iff.1 hr
    obtain ⟨x, rfl, hx⟩ :=
      (readNext_eq_some_iff (show levelOp? (spellings level) .ending = none from rfl)).1 hop
    obtain ⟨hscanned, hys⟩ := List.forall_mem_cons.1 hxs
    obtain ⟨ws, rfl, hws⟩ := h ys e zs hys he
    exact ⟨x :: ws, rfl, ⟨x, op, ws, e⟩, ⟨mem_of_levelOp? hlevel hscanned hx, hws⟩, rfl, rfl⟩
  intro xs e ys hxs hr
  rw [read_leftAssoc] at hr
  obtain ⟨⟨l, zs⟩, hl, heq⟩ := Option.bind_eq_some_iff.1 hr
  obtain ⟨ws, rfl, hws⟩ := h xs l zs hxs hl
  obtain ⟨rest, hrest, hzs, hys⟩ := hoperation.chain (chain_readMany (readOperation p (spellings level)) zs)
    (List.forall_mem_append.1 hxs).2
  cases heq
  refine ⟨ws ++ rest.flatMap Operation.write, by rw [List.append_assoc]; exact congrArg (ws ++ ·) hzs, ?_⟩
  rw [hys, List.foldl_map]
  exact .level hws (fun o ho => (hrest o ho).1) fun o ho => (hrest o ho).2

theorem Sound.levelsOver (h : Sound (Derives .operand) (read p)) {levels : List (List (Lexeme × BinaryOp))}
    (hlevels : ∀ level ∈ levels, level ∈ binaryOperators) :
    Sound (Derives (.level levels)) (read (levelsOver p levels)) := by
  induction levels with
  | nil => exact h.mono fun _ _ => .bare
  | cons level levels ih =>
    obtain ⟨hlevel, hlevels⟩ := List.forall_mem_cons.1 hlevels
    exact (ih hlevels).leftAssoc hlevel

theorem Sound.exprOver (h : Sound (Derives .operand) (read p)) :
    Sound (Derives expression) (read (exprOver p)) := by
  intro xs e ys hxs hr
  rw [read_exprOver_eq_levelsOver] at hr
  exact h.levelsOver (fun _ => id) xs e ys hxs hr

theorem Sound.callOver (h : Sound (Derives expression) (read p)) :
    Sound (fun ws c => Derives .call ws c.toExpr) (read (callOver p)) := by
  intro xs c ys hxs hr
  obtain ⟨zs, rfl, hzs⟩ := (read_callOver_eq_some_iff p).1 hr
  have hscanned := (List.forall_mem_cons.1 (List.forall_mem_cons.1 hxs).2).2
  obtain ⟨_, rfl, args, hargs, rfl, heq⟩ := h.separatedOrNone zs c.args _ hscanned hzs
  refine ⟨writeCall c.name args, (writeCall_append c.name args ys).symm, ?_⟩
  have htoExpr : c.toExpr = .call c.name (args.map Prod.snd) := by rw [← heq]; rfl
  show Derives .call (writeCall c.name args) c.toExpr
  rw [htoExpr]
  exact .call c.name hargs

theorem Sound.variableOver (h : Sound (Derives expression) (read p)) :
    Sound (Derives .core) (read (variableOver p)) := by
  have hindex : Sound (fun ws e => ∃ i : Phrase, Derives expression i.1 i.2 ∧ ws = i.writeIndex ∧ e = i.2)
      (read (Parser.between "[" "]" p)) := by
    refine (h.between "[" "]").mono ?_
    rintro ws e ⟨vs, hws, hvs⟩
    exact ⟨(vs, e), hvs, hws, rfl⟩
  intro xs e ys hxs hr
  obtain ⟨name, zs, rfl, hname, hzs⟩ := read_variableOver_eq_some p hr
  have hscanned := (List.forall_mem_cons.1 hxs).2
  rcases hzs with ⟨key, rfl, rfl⟩ | ⟨is, hmany, hzs⟩
  · exact ⟨_, rfl, .field hname key⟩
  · have hchain := chain_readMany (read (Parser.between "[" "]" p)) zs
    rw [hmany] at hchain
    obtain ⟨indices, hindices, rfl, rfl⟩ := hindex.chain hchain hscanned
    refine ⟨.word name :: indices.flatMap Phrase.writeIndex, rfl, ?_⟩
    rcases hzs with ⟨hnil, rfl⟩ | ⟨hne, rfl⟩
    · obtain rfl := List.map_eq_nil_iff.1 hnil
      exact .var hname
    · exact .index hname (mt List.map_eq_nil_iff.2 hne) hindices

theorem Sound.core (h : Sound (Derives expression) (read p)) : Sound (Derives .core) (read (core p)) := by
  intro xs e ys hxs hr
  rw [read_core, Option.or_eq_some_iff, Option.or_eq_some_iff, Option.or_eq_some_iff] at hr
  rcases hr with hcall | ⟨-, hinteger | ⟨-, hvariable | ⟨-, hgroup⟩⟩⟩
  · obtain ⟨⟨c, ys⟩, hc, ⟨⟩⟩ := Option.map_eq_some_iff.1 hcall
    obtain ⟨ws, rfl, hws⟩ := h.callOver xs c ys hxs hc
    exact ⟨ws, rfl, .applied hws⟩
  · obtain ⟨⟨n, ys⟩, hn, ⟨⟩⟩ := Option.map_eq_some_iff.1 hinteger
    obtain ⟨x, rfl, hx⟩ := (readNext_eq_some_iff (show integer? .ending = none from rfl)).1 hn
    obtain ⟨hkind, -⟩ := Option.ite_none_right_eq_some.1 hx
    have hvalue := (hxs x List.mem_cons_self).inRange hkind
    obtain rfl := Option.some_inj.1 (hx.symm.trans hvalue)
    obtain ⟨k, digits⟩ := x
    obtain rfl : k = .integer := hkind
    exact ⟨_, rfl, .literal digits⟩
  · exact h.variableOver xs e ys hxs hvariable
  · obtain ⟨_, rfl, vs, rfl, hvs⟩ := h.between "(" ")" xs e ys hxs hgroup
    exact ⟨_, rfl, .group hvs⟩

end

theorem sound_operand (n : Nat) : Sound (Derives .operand) (read (operand n)) := by
  induction n with
  | zero => exact nofun
  | succ n ih =>
    intro xs e ys hxs hr
    rw [read_operand_succ, Option.or_eq_some_iff] at hr
    rcases hr with hunary | ⟨-, hcore⟩
    · obtain ⟨⟨op, zs⟩, hop, hrest⟩ := Option.bind_eq_some_iff.1 hunary
      obtain ⟨⟨e', ys⟩, he', ⟨⟩⟩ := Option.bind_eq_some_iff.1 hrest
      obtain ⟨x, rfl, hx⟩ := read_unaryOp_eq_some_iff.1 hop
      obtain ⟨ws, rfl, hws⟩ := ih zs e' ys (List.forall_mem_cons.1 hxs).2 he'
      exact ⟨x :: ws, rfl, .unary (mem_of_unaryOp? hx) hws⟩
    · obtain ⟨ws, rfl, hws⟩ := ih.exprOver.core xs e ys hxs hcore
      exact ⟨ws, rfl, .core hws⟩

theorem sound_expr : Sound (Derives expression) (read expr) := by
  intro xs e ys hxs hr
  rw [read_expr (Nat.lt_succ_self xs.length)] at hr
  exact (sound_operand _).exprOver xs e ys hxs hr

theorem sound_call : Sound (fun ws c => Derives .call ws c.toExpr) (read call) := sound_expr.callOver

/-! ### Movements -/

theorem sound_condition : Sound (fun ws c => c.Derives ws) (read condition) := by
  intro xs c ys hxs hr
  rw [read_condition, Option.or_eq_some_iff] at hr
  rcases hr with hr | ⟨-, hr⟩
  · obtain ⟨⟨c, ys⟩, hc, ⟨⟩⟩ := Option.bind_eq_some_iff.1 hr
    exact sound_call xs c ys hxs hc
  · obtain ⟨⟨name, ys⟩, hname, ⟨⟩⟩ := Option.bind_eq_some_iff.1 hr
    exact ⟨[.word name], read_word_eq_some_iff.1 hname, rfl⟩

theorem sound_effect : Sound (fun ws e => Letter.EffectDerives e ws)
    (read (optional (between "\x7b" "\x7d" call))) := by
  intro xs e ys hxs hr
  rw [read_optional] at hr
  cases hcall : read (Parser.between "\x7b" "\x7d" call) xs with
  | none =>
    rw [hcall] at hr
    cases hr
    exact ⟨[], rfl, rfl⟩
  | some x =>
    rw [hcall] at hr
    cases hr
    exact sound_call.between "\x7b" "\x7d" xs x.1 x.2 hxs hcall

theorem sound_letter : Sound (fun ws l => MovementForm.term.Derives ws (.letter l)) (read letter) := by
  intro xs l ys hxs hr
  obtain ⟨c, c', xs₁, xs₂, xs₃, xs₄, rfl, hdx, hdy, hcondition, heffect⟩ := read_letter_eq_some_iff.1 hr
  obtain ⟨vs, rfl, hvs⟩ := sound_expr xs₁ l.dx _ (List.forall_mem_cons.1 hxs).2 hdx
  have hxs₂ := (List.forall_mem_append.1 (List.forall_mem_cons.1 hxs).2).2
  obtain ⟨ws, rfl, hws⟩ := sound_expr xs₂ l.dy _ (List.forall_mem_cons.1 hxs₂).2 hdy
  have hxs₃ := (List.forall_mem_append.1 (List.forall_mem_cons.1 hxs₂).2).2
  obtain ⟨cs, rfl, hcs⟩ := sound_condition xs₃ l.condition _ (List.forall_mem_cons.1 hxs₃).2 hcondition
  have hxs₄ := (List.forall_mem_append.1 (List.forall_mem_cons.1 hxs₃).2).2
  obtain ⟨es, rfl, hes⟩ := sound_effect xs₄ l.effect ys (List.forall_mem_cons.1 hxs₄).2 heffect
  obtain rfl := comma_of_scanned (List.forall_mem_cons.1 hxs₂).1
  obtain rfl := comma_of_scanned (List.forall_mem_cons.1 hxs₃).1
  exact ⟨_, (letter_append vs ws cs es ys).symm, .letter hvs hws hcs hes⟩

theorem mem_repetitions {x : Lexeme} {wrap : Movement → Movement} (h : repetition? x.toToken = some wrap) :
    (x, wrap) ∈ repetitions := by
  rcases repetition?_eq_some h with ⟨rfl, rfl⟩ | ⟨rfl, rfl⟩ | ⟨rfl, rfl⟩ <;> simp [repetitions]

section
variable {p : Parser Movement} [Readable p]

theorem Sound.term (h : Sound MovementForm.union.Derives (read p)) :
    Sound MovementForm.term.Derives (read (term p)) := by
  intro xs m ys hxs hr
  rw [read_term, Option.or_eq_some_iff, Option.or_eq_some_iff] at hr
  rcases hr with hcall | ⟨-, hgroup | ⟨-, hletter⟩⟩
  · obtain ⟨⟨c, ys⟩, hc, ⟨⟩⟩ := Option.bind_eq_some_iff.1 hcall
    obtain ⟨ws, rfl, hws⟩ := sound_call xs c ys hxs hc
    exact ⟨ws, rfl, .expand hws⟩
  · obtain ⟨_, rfl, vs, rfl, hvs⟩ := h.between "(" ")" xs m ys hxs hgroup
    exact ⟨_, rfl, .group hvs⟩
  · obtain ⟨⟨l, ys⟩, hl, ⟨⟩⟩ := Option.bind_eq_some_iff.1 hletter
    exact sound_letter xs l ys hxs hl

theorem Sound.repeated (h : Sound MovementForm.union.Derives (read p)) :
    Sound MovementForm.repeated.Derives (read (repeated p)) := by
  intro xs m ys hxs hr
  rw [read_repeated] at hr
  obtain ⟨⟨inner, zs⟩, hterm, hrepetition⟩ := Option.bind_eq_some_iff.1 hr
  obtain ⟨ws, rfl, hws⟩ := h.term xs inner zs hxs hterm
  rcases readRepetition_eq_some hrepetition with ⟨x, wrap, rfl, hx, rfl⟩ | ⟨rfl, rfl⟩
  · exact ⟨ws ++ [x], by simp, .repeated hws (mem_repetitions hx)⟩
  · exact ⟨ws, rfl, .once hws⟩

theorem Sound.concatenation (h : Sound MovementForm.union.Derives (read p)) :
    Sound MovementForm.row.Derives (read (concatenation p)) := by
  have hitem : Sound (fun ws m => ∃ q : MovementPhrase, MovementForm.repeated.Derives q.1 q.2 ∧ ws = q.1 ∧
      m = q.2) (read (Parser.repeated p)) := h.repeated.mono fun ws m hws => ⟨(ws, m), hws, rfl, rfl⟩
  intro xs m ys hxs hr
  rw [read_concatenation] at hr
  obtain ⟨⟨first, zs⟩, hfirst, heq⟩ := Option.bind_eq_some_iff.1 hr
  obtain ⟨ws, rfl, hws⟩ := h.repeated xs first zs hxs hfirst
  obtain ⟨rest, hrest, hzs, hms⟩ := hitem.chain (chain_readMany (read (Parser.repeated p)) zs)
    (List.forall_mem_append.1 hxs).2
  cases heq
  refine ⟨ws ++ rest.flatMap Prod.fst, by rw [List.append_assoc]; exact congrArg (ws ++ ·) hzs, ?_⟩
  rw [hms]
  exact .row hws hrest

end

theorem sound_movementWithin (n : Nat) : Sound MovementForm.union.Derives (read (movementWithin n)) := by
  induction n with
  | zero => exact nofun
  | succ n ih =>
    intro xs m ys hxs hr
    rw [read_movementWithin_succ] at hr
    obtain ⟨x, hleft, hrest⟩ := Option.bind_eq_some_iff.1 hr
    obtain ⟨ws, rfl, hws⟩ := ih.concatenation xs x.1 x.2 hxs hleft
    cases hright : read (operator "|" >>= fun _ => movementWithin n) x.2 with
    | none =>
      simp only [hright] at hrest
      cases hrest
      exact ⟨ws, rfl, .alone hws⟩
    | some y =>
      simp only [hright] at hrest
      cases hrest
      obtain ⟨⟨_, us⟩, hbar, hmovement⟩ := Option.bind_eq_some_iff.1 hright
      rw [read_operator_eq_some_iff.1 hbar] at hxs ⊢
      have hus := (List.forall_mem_cons.1 (List.forall_mem_append.1 hxs).2).2
      obtain ⟨vs, rfl, hvs⟩ := ih us y.1 y.2 hus hmovement
      exact ⟨ws ++ .operator "|" :: vs, by simp, .union hws hvs⟩

theorem sound_movement : Sound MovementForm.union.Derives (read movement) := by
  intro xs m ys hxs hr
  rw [read_movement (Nat.lt_succ_self xs.length)] at hr
  exact sound_movementWithin _ xs m ys hxs hr

end Parser
end BoardGame
