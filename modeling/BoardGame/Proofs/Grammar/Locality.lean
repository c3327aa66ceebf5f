import BoardGame.Proofs.Grammar.Derivation.Sound
import BoardGame.Proofs.Grammar.Reread.Program

/-!
# Declarations are read from their own lexemes

Where an expression ends depends on what follows, a declaration ends with its own semicolon. So a reading is
`Local` up to what may follow it: with other lexemes behind those that it takes, the result is the same. One
lemma a combinator; in a declaration what may follow a part is the next lexeme of the declaration
(`Local.before`), and nothing is left open at its end (`local_declaration`).
-/

namespace BoardGame.Parser
open Lexeme (next Scanned)
variable {α β γ : Type} {N M : Lexeme → Prop} {r : Reading α} {u : Reading γ} {xs ys : List Lexeme}

/-! ### Local readings -/

/-- The result is that of the lexemes that are taken, whatever follows them, if `N` holds of the next one. -/
def Local (N : Lexeme → Prop) (r : Reading α) : Prop :=
  ∀ xs a ys, (∀ x ∈ xs, x.Scanned) → r xs = some (a, ys) →
    ∃ ws, xs = ws ++ ys ∧ (N (next ys) → ∀ zs, N (next zs) → r (ws ++ zs) = some (a, zs))

/-- Takes one lexeme, of which `N` holds. -/
def TakesOne (N : Lexeme → Prop) (u : Reading γ) : Prop :=
  ∀ xs c ys, (∀ x ∈ xs, x.Scanned) → u xs = some (c, ys) →
    ∃ x, xs = x :: ys ∧ N x ∧ ∀ zs, u (x :: zs) = some (c, zs)

/-- Anything may follow. -/
abbrev Anything : Lexeme → Prop := fun _ => True

theorem TakesOne.mono (h : TakesOne N u) (hM : ∀ x, N x → M x) : TakesOne M u := by
  intro xs c ys hxs hu
  obtain ⟨x, hsplit, hx, hzs⟩ := h xs c ys hxs hu
  exact ⟨x, hsplit, hM x hx, hzs⟩

theorem TakesOne.local (h : TakesOne N u) : Local M u := by
  intro xs c ys hxs hu
  obtain ⟨x, hsplit, -, hzs⟩ := h xs c ys hxs hu
  exact ⟨[x], hsplit, fun _ zs _ => hzs zs⟩

theorem local_pure (a : α) : Local N fun xs => some (a, xs) := by
  intro xs b ys _ h
  cases h
  exact ⟨[], rfl, fun _ _ _ => rfl⟩

theorem local_none : Local N (fun _ => none : Reading α) := fun _ _ _ _ => nofun

theorem Local.bind {t : α → Reading β} (hr : Local Anything r) (ht : ∀ a, Local M (t a)) :
    Local M (r.bind t) := by
  intro xs b zs hxs h
  obtain ⟨⟨a, ys⟩, ha, hb⟩ := Option.bind_eq_some_iff.1 h
  obtain ⟨ws, rfl, hws⟩ := hr xs a ys hxs ha
  obtain ⟨vs, rfl, hvs⟩ := ht a ys b zs (List.forall_mem_append.1 hxs).2 hb
  refine ⟨ws ++ vs, (List.append_assoc ws vs zs).symm, fun hzs zs' hzs' => ?_⟩
  rw [List.append_assoc, Reading.bind, hws trivial _ trivial]
  exact hvs hzs zs' hzs'

theorem Local.map {f : α → β} (hr : Local N r) : Local N (r.bind fun a xs => some (f a, xs)) := by
  intro xs b ys hxs h
  obtain ⟨⟨a, ys⟩, ha, hb⟩ := Option.bind_eq_some_iff.1 h
  cases hb
  obtain ⟨ws, rfl, hws⟩ := hr xs a ys hxs ha
  refine ⟨ws, rfl, fun hys zs hzs => ?_⟩
  rw [Reading.bind, hws hys zs hzs]
  rfl

/-- What follows `r` is the lexeme that comes next. -/
theorem Local.before {t : α → γ → Reading β} (hr : Local N r) (hu : TakesOne N u)
    (ht : ∀ a c, Local M (t a c)) : Local M (r.bind fun a => Reading.bind u (t a)) := by
  intro xs b zs hxs h
  obtain ⟨⟨a, ys⟩, ha, hb⟩ := Option.bind_eq_some_iff.1 h
  obtain ⟨⟨c, ys⟩, hc, hb⟩ := Option.bind_eq_some_iff.1 hb
  obtain ⟨ws, rfl, hws⟩ := hr xs a _ hxs ha
  obtain ⟨x, rfl, hx, hu⟩ := hu _ c ys (List.forall_mem_append.1 hxs).2 hc
  obtain ⟨vs, rfl, hvs⟩ :=
    ht a c ys b zs (List.forall_mem_cons.1 (List.forall_mem_append.1 hxs).2).2 hb
  refine ⟨ws ++ x :: vs, by simp, fun hzs zs' hzs' => ?_⟩
  have hread : r (ws ++ x :: (vs ++ zs')) = some (a, x :: (vs ++ zs')) := hws hx _ hx
  rw [List.append_assoc, List.cons_append, Reading.bind, hread, Option.bind_some, Reading.bind, hu,
    Option.bind_some]
  exact hvs hzs zs' hzs'

/-- What is chosen by the next lexeme, and takes it. -/
theorem Local.of_next {choose : Lexeme → Reading α} (hr : ∀ x, Local M (choose x))
    (hadvances : Advances fun xs => choose (next xs) xs) : Local M fun xs => choose (next xs) xs := by
  intro xs a ys hxs h
  obtain ⟨ws, rfl, hws⟩ := hr (next xs) xs a ys hxs h
  cases ws with
  | nil => exact absurd (hadvances _ a _ h) (Nat.lt_irrefl _)
  | cons x ws => exact ⟨x :: ws, rfl, hws⟩

/-! ### Lists and brackets -/

theorem takesOne_word : TakesOne (fun x => x.kind = .word) (read word) := by
  intro xs s ys _ h
  exact ⟨_, read_word_eq_some_iff.1 h, rfl, fun _ => read_word_cons⟩

theorem takesOne_keyword (literal : String) : TakesOne (· = .word literal) (read (keyword literal)) := by
  intro xs _ ys _ h
  exact ⟨_, read_keyword_eq_some_iff.1 h, rfl, fun _ => read_keyword_cons⟩

theorem takesOne_symbol (literal : String) : TakesOne (· = .symbol literal) (read (symbol literal)) := by
  intro xs _ ys _ h
  exact ⟨_, read_symbol_eq_some_iff.1 h, rfl, fun _ => read_symbol_cons⟩

theorem takesOne_operator (literal : String) : TakesOne (· = .operator literal) (read (operator literal)) := by
  intro xs _ ys _ h
  exact ⟨_, read_operator_eq_some_iff.1 h, rfl, fun _ => read_operator_cons⟩

theorem takesOne_comma : TakesOne (· = .comma) (read comma) := by
  intro xs _ ys hxs h
  obtain ⟨literal, rfl⟩ := read_comma_eq_some_iff.1 h
  obtain rfl := comma_of_scanned (List.forall_mem_cons.1 hxs).1
  exact ⟨_, rfl, rfl, fun _ => read_comma_cons⟩

theorem takesOne_semicolon : TakesOne (· = .semicolon) (read semicolon) := by
  intro xs _ ys hxs h
  obtain ⟨literal, rfl⟩ := read_semicolon_eq_some_iff.1 h
  have hscanned : Lexeme.Scanned ⟨.semicolon, literal⟩ := (List.forall_mem_cons.1 hxs).1
  obtain rfl : literal = ";" := hscanned.text_of_kind nofun
  exact ⟨_, rfl, rfl, fun _ => read_semicolon_cons⟩

section
variable {p : Parser α} [Readable p]

/-- As many items as there are, in front of something that is none. -/
theorem Local.many (h : Local Anything (read p)) (hp : Advances (read p))
    (hN : ∀ zs, N (next zs) → read p zs = none) : Local N (read (many p)) := by
  have hchain : ∀ {xs as ys}, Chain (read p) xs as ys → (∀ x ∈ xs, x.Scanned) →
      ∃ ws, xs = ws ++ ys ∧ ∀ zs, Chain (read p) (ws ++ zs) as zs := by
    intro xs as ys hall hxs
    induction hall with
    | nil => exact ⟨[], rfl, .nil⟩
    | cons head _ ih =>
      obtain ⟨ws, rfl, hws⟩ := h _ _ _ hxs head
      obtain ⟨vs, rfl, hvs⟩ := ih (List.forall_mem_append.1 hxs).2
      refine ⟨ws ++ vs, (List.append_assoc _ _ _).symm, fun zs => ?_⟩
      rw [List.append_assoc]
      exact .cons (hws trivial _ trivial) (hvs zs)
  intro xs as ys hxs hread
  rw [read_many, Option.some_inj] at hread
  have hall := chain_readMany (read p) xs
  rw [hread] at hall
  obtain ⟨ws, hsplit, hws⟩ := hchain hall hxs
  exact ⟨ws, hsplit, fun _ zs hzs => by rw [read_many, (hws zs).readMany_eq hp (hN zs hzs)]⟩

theorem Local.between {left right : String} (h : Local N (read p)) (hright : N (.symbol right)) :
    Local M (read (between left right p)) := by
  have hread : read (Parser.between left right p) = Reading.bind (read (symbol left)) fun _ =>
    Reading.bind (read p) fun a => Reading.bind (read (symbol right)) fun _ xs => some (a, xs) := rfl
  rw [hread]
  have hsymbol : TakesOne N (read (symbol right)) := (takesOne_symbol right).mono fun x hx => hx ▸ hright
  exact (takesOne_symbol left).local.bind fun _ => h.before hsymbol fun a _ => local_pure a

theorem Local.separated (h : Local Anything (read p)) (hN : ∀ x, N x → x.kind ≠ .comma) :
    Local N (read (separated p)) := by
  have hread : read (Parser.separated p) = Reading.bind (read p) fun a =>
    Reading.bind (read (Parser.many (comma >>= fun _ => p))) fun as xs => some (a :: as, xs) := rfl
  have hitem : Local Anything (read (comma >>= fun _ => p)) := takesOne_comma.local.bind fun _ => h
  rw [hread]
  exact h.bind fun a => (hitem.many (advances_readItem p) fun zs hzs => readItem_eq_none (hN _ hzs)).map

theorem Local.separatedOrNone (h : Local Anything (read p)) (hN : ∀ x, N x → x.kind ≠ .comma)
    (hnone : ∀ zs, N (next zs) → read p zs = none) : Local N (read (separatedOrNone p)) := by
  intro xs as ys hxs hread
  rw [read_separatedOrNone] at hread
  cases hsome : read (Parser.separated p) xs with
  | none =>
    rw [hsome] at hread
    cases hread
    refine ⟨[], rfl, fun _ zs hzs => ?_⟩
    rw [List.nil_append, read_separatedOrNone, read_separated, hnone zs hzs]
    rfl
  | some x =>
    rw [hsome] at hread
    cases hread
    obtain ⟨ws, rfl, hws⟩ := h.separated hN xs x.1 x.2 hxs hsome
    refine ⟨ws, rfl, fun hys zs hzs => ?_⟩
    rw [read_separatedOrNone, hws hys zs hzs]
    rfl

end

/-! ### Expressions and movements -/

/-- If some result is read again in front of each lexeme that may follow, it is the result that was read. -/
theorem Local.of_again (h : ∀ xs a ys, (∀ x ∈ xs, x.Scanned) → r xs = some (a, ys) →
    ∃ ws b, xs = ws ++ ys ∧ ∀ zs, N (next zs) → r (ws ++ zs) = some (b, zs)) : Local N r := by
  intro xs a ys hxs hr
  obtain ⟨ws, b, rfl, hws⟩ := h xs a ys hxs hr
  refine ⟨ws, rfl, fun hys zs hzs => ?_⟩
  obtain ⟨rfl, -⟩ := Prod.mk.inj (Option.some_inj.1 (hr.symm.trans (hws ys hys)))
  exact hws zs hzs

/-- An expression in front of what ends one is read as such from its lexemes. -/
theorem local_expr : Local (· ∈ closers) (read expr) := by
  refine .of_again fun xs e ys hxs hread => ?_
  obtain ⟨ws, rfl, hws⟩ := sound_expr xs e ys hxs hread
  exact ⟨ws, _, rfl, fun _ => read_expr_of_derives hws fun x hx =>
    ((List.forall_mem_append.1 hxs).1 x hx).inRange⟩

theorem local_movement : Local EndsMovement (read movement) := by
  refine .of_again fun xs m ys hxs hread => ?_
  obtain ⟨ws, rfl, hws⟩ := sound_movement xs m ys hxs hread
  exact ⟨ws, _, rfl, fun _ => read_movement_of_derives hws fun x hx =>
    ((List.forall_mem_append.1 hxs).1 x hx).inRange⟩

theorem takesOne_closing : TakesOne (· ∈ closers) (read semicolon) :=
  takesOne_semicolon.mono fun x hx => by simp [hx, closers]

theorem local_indices : Local (· = .operator "=") (read (indices expr)) := by
  have hindex : Local Anything (read (between "[" "]" expr)) := local_expr.between (by simp [closers])
  refine hindex.many (advances_between expr) fun zs hzs => read_between_eq_none ?_
  rw [hzs]
  decide

/-! ### Declarations -/

theorem local_params : Local M (read params) := by
  have hwords : Local (· = .symbol ")") (read (separatedOrNone word)) :=
    Local.separatedOrNone takesOne_word.local (fun x hx => by rw [hx]; nofun) fun zs hzs =>
      read_word_eq_none (by rw [hzs]; nofun)
  exact hwords.between rfl

theorem local_returnBlock : Local M (read returnBlock) := by
  rw [read_returnBlock]
  exact (takesOne_symbol _).local.bind fun _ => (takesOne_keyword _).local.bind fun _ =>
    local_expr.before takesOne_closing fun value _ => (takesOne_symbol _).local.bind fun _ =>
    takesOne_semicolon.local.bind fun _ => local_pure value

theorem local_assignment : Local M (read assignment) := by
  rw [read_assignment]
  exact takesOne_word.local.bind fun target => local_indices.before (takesOne_operator "=") fun is _ =>
    local_expr.before takesOne_closing fun value _ => local_pure _

theorem local_assignments : Local M (read (between "\x7b" "\x7d" (many assignment))) := by
  have hmany : Local (· = .symbol "\x7d") (read (many assignment)) :=
    Local.many local_assignment advances_assignment fun zs hzs => read_assignment_eq_none (by rw [hzs]; nofun)
  exact hmany.between rfl

theorem local_rule : Local M (read rule) := by
  rw [read_rule]
  exact (takesOne_keyword _).local.bind fun _ => takesOne_word.local.bind fun piece =>
    (takesOne_operator _).local.bind fun _ =>
    local_movement.before (takesOne_semicolon.mono fun _ => Or.inr ∘ Or.inl) fun m _ => local_pure _

theorem local_moveMacro : Local M (read moveMacro) := by
  rw [read_moveMacro]
  exact (takesOne_keyword _).local.bind fun _ => takesOne_word.local.bind fun name =>
    local_params.bind fun params => (takesOne_operator _).local.bind fun _ =>
    local_movement.before (takesOne_semicolon.mono fun _ => Or.inr ∘ Or.inl) fun m _ => local_pure _

theorem local_predicate : Local M (read predicate) := by
  rw [read_predicate]
  exact (takesOne_keyword _).local.bind fun _ => takesOne_word.local.bind fun name =>
    local_params.bind fun params => local_returnBlock.bind fun body => local_pure _

theorem local_effect : Local M (read effect) := by
  rw [read_effect]
  exact (takesOne_keyword _).local.bind fun _ => takesOne_word.local.bind fun name =>
    local_params.bind fun params => local_assignments.bind fun assignments =>
    takesOne_semicolon.local.bind fun _ => local_pure _

theorem local_variableDecl : Local M (read variableDecl) := by
  rw [read_variableDecl]
  exact (takesOne_keyword _).local.bind fun _ => takesOne_word.local.bind fun name =>
    (takesOne_operator _).local.bind fun _ => local_expr.before takesOne_closing fun value _ => local_pure _

theorem local_victory : Local M (read victory) := by
  rw [read_victory]
  exact (takesOne_keyword _).local.bind fun _ => takesOne_word.local.bind fun player =>
    local_returnBlock.bind fun condition => local_pure _

/-- The reading of the declaration that begins with this word. -/
def readKind (x : Lexeme) : Reading Declaration :=
  if x = ⟨.word, "rule"⟩ then read rule
  else if x = ⟨.word, "macro"⟩ then read moveMacro
  else if x = ⟨.word, "predicate"⟩ then read predicate
  else if x = ⟨.word, "effect"⟩ then read effect
  else if x = ⟨.word, "variable"⟩ then read variableDecl
  else if x = ⟨.word, "victory"⟩ then read victory
  else fun _ => none

theorem local_readKind (x : Lexeme) : Local M (readKind x) := by
  unfold readKind
  split
  · exact local_rule
  split
  · exact local_moveMacro
  split
  · exact local_predicate
  split
  · exact local_effect
  split
  · exact local_variableDecl
  split
  · exact local_victory
  · exact local_none

theorem read_declaration_eq_readKind : read declaration = fun xs => readKind (next xs) xs := by
  funext xs
  rw [read_declaration, readKind]
  simp only [apply_ite (fun r : Reading Declaration => r xs)]

/-- A declaration is read from its lexemes whatever follows it. -/
theorem local_declaration : Local M (read declaration) := by
  have hadvances := advances_declaration
  rw [read_declaration_eq_readKind] at hadvances ⊢
  exact .of_next local_readKind hadvances

end BoardGame.Parser
