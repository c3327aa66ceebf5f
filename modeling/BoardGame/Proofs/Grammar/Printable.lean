import BoardGame.Proofs.Grammar.Places
import BoardGame.Proofs.Grammar.Reread.Expr

/-!
# What is read can be written

From lexemes as a text splits into them, only printable trees are read (`yields_bareProgram`). The one
condition that is more than a word being a word is that no operand is a call of `not` with one
argument: `not` before a bracket is tried as an operator first.
-/

namespace BoardGame
namespace Parser
open Lexeme (next Spelled)
variable {α β : Type} {n : Nat}

/-! ### Readings and what they yield -/

/-- What is read from at most `n` spelled lexemes is a `Q`. -/
def Yields (n : Nat) (r : Reading α) (Q : α → Prop) : Prop :=
  ∀ xs a ys, xs.length ≤ n → (∀ x ∈ xs, x.Spelled) → r xs = some (a, ys) → Q a

section
variable {r s : Reading α} {Q : α → Prop} {R : β → Prop}

theorem Yields.mono {m : Nat} (h : Yields n r Q) (hm : m ≤ n) : Yields m r Q :=
  fun xs a ys hxs => h xs a ys (Nat.le_trans hxs hm)

theorem yields_true : Yields n r fun _ => True := fun _ _ _ _ _ _ => trivial

theorem yields_pure {a : α} (h : Q a) : Yields n (fun xs => some (a, xs)) Q := by
  intro xs b ys _ _ hr
  cases hr
  exact h

theorem Yields.or (h : Yields n r Q) (h' : Yields n s Q) : Yields n (fun xs => (r xs).or (s xs)) Q := by
  intro xs a ys hxs hspelled hr
  rcases Option.or_eq_some_iff.1 hr with hr | ⟨-, hr⟩
  · exact h xs a ys hxs hspelled hr
  · exact h' xs a ys hxs hspelled hr

end

section
variable {p : Parser α} [Readable p] {Q : α → Prop} {R : β → Prop}

theorem Yields.bind {t : α → Reading β} (h : Yields n (read p) Q) (ht : ∀ a, Q a → Yields n (t a) R) :
    Yields n (Reading.bind (read p) t) R := by
  intro xs b ys hxs hspelled hr
  obtain ⟨x, hx, hrest⟩ := Option.bind_eq_some_iff.1 hr
  have hsuffix := suffix_of_read hx
  exact ht x.1 (h xs x.1 x.2 hxs hspelled hx) x.2 b ys (Nat.le_trans hsuffix.length_le hxs)
    (fun y hy => hspelled y (hsuffix.mem hy)) hrest

/-- Nothing is to be said about the first of two readings. -/
theorem yields_bind {t : α → Reading β} (ht : ∀ a, Yields n (t a) R) :
    Yields n (Reading.bind (read p) t) R := Yields.bind yields_true fun a _ => ht a

theorem Yields.chain (h : Yields n (read p) Q) {xs ys : List Lexeme} {as : List α}
    (hchain : Chain (read p) xs as ys) (hxs : xs.length ≤ n) (hspelled : ∀ x ∈ xs, x.Spelled) :
    ∀ a ∈ as, Q a := by
  induction hchain with
  | nil => exact nofun
  | cons head _ ih =>
    have hsuffix := suffix_of_read head
    exact List.forall_mem_cons.2 ⟨h _ _ _ hxs hspelled head,
      ih (Nat.le_trans hsuffix.length_le hxs) fun y hy => hspelled y (hsuffix.mem hy)⟩

theorem Yields.many (h : Yields n (read p) Q) : Yields n (read (many p)) fun as => ∀ a ∈ as, Q a := by
  intro xs as ys hxs hspelled hr
  have hchain := chain_readMany (read p) xs
  rw [Option.some_inj.1 hr] at hchain
  exact h.chain hchain hxs hspelled

theorem Yields.between (left right : String) (h : Yields n (read p) Q) :
    Yields (n + 1) (read (between left right p)) Q := by
  intro xs a ys hxs hspelled hr
  obtain ⟨zs, rfl, hp⟩ := (read_between_eq_some_iff p).1 hr
  exact h zs a _ (by simpa using hxs) (List.forall_mem_cons.1 hspelled).2 hp

theorem Yields.optional (h : Yields n (read p) Q) : Yields n (read (optional p)) fun o => ∀ a ∈ o, Q a := by
  intro xs o ys hxs hspelled hr
  rw [read_optional] at hr
  cases hp : read p xs with
  | none =>
    simp only [hp] at hr
    cases hr
    exact nofun
  | some x =>
    simp only [hp] at hr
    cases hr
    rintro a ⟨⟩
    exact h xs x.1 x.2 hxs hspelled hp

theorem Yields.separated (h : Yields n (read p) Q) :
    Yields n (read (separated p)) fun as => as ≠ [] ∧ ∀ a ∈ as, Q a := by
  have hitem : Yields n (read (comma >>= fun _ => p)) Q := yields_bind fun _ => h
  intro xs as ys hxs hspelled hr
  rw [read_separated] at hr
  obtain ⟨x, hx, heq⟩ := Option.map_eq_some_iff.1 hr
  cases heq
  have hsuffix := suffix_of_read hx
  refine ⟨nofun, List.forall_mem_cons.2 ⟨h xs x.1 x.2 hxs hspelled hx, ?_⟩⟩
  exact hitem.chain (chain_readMany _ _) (Nat.le_trans hsuffix.length_le hxs)
    fun y hy => hspelled y (hsuffix.mem hy)

theorem Yields.separatedOrNone (h : Yields n (read p) Q) :
    Yields n (read (separatedOrNone p)) fun as => ∀ a ∈ as, Q a := by
  intro xs as ys hxs hspelled hr
  rw [read_separatedOrNone] at hr
  cases hp : read (Parser.separated p) xs with
  | none =>
    rw [hp] at hr
    cases hr
    exact nofun
  | some x =>
    rw [hp] at hr
    cases hr
    exact (h.separated xs x.1 x.2 hxs hspelled hp).2

end

theorem yields_word : Yields n (read word) IsWord := by
  intro xs literal ys _ hspelled hr
  rw [read_word_eq_some_iff.1 hr] at hspelled
  exact (hspelled _ List.mem_cons_self).word rfl

theorem yields_integer : Yields n (read integer) IsUnsigned := by
  intro xs m ys _ hspelled hr
  obtain ⟨x, rfl, hx⟩ := (readNext_eq_some_iff (show integer? .ending = none from rfl)).1 hr
  obtain ⟨hkind, hread⟩ := Option.ite_none_right_eq_some.1 hx
  exact isUnsigned_of_readInt64? ((hspelled x List.mem_cons_self).integer hkind) hread

/-! ### Expressions -/

section
variable {p : Parser Expr} [Readable p]

theorem Yields.leftAssoc (level : List (String × BinaryOp)) (h : Yields n (read p) Expr.Printable) :
    Yields n (read (leftAssoc level p)) Expr.Printable := by
  have hpair : Yields n (Reading.bind (read (binaryOp level)) fun op => Reading.bind (read p) fun e xs =>
      some ((op, e), xs)) fun y => y.2.Printable := yields_bind fun op => h.bind fun e he => yields_pure he
  have hoperation : Yields n (read (binaryOp level >>= fun op => p >>= fun e => pure (op, e)))
      fun y => y.2.Printable := hpair
  intro xs e ys hxs hspelled hr
  rw [read_leftAssoc] at hr
  obtain ⟨x, hx, heq⟩ := Option.bind_eq_some_iff.1 hr
  cases heq
  have hsuffix := suffix_of_read hx
  have hrest := hoperation.chain (chain_readMany _ _) (Nat.le_trans hsuffix.length_le hxs)
    fun y hy => hspelled y (hsuffix.mem hy)
  exact List.foldlRecOn _ _ (h xs x.1 x.2 hxs hspelled hx) fun l hl y hy => ⟨hl, hrest y hy⟩

theorem Yields.exprOver (h : Yields n (read p) Expr.Printable) :
    Yields n (read (exprOver p)) Expr.Printable := by
  have hlevels := (((h.leftAssoc productOperators).leftAssoc sumOperators).leftAssoc
    comparisonOperators).leftAssoc logicOperators
  intro xs e ys hxs hspelled hr
  rw [read_exprOver] at hr
  exact hlevels xs e ys hxs hspelled hr

theorem Yields.callOver (h : Yields n (read p) Expr.Printable) :
    Yields (n + 1) (read (callOver p)) Call.Printable := by
  have hargs := h.separatedOrNone.between "(" ")"
  exact yields_word.bind fun name hname => hargs.bind fun args hargs =>
    yields_pure ⟨hname, Expr.printableAll_iff.2 hargs⟩

theorem Yields.variableOver (h : Yields n (read p) Expr.Printable) :
    Yields (n + 1) (read (variableOver p)) Expr.Printable := by
  have hindices := h.between "[" "]"
  intro xs e ys hxs hspelled hr
  obtain ⟨name, zs, rfl, hname, hzs⟩ := read_variableOver_eq_some p hr
  have hword : IsWord name := (hspelled _ List.mem_cons_self).word rfl
  have hrest := (List.forall_mem_cons.1 hspelled).2
  rcases hzs with ⟨key, rfl, rfl⟩ | ⟨is, hmany, hzs⟩
  · have hkey : IsWord key := (hrest _ (List.mem_cons_of_mem _ List.mem_cons_self)).word rfl
    exact ⟨hword, hname, hkey⟩
  · have hchain := chain_readMany (read (Parser.between "[" "]" p)) zs
    rw [hmany] at hchain
    have his := hindices.chain hchain (Nat.le_of_succ_le hxs) hrest
    rcases hzs with ⟨rfl, rfl⟩ | ⟨hne, rfl⟩
    · exact ⟨hword, hname⟩
    · exact ⟨hword, hname, hne, Expr.printableAll_iff.2 his⟩

end

/-- No call of `not` with one argument is read as an operand: the operator would have been read. -/
theorem printable_of_read_core (h : Yields n (read (operand (n + 1))) Expr.Printable) {xs ys : List Lexeme}
    {e : Expr} (hxs : xs.length ≤ n + 1) (hspelled : ∀ x ∈ xs, x.Spelled)
    (hunary : (read unaryOp xs).bind (fun x => (read (operand (n + 1)) x.2).bind fun y =>
      some (Expr.unary x.1 y.1, y.2)) = none)
    (hr : read (core (exprOver (operand (n + 1)))) xs = some (e, ys)) : e.Printable := by
  rw [read_core, Option.or_eq_some_iff, Option.or_eq_some_iff, Option.or_eq_some_iff] at hr
  rcases hr with hcall | ⟨-, hinteger | ⟨-, hvariable | ⟨-, hgroup⟩⟩⟩
  · obtain ⟨⟨c, zs⟩, hc, heq⟩ := Option.map_eq_some_iff.1 hcall
    cases heq
    have hprintable := h.exprOver.callOver xs c zs hxs hspelled hc
    refine ⟨hprintable.1, fun ⟨hname, hlength⟩ => ?_, hprintable.2⟩
    obtain ⟨ws, rfl, hargs⟩ := (read_callOver_eq_some_iff _).1 hc
    obtain ⟨a, ha⟩ := List.length_eq_one_iff.1 hlength
    rw [ha] at hargs
    simp only [List.length_cons] at hxs
    have hagree : AgreeTo ws.length (read (operand (n + 1))) (read (operand n)) :=
      agreeTo_operand (by omega) (by omega)
    have harg : read (exprOver (operand n)) ws = some (a, .symbol ")" :: zs) :=
      (hagree.exprOver ws (Nat.le_refl _)).symm.trans (read_of_read_separatedOrNone hargs)
    have hgroup : read (operand (n + 1)) (.symbol "(" :: ws) = some (a, zs) := by
      rw [read_operand_bracket]
      exact (read_between_eq_some_iff _).2 ⟨ws, rfl, harg⟩
    have hnot : read unaryOp (.word c.name :: .symbol "(" :: ws) = some (.not, .symbol "(" :: ws) :=
      read_unaryOp_eq_some_iff.2 ⟨_, rfl, by simpa [unaryOp?] using hname⟩
    rw [hnot, Option.bind_some, hgroup] at hunary
    cases hunary
  · obtain ⟨x, hx, heq⟩ := Option.map_eq_some_iff.1 hinteger
    cases heq
    exact yields_integer xs x.1 x.2 hxs hspelled hx
  · exact h.exprOver.variableOver xs e ys hxs hspelled hvariable
  · exact h.exprOver.between _ _ xs e ys hxs hspelled hgroup

theorem yields_operand (n : Nat) : Yields n (read (operand (n + 1))) Expr.Printable := by
  induction n with
  | zero =>
    intro xs e ys hxs _ hr
    rw [List.length_eq_zero_iff.1 (Nat.le_zero.1 hxs), read_operand_nil] at hr
    cases hr
  | succ n ih =>
    intro xs e ys hxs hspelled hr
    rw [read_operand_succ, Option.or_eq_some_iff] at hr
    rcases hr with hunary | ⟨hunary, hcore⟩
    · obtain ⟨x, hop, hrest⟩ := Option.bind_eq_some_iff.1 hunary
      obtain ⟨y, hy, heq⟩ := Option.bind_eq_some_iff.1 hrest
      cases heq
      obtain ⟨_, rfl, -⟩ := read_unaryOp_eq_some_iff.1 hop
      exact ih x.2 y.1 y.2 (Nat.le_of_succ_le_succ hxs) (List.forall_mem_cons.1 hspelled).2 hy
    · exact printable_of_read_core ih hxs hspelled hunary hcore

theorem yields_expr : Yields n (read expr) Expr.Printable := by
  intro xs e ys _ hspelled hr
  rw [read_expr (Nat.lt_succ_self xs.length)] at hr
  exact (yields_operand xs.length).exprOver xs e ys (Nat.le_refl _) hspelled hr

theorem yields_call : Yields n (read call) Call.Printable := yields_expr.callOver.mono (Nat.le_succ n)

/-! ### Movements -/

theorem yields_condition : Yields n (read condition) Condition.Printable := by
  have hcall : Yields n (Reading.bind (read call) fun c xs => some (.call c, xs)) Condition.Printable :=
    yields_call.bind fun _ hc => yields_pure hc
  have hnamed : Yields n (Reading.bind (read word) fun name xs => some (.named name, xs))
      Condition.Printable := yields_word.bind fun _ hname => yields_pure hname
  exact hcall.or hnamed

theorem yields_letter : Yields n (read letter) Letter.Printable := by
  rw [read_letter]
  exact yields_bind fun _ => yields_expr.bind fun _ hdx => yields_bind fun _ =>
    yields_expr.bind fun _ hdy => yields_bind fun _ => yields_condition.bind fun _ hcondition =>
    yields_bind fun _ => ((yields_call.between "\x7b" "\x7d").mono (Nat.le_succ n)).optional.bind fun _ heffect =>
    yields_pure ⟨hdx, hdy, hcondition, heffect⟩

theorem yields_readRepetition {inner : Movement} (h : inner.Printable) :
    Yields n (readRepetition inner) Movement.Printable := by
  intro xs m ys _ _ hr
  rcases readRepetition_eq_some hr with ⟨x, wrap, -, hx, rfl⟩ | ⟨rfl, -⟩
  · rcases repetition?_eq_some hx with ⟨-, rfl⟩ | ⟨-, rfl⟩ | ⟨-, rfl⟩ <;> exact h
  · exact h

theorem printable_concatAll {m : Movement} {ms : List Movement} (h : ∀ k ∈ m :: ms, k.Printable) :
    (concatAll m ms).Printable := by
  induction ms generalizing m with
  | nil => exact h m List.mem_cons_self
  | cons k ms ih => exact ⟨h m List.mem_cons_self, ih fun k' hk' => h k' (List.mem_cons_of_mem m hk')⟩

section
variable {p : Parser Movement} [Readable p]

theorem Yields.repeated (h : Yields n (read p) Movement.Printable) :
    Yields n (read (repeated p)) Movement.Printable := by
  have hcall : Yields n (Reading.bind (read call) fun c xs => some (.expand c, xs)) Movement.Printable :=
    yields_call.bind fun _ hc => yields_pure hc
  have hgroup : Yields n (read (Parser.between "(" ")" p)) Movement.Printable :=
    (h.between "(" ")").mono (Nat.le_succ n)
  have hletter : Yields n (Reading.bind (read letter) fun l xs => some (.letter l, xs))
      Movement.Printable := yields_letter.bind fun _ hl => yields_pure hl
  have hterm : Yields n (read (term p)) Movement.Printable := hcall.or (hgroup.or hletter)
  exact hterm.bind fun _ hm => yields_readRepetition hm

theorem Yields.concatenation (h : Yields n (read p) Movement.Printable) :
    Yields n (read (concatenation p)) Movement.Printable :=
  h.repeated.bind fun _ hm => h.repeated.many.bind fun _ hms =>
    yields_pure (printable_concatAll (List.forall_mem_cons.2 ⟨hm, hms⟩))

end

theorem yields_movementWithin (k : Nat) : Yields n (read (movementWithin k)) Movement.Printable := by
  induction k with
  | zero => exact nofun
  | succ k ih =>
    intro xs m ys hxs hspelled hr
    rw [read_movementWithin_succ] at hr
    obtain ⟨x, hx, hr⟩ := Option.bind_eq_some_iff.1 hr
    have hleft := ih.concatenation xs x.1 x.2 hxs hspelled hx
    have hunion : Yields n (Reading.bind (read (operator "|")) fun _ => read (movementWithin k))
        Movement.Printable := yields_bind fun _ => ih
    cases hright : read (operator "|" >>= fun _ => movementWithin k) x.2 with
    | none =>
      simp only [hright] at hr
      cases hr
      exact hleft
    | some y =>
      simp only [hright] at hr
      cases hr
      have hsuffix := suffix_of_read hx
      exact ⟨hleft, hunion x.2 y.1 y.2 (Nat.le_trans hsuffix.length_le hxs)
        (fun z hz => hspelled z (hsuffix.mem hz)) hright⟩

theorem yields_movement : Yields n (read movement) Movement.Printable := by
  intro xs m ys hxs hspelled hr
  rw [read_movement (Nat.lt_succ_self xs.length)] at hr
  exact yields_movementWithin _ xs m ys hxs hspelled hr

/-! ### Declarations -/

theorem yields_params : Yields n (read params) fun ps => ∀ p ∈ ps, IsWord p :=
  (yields_word.separatedOrNone.between "(" ")").mono (Nat.le_succ n)

theorem yields_returnBlock : Yields n (read returnBlock) Expr.Printable := by
  rw [read_returnBlock]
  exact yields_bind fun _ => yields_bind fun _ => yields_expr.bind fun _ he => yields_bind fun _ =>
    yields_bind fun _ => yields_bind fun _ => yields_pure he

theorem yields_assignment : Yields n (read assignment) Assignment.Printable := by
  have hindices : Yields n (read (indices expr)) fun is => ∀ e ∈ is, e.Printable :=
    ((yields_expr.between "[" "]").mono (Nat.le_succ n)).many
  rw [read_assignment]
  exact yields_word.bind fun _ htarget => hindices.bind fun _ his => yields_bind fun _ =>
    yields_expr.bind fun _ he => yields_bind fun _ =>
    yields_pure ⟨htarget, Expr.printableAll_iff.2 his, he⟩

theorem yields_declaration : Yields n (read declaration) Declaration.Printable := by
  have hblock : Yields n (read (between "\x7b" "\x7d" (many assignment))) fun as => ∀ a ∈ as, a.Printable :=
    (yields_assignment.many.between "\x7b" "\x7d").mono (Nat.le_succ n)
  have hrule : Yields n (read rule) Declaration.Printable := by
    rw [read_rule]
    exact yields_bind fun _ => yields_word.bind fun _ hpiece => yields_bind fun _ =>
      yields_movement.bind fun _ hm => yields_bind fun _ => yields_pure ⟨hpiece, hm⟩
  have hmacro : Yields n (read moveMacro) Declaration.Printable := by
    rw [read_moveMacro]
    exact yields_bind fun _ => yields_word.bind fun _ hname => yields_params.bind fun _ hparams =>
      yields_bind fun _ => yields_movement.bind fun _ hm => yields_bind fun _ =>
      yields_pure ⟨hname, hparams, hm⟩
  have hpredicate : Yields n (read predicate) Declaration.Printable := by
    rw [read_predicate]
    exact yields_bind fun _ => yields_word.bind fun _ hname => yields_params.bind fun _ hparams =>
      yields_returnBlock.bind fun _ he => yields_pure ⟨hname, hparams, he⟩
  have heffect : Yields n (read effect) Declaration.Printable := by
    rw [read_effect]
    exact yields_bind fun _ => yields_word.bind fun _ hname => yields_params.bind fun _ hparams =>
      hblock.bind fun _ has => yields_bind fun _ => yields_pure ⟨hname, hparams, has⟩
  have hvar : Yields n (read variableDecl) Declaration.Printable := by
    rw [read_variableDecl]
    exact yields_bind fun _ => yields_word.bind fun _ hname => yields_bind fun _ =>
      yields_expr.bind fun _ he => yields_bind fun _ => yields_pure ⟨hname, he⟩
  have hvictory : Yields n (read victory) Declaration.Printable := by
    rw [read_victory]
    exact yields_bind fun _ => yields_word.bind fun _ hplayer => yields_returnBlock.bind fun _ he =>
      yields_pure ⟨hplayer, he⟩
  intro xs d ys hxs hspelled hr
  rcases read_declaration_eq_some hr with hr | hr | hr | hr | hr | hr
  · exact hrule xs d ys hxs hspelled hr
  · exact hmacro xs d ys hxs hspelled hr
  · exact hpredicate xs d ys hxs hspelled hr
  · exact heffect xs d ys hxs hspelled hr
  · exact hvar xs d ys hxs hspelled hr
  · exact hvictory xs d ys hxs hspelled hr

/-! ### Programs -/

theorem yields_piece : Yields n (read piece) PieceDecl.Printable := by
  rw [read_piece]
  exact yields_word.bind fun _ hname => ((yields_word.between "(" ")").mono (Nat.le_succ n)).bind fun _ howner =>
    yields_pure ⟨hname, howner⟩

theorem yields_cell : Yields n (read cell) Cell.Printable := by
  have howner : Yields n (read (optional (between "(" ")" word))) fun o => ∀ a ∈ o, IsWord a :=
    ((yields_word.between "(" ")").mono (Nat.le_succ n)).optional
  rw [read_cell]
  refine yields_word.bind fun name hname => ?_
  by_cases hnone : name = "None"
  · simp only [hnone, if_true]
    exact yields_pure trivial
  · simp only [hnone, if_false]
    exact howner.bind fun _ ho => yields_pure ⟨hname, hnone, ho⟩

theorem Yields.listOf {p : Parser α} [Readable p] {Q : α → Prop} (name : String) (h : Yields n (read p) Q) :
    Yields n (read (listOf name p)) fun as => as ≠ [] ∧ ∀ a ∈ as, Q a := by
  rw [read_listOf]
  exact yields_bind fun _ => yields_bind fun _ => h.separated.bind fun _ has => yields_bind fun _ =>
    yields_pure has

theorem yields_bareBoard : Yields n (read bareBoard) BoardDecl.Printable := by
  rw [read_bareBoard]
  refine yields_bind fun _ => yields_bind fun _ => yields_integer.bind fun _ hwidth => yields_bind fun _ =>
    yields_integer.bind fun _ hheight => yields_bind fun _ => (yields_cell.listOf "board").bind
    fun cells hcells => yields_pure ⟨hwidth, hheight, ?_, ?_⟩
  · exact mt List.map_eq_nil_iff.1 hcells.1
  · exact List.forall_mem_map.2 hcells.2

theorem yields_bareProgram : Yields n (read bareProgram) Program.Printable := by
  rw [read_bareProgram]
  refine (yields_word.listOf "players").bind fun players hplayers => (yields_piece.listOf "pieces").bind
    fun pieces hpieces => yields_declaration.many.bind fun declarations hdeclarations =>
    yields_bareBoard.bind fun board hboard => yields_bind fun _ => yields_pure
    ⟨?_, ?_, ?_, ?_, ?_, hboard⟩
  · exact mt List.map_eq_nil_iff.1 hplayers.1
  · exact List.forall_mem_map.2 hplayers.2
  · exact mt List.map_eq_nil_iff.1 hpieces.1
  · exact List.forall_mem_map.2 hpieces.2
  · exact List.forall_mem_map.2 hdeclarations

end Parser

/-- Places do not matter to what can be written. -/
theorem Program.Printable.of_bare {p : Program} (h : p.bare.Printable) : p.Printable where
  players_ne_nil := mt List.map_eq_nil_iff.2 h.players_ne_nil
  players n hn := h.players n.bare (List.mem_map_of_mem hn)
  pieces_ne_nil := mt List.map_eq_nil_iff.2 h.pieces_ne_nil
  pieces q hq := h.pieces q.bare (List.mem_map_of_mem hq)
  declarations d hd := h.declarations d.bare (List.mem_map_of_mem hd)
  board := {
    width := h.board.width
    height := h.board.height
    cells_ne_nil := mt List.map_eq_nil_iff.2 h.board.cells_ne_nil
    cells := fun c hc => h.board.cells c.bare (List.mem_map_of_mem hc) }

end BoardGame
