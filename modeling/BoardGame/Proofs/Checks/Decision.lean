import BoardGame.Proofs.Checks.Heads
import Mathlib.Tactic.Tauto

/-!
# The checks decide well-formedness

By symbols that describe the program, each check of a body is the part of `WellFormed` that is about it,
for expressions and movements by induction on them, and the order of the checks only decides which flaw
is reported. With the heads (`symbols_eq_ok_iff`) this makes `check_iff_wellFormed`.
-/

namespace BoardGame
namespace Symbols
variable {p : Program} {s : Symbols} {params : List String}

theorem checkArity_eq_ok_iff {kind : NameKind} {name : String} {expected? : Option Nat} {found : Nat}
    {u : Unit} : checkArity kind name expected? found = .ok u ↔ expected? = some found := by
  cases expected? with
  | none => simp [checkArity]
  | some expected => simp [checkArity, require_eq_ok_iff]

theorem predicateArity?_eq_some_iff (hs : p.Describes s) {name : String} {args : List Expr} :
    s.predicateArity? name = some args.length ↔ p.Callable ⟨name, args⟩ := by
  unfold predicateArity?
  split
  case isTrue hbuiltin =>
    have hnot : ¬ p.Takes .predicate name args.length := fun h => hs.predicates_free _ _ h hbuiltin
    simp [Program.Callable, hbuiltin, hnot, eq_comm]
  case isFalse hbuiltin => simp [Program.Callable, hbuiltin, hs.lookup_predicates]

/-! ### Expressions -/

mutual

theorem checkExpr_eq_ok_iff (hs : p.Describes s) : ∀ {e : Expr},
    s.checkExpr e = .ok () ↔ ∀ c ∈ e.calls, p.Callable c
  | .literal _ | .var _ | .field _ _ => by simp [checkExpr, Expr.calls]
  | .index _ _ => by rw [checkExpr, Expr.calls, checkExprs_eq_ok_iff hs]
  | .unary _ _ => by rw [checkExpr, Expr.calls, checkExpr_eq_ok_iff hs]
  | .binary _ _ _ => by
    simp only [checkExpr, Expr.calls, bind_eq_ok_iff, checkExpr_eq_ok_iff hs, exists_const,
      List.forall_mem_append]
  | .call _ _ => by
    simp only [checkExpr, Expr.calls, bind_eq_ok_iff, checkArity_eq_ok_iff, exists_const,
      predicateArity?_eq_some_iff hs, checkExprs_eq_ok_iff hs, List.forall_mem_cons]

theorem checkExprs_eq_ok_iff (hs : p.Describes s) : ∀ {es : List Expr},
    s.checkExprs es = .ok () ↔ ∀ c ∈ Expr.callsAll es, p.Callable c
  | [] => by simp [checkExprs, Expr.callsAll]
  | _ :: _ => by
    simp only [checkExprs, Expr.callsAll, bind_eq_ok_iff, checkExpr_eq_ok_iff hs, exists_const,
      checkExprs_eq_ok_iff hs, List.forall_mem_append]

end

theorem callsAll_eq_flatMap (es : List Expr) : Expr.callsAll es = es.flatMap Expr.calls := by
  induction es with
  | nil => rfl
  | cons e es ih => rw [Expr.callsAll, List.flatMap_cons, ih]

theorem forall_mem_callsAll {P : Call → Prop} {es : List Expr} :
    (∀ c ∈ Expr.callsAll es, P c) ↔ ∀ e ∈ es, ∀ c ∈ e.calls, P c := by
  rw [callsAll_eq_flatMap]
  exact List.forall_mem_flatMap

/-! ### Movements -/

theorem checkCondition_eq_ok_iff (hs : p.Describes s) {condition : Condition} :
    s.checkCondition params condition = .ok () ↔
      (∀ name ∈ condition.bareName?, p.Meaningful params name) ∧
        ∀ e ∈ condition.exprs, ∀ c ∈ e.calls, p.Callable c := by
  cases condition with
  | call c => simp [checkCondition, Condition.bareName?, Condition.exprs, checkExpr_eq_ok_iff hs]
  | named name =>
    have hmeaningful : p.Meaningful params name ↔ (name ∈ params ∨ name ∈ builtinNames ∨
        s.isPiece name ∨ name ∈ s.vars) ∨ s.predicates.lookup name = some 0 := by
      simp only [Program.Meaningful, hs.isPiece, hs.mem_vars, hs.lookup_predicates, or_assoc]
    simp only [checkCondition, Condition.bareName?, Condition.exprs, Option.mem_some_iff, forall_eq',
      List.not_mem_nil, false_imp_iff, implies_true, and_true, hmeaningful]
    split
    case isTrue h => simp [h]
    case isFalse h => simp [h, checkArity_eq_ok_iff]

theorem checkLetter_eq_ok_iff (hs : p.Describes s) {l : Letter} : s.checkLetter params l = .ok () ↔
    (∀ c ∈ l.effect, p.Takes .effect c.name c.args.length) ∧
      (∀ name ∈ l.condition.bareName?, p.Meaningful params name) ∧
        ∀ e ∈ l.exprs, ∀ c ∈ e.calls, p.Callable c := by
  simp only [checkLetter, Letter.exprs, bind_eq_ok_iff, exists_const, checkExpr_eq_ok_iff hs,
    checkCondition_eq_ok_iff hs, List.forall_mem_cons, List.forall_mem_append]
  cases l.effect with
  | none =>
    simp only [pure_eq_ok_iff, Option.not_mem_none, Option.map_none, Option.getD_none,
      List.not_mem_nil, false_imp_iff, implies_true]
    tauto
  | some e =>
    simp only [bind_eq_ok_iff, exists_const, checkArity_eq_ok_iff, hs.lookup_effects,
      checkExprs_eq_ok_iff hs, forall_mem_callsAll, Option.mem_some_iff, forall_eq', Option.map_some,
      Option.getD_some]
    tauto

/-- A movement is checked letter by letter and macro call by macro call. -/
theorem checkMovement_eq_ok_iff_letters {m : Movement} : s.checkMovement params m = .ok () ↔
    (∀ l ∈ m.letters, s.checkLetter params l = .ok ()) ∧
      ∀ c ∈ m.expansions, s.macros.lookup c.name = some c.args.length ∧ s.checkExprs c.args = .ok () := by
  induction m with
  | letter l => simp [checkMovement, Movement.letters, Movement.expansions]
  | concat left right ihl ihr | union left right ihl ihr =>
    simp only [checkMovement, Movement.letters, Movement.expansions, bind_eq_ok_iff, exists_const,
      ihl, ihr, List.forall_mem_append]
    exact and_and_and_comm
  | star inner ih | plus inner ih | optional inner ih =>
    simpa only [checkMovement, Movement.letters, Movement.expansions] using ih
  | expand c =>
    simp [checkMovement, Movement.letters, Movement.expansions, bind_eq_ok_iff, checkArity_eq_ok_iff]

theorem checkMovement_eq_ok_iff (hs : p.Describes s) {m : Movement} :
    s.checkMovement params m = .ok () ↔
      p.WellFormedMovement params m ∧ ∀ e ∈ m.exprs, ∀ c ∈ e.calls, p.Callable c := by
  simp only [checkMovement_eq_ok_iff_letters, checkLetter_eq_ok_iff hs, checkExprs_eq_ok_iff hs,
    forall_mem_callsAll, hs.lookup_macros, Movement.exprs, List.forall_mem_append,
    List.forall_mem_flatMap]
  constructor
  · rintro ⟨hletters, hexpansions⟩
    exact ⟨⟨fun c hc => (hexpansions c hc).1, fun l hl => (hletters l hl).1,
      fun l hl => (hletters l hl).2.1⟩, fun l hl => (hletters l hl).2.2,
      fun c hc => (hexpansions c hc).2⟩
  · rintro ⟨h, hletters, hexpansions⟩
    exact ⟨fun l hl => ⟨h.effects l hl, h.conditions l hl, hletters l hl⟩,
      fun c hc => ⟨h.expansions c hc, hexpansions c hc⟩⟩

/-! ### Definitions -/

theorem declarable_eq_ok_iff (hs : p.Describes s) {name : String} :
    s.declarable name = .ok () ↔ p.Free name := by
  rw [declarable, require_eq_ok_iff, hs.isPiece, Program.Free]

theorem checkParamsFrom_eq_ok_iff (hs : p.Describes s) {seen : List String} :
    s.checkParamsFrom seen params = .ok () ↔
      params.Nodup ∧ (∀ name ∈ params, name ∉ seen) ∧ ∀ name ∈ params, p.Free name := by
  induction params generalizing seen with
  | nil => simp [checkParamsFrom]
  | cons name params ih =>
    simp only [checkParamsFrom, bind_eq_ok_iff, exists_const, declarable_eq_ok_iff hs,
      require_eq_ok_iff, ih, List.nodup_cons, List.forall_mem_cons]
    have hcons : (∀ q ∈ params, q ∉ name :: seen) ↔ name ∉ params ∧ ∀ q ∈ params, q ∉ seen := by
      simp only [List.mem_cons, not_or, forall_and, List.forall_mem_ne']
    tauto

theorem checkParams_eq_ok_iff (hs : p.Describes s) :
    s.checkParams params = .ok () ↔ params.Nodup ∧ ∀ name ∈ params, p.Free name := by
  simp [checkParams, checkParamsFrom_eq_ok_iff hs]

theorem checkTarget_eq_ok_iff (hs : p.Describes s) {a : Assignment} :
    s.checkTarget params a = .ok () ↔ p.Assignable params a := by
  have hboard : ¬ p.Free "Board" := fun h => h.1 (by decide)
  rw [checkTarget, require_eq_ok_iff, Program.Assignable]
  split
  case isTrue h => simp [h, hboard]
  case isFalse h => simp [h, Program.Free, hs.isPiece, and_assoc]

theorem checkAssignments_eq_ok_iff (hs : p.Describes s) {as : List Assignment} :
    s.checkAssignments params as = .ok () ↔
      (∀ a ∈ as, p.Assignable params a) ∧
        ∀ e ∈ as.flatMap fun a => a.indices ++ [a.value], ∀ c ∈ e.calls, p.Callable c := by
  induction as with
  | nil => simp [checkAssignments]
  | cons a as ih =>
    simp only [checkAssignments, bind_eq_ok_iff, exists_const, checkTarget_eq_ok_iff hs,
      checkExprs_eq_ok_iff hs, checkExpr_eq_ok_iff hs, forall_mem_callsAll, ih, List.flatMap_cons,
      List.forall_mem_cons, List.forall_mem_append]
    tauto

/-! ### Bodies -/

/-- The pieces with a rule, that of `d` in front. -/
def withRule (ruled : List String) (d : Declaration) : List String :=
  (d.head? .rule).toList.map Prod.fst ++ ruled

theorem checkBody_eq_ok_iff (hs : p.Describes s) {ruled ruled' : List String} {d : Declaration} :
    s.checkBody ruled d = .ok ruled' ↔
      (p.WellFormedDeclaration d ∧
        (∀ name ∈ (d.head? .rule).map Prod.fst, name ∈ p.declared .piece ∧ name ∉ ruled) ∧
        ∀ name ∈ (d.head? .victory).map Prod.fst, name ∈ p.declared .player) ∧
      ruled' = withRule ruled d := by
  rw [Program.wellFormedDeclaration_iff]
  cases d <;>
    simp only [checkBody, bind_eq_ok_iff, exists_const, pure_eq_ok_iff, require_eq_ok_iff,
      checkMovement_eq_ok_iff hs, checkParams_eq_ok_iff hs, checkExpr_eq_ok_iff hs,
      checkAssignments_eq_ok_iff hs, hs.isPiece, hs.mem_players, Declaration.params,
      Declaration.movement?, Declaration.assignments, Declaration.exprs, Declaration.head?, withRule,
      Option.mem_some_iff, forall_eq', Option.map_some, Option.map_none, Option.not_mem_none,
      List.not_mem_nil, false_imp_iff, implies_true, true_and, and_true, List.nodup_nil,
      List.forall_mem_singleton, Option.toList, List.map_cons, List.map_nil, List.nil_append,
      List.singleton_append]
  all_goals tauto

theorem foldl_withRule (ds : List Declaration) (ruled : List String) :
    ds.foldl withRule ruled =
      (ds.filterMap fun d => (d.head? .rule).map Prod.fst).reverse ++ ruled := by
  induction ds generalizing ruled with
  | nil => rfl
  | cons d ds ih =>
    rw [List.foldl_cons, ih, withRule]
    cases h : d.head? .rule with
    | none => simp [h]
    | some head => simp [h]

theorem checkEach_checkBody_eq_ok_iff (hs : p.Describes s) {ruled : List String} :
    checkEach s.checkBody [] p.declarations = .ok ruled ↔
      ((∀ d ∈ p.declarations, p.WellFormedDeclaration d.value) ∧
        (∀ name ∈ p.declared .rule, name ∈ p.declared .piece) ∧ (p.declared .rule).Nodup ∧
        ∀ name ∈ p.declared .victory, name ∈ p.declared .player) ∧
      ruled = (p.declarations.map (·.value)).foldl withRule [] := by
  have hdeclared : ∀ kind ≠ .player, kind ≠ .piece → p.declared kind =
      (p.declarations.map (·.value)).filterMap fun d => (d.head? kind).map Prod.fst := by
    intro kind hplayer hpiece
    rw [Program.declared_eq_heads p kind hplayer hpiece, Declaration.map_fst_heads]
  have hbodies : (∀ d ∈ p.declarations, p.WellFormedDeclaration d.value) ↔
      ∀ d ∈ (p.declarations.map (·.value)).filterMap some, p.WellFormedDeclaration d := by
    simp
  rw [checkEach_eq_ok_iff fun _ _ _ => checkBody_eq_ok_iff hs, hbodies, hdeclared .rule nofun nofun,
    hdeclared .victory nofun nofun, nodup_filterMap_iff, forall_mem_filterMap_iff,
    forall_mem_filterMap_iff, forall_mem_filterMap_iff]
  refine and_congr_left' ?_
  simp only [foldl_withRule, List.append_nil, List.mem_reverse, Option.mem_some_iff, forall_eq']
  constructor
  · intro h
    exact ⟨fun before d after heq => (h before d after heq).1,
      fun before d after heq name hname => ((h before d after heq).2.1 name hname).1,
      fun before d after heq name hname => ((h before d after heq).2.1 name hname).2,
      fun before d after heq => (h before d after heq).2.2⟩
  · rintro ⟨hbody, hpiece, hnodup, hplayer⟩ before d after heq
    exact ⟨hbody before d after heq,
      fun name hname => ⟨hpiece before d after heq name hname, hnodup before d after heq name hname⟩,
      hplayer before d after heq⟩

/-! ### The board -/

theorem checkBoard_eq_ok_iff {b : BoardDecl} : checkBoard b = .ok () ↔
    (0 < b.width ∧ 0 < b.height) ∧ b.width * b.height < 0x10000000000000000 ∧
      (b.cells.length : Int) = b.width * b.height := by
  rw [checkBoard, BoardDecl.sides?]
  by_cases hsides : 0 < b.width ∧ 0 < b.height ∧ b.width * b.height < 0x10000000000000000
  · obtain ⟨hwidth, hheight, harea⟩ := hsides
    have hcells : b.cells.length = b.width.toNat * b.height.toNat ↔
        (b.cells.length : Int) = b.width * b.height := by
      rw [← Int.natCast_inj, Int.natCast_mul, Int.toNat_of_nonneg (Int.le_of_lt hwidth),
        Int.toNat_of_nonneg (Int.le_of_lt hheight)]
    simp only [hwidth, hheight, harea, and_self, if_true, require_eq_ok_iff, hcells, true_and]
  · simp only [hsides, if_false, reduceCtorEq, false_iff]
    exact fun h => hsides ⟨h.1.1, h.1.2, h.2.1⟩

theorem checkCell_eq_ok_iff (hs : p.Describes s)
    (howners : ∀ q ∈ p.pieces, q.value.owner ∈ p.declared .player) {cell : Cell} :
    s.checkCell cell = .ok () ↔ p.WellFormedCell cell := by
  cases cell with
  | empty => simp [checkCell, Program.WellFormedCell]
  | piece name owner =>
    simp only [checkCell, Program.WellFormedCell]
    cases hlookup : s.pieces.lookup name with
    | none =>
      simp only [reduceCtorEq, false_iff]
      rintro ⟨q, hq, rfl, -⟩
      rw [(hs.lookup_pieces _ _).2 ⟨q, hq, rfl, rfl⟩] at hlookup
      cases hlookup
    | some declared =>
      obtain ⟨q, hq, rfl, rfl⟩ := (hs.lookup_pieces _ _).1 hlookup
      cases owner with
      | none => exact iff_of_true rfl ⟨q, hq, rfl, by simp⟩
      | some o =>
        simp only [bind_eq_ok_iff, require_eq_ok_iff, exists_const, hs.mem_players,
          Option.mem_some_iff, forall_eq']
        constructor
        · rintro ⟨-, rfl⟩
          exact ⟨q, hq, rfl, rfl⟩
        · rintro ⟨q', hq', hname, rfl⟩
          have hsame := (hs.lookup_pieces _ _).2 ⟨q', hq', hname, rfl⟩
          exact ⟨howners q' hq', Option.some_inj.1 (hsame.symm.trans hlookup)⟩

end Symbols

namespace Program
variable {p : Program}

theorem check_eq_ok_iff : p.check = .ok () ↔ p.WellFormed := by
  simp only [check, bind_eq_ok_iff, symbols_eq_ok_iff, checkEach_unit_eq_ok_iff, exists_const,
    List.forall_mem_singleton, Symbols.checkBoard_eq_ok_iff]
  constructor
  · rintro ⟨_, ⟨hheads, rfl⟩, _, hbodies, ⟨hsides, hlt, harea⟩, hcells⟩
    have hs := describes_table hheads
    obtain ⟨⟨hdeclarations, hrules, hnodup, hvictories⟩, -⟩ :=
      (Symbols.checkEach_checkBody_eq_ok_iff hs).1 hbodies
    exact {
      nodup := fun kind => by
        by_cases hkind : kind = .rule
        · exact hkind ▸ hnodup
        · exact hheads.nodup kind hkind
      pieces_free := hheads.pieces_free
      owners := hheads.owners
      predicates_free := hheads.free .predicate (by simp)
      vars_free := hheads.free .var (by simp)
      rules := hrules
      victories := hvictories
      declarations := hdeclarations
      sides_pos := hsides
      area_lt := hlt
      area := harea
      cells := fun c hc => (Symbols.checkCell_eq_ok_iff hs hheads.owners).1 (hcells c hc) }
  · intro h
    have hheads : p.WellFormedHeads := {
      nodup := fun kind _ => h.nodup kind
      pieces_free := h.pieces_free
      owners := h.owners
      free := fun kind hkind => by
        rcases List.mem_cons.1 hkind with rfl | hkind
        · exact h.predicates_free
        · exact List.mem_singleton.1 hkind ▸ h.vars_free }
    have hs := describes_table hheads
    exact ⟨_, ⟨hheads, rfl⟩,
      _, (Symbols.checkEach_checkBody_eq_ok_iff hs).2
        ⟨⟨h.declarations, h.rules, h.nodup .rule, h.victories⟩, rfl⟩,
      ⟨h.sides_pos, h.area_lt, h.area⟩,
      fun c hc => (Symbols.checkCell_eq_ok_iff hs h.owners).2 (h.cells c hc)⟩

/-- A program passes the checks if and only if it is well-formed, and then so does every program with
its declarations in another order. -/
theorem check_iff_wellFormed (p : Program) : (p.check = .ok () ↔ p.WellFormed) ∧
    ∀ ds : List (Spanned Declaration), ds.Perm p.declarations →
      ((check { p with declarations := ds } = .ok ()) ↔ p.check = .ok ()) := by
  refine ⟨check_eq_ok_iff, fun ds hperm => ?_⟩
  rw [check_eq_ok_iff, check_eq_ok_iff]
  exact wellFormed_perm_iff hperm

/-- A pawn steps by a macro that is declared after its rule and tests a variable declared still later. -/
def steps : Program where
  players := [⟨"White", 0, 0⟩]
  pieces := [⟨⟨"Pawn", "White"⟩, 0, 0⟩]
  declarations := [
    ⟨.rule ⟨"Pawn", .expand ⟨"step", [.literal 1]⟩⟩, 0, 0⟩,
    ⟨.moveMacro ⟨"step", ["d"], .letter ⟨.literal 0, .var "d", .named "ready", none⟩⟩, 0, 0⟩,
    ⟨.var ⟨"ready", .call "enemy" []⟩, 0, 0⟩]
  board := ⟨⟨1, 2, [⟨.piece "Pawn" (some "White"), 0, 0⟩, ⟨.empty, 0, 0⟩]⟩, 0, 0⟩

theorem check_iff_wellFormed_steps : steps.check = .ok () ∧ steps.WellFormed ∧
    steps.declarations.reverse.Perm steps.declarations ∧
    check { steps with declarations := steps.declarations.reverse } = .ok () := by
  have hcheck : steps.check = .ok () := rfl
  have hperm := List.reverse_perm steps.declarations
  exact ⟨hcheck, (check_iff_wellFormed steps).1.1 hcheck, hperm,
    ((check_iff_wellFormed steps).2 _ hperm).2 hcheck⟩

end Program
end BoardGame
