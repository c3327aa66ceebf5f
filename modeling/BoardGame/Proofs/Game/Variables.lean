import BoardGame.Proofs.Game.Reachable
import BoardGame.Proofs.References.Building
import BoardGame.Proofs.Values

/-!
# Variables stay integers

At an integer only the empty path can be stored, and that leaves an integer. So a name that holds an
integer goes on holding one, whatever is assigned to whatever names (`World.HoldsInt.apply`), and then
in every world that comes up in play (`World.HoldsInt.leads`), also while an effect is done that fails
later on. Declared variables hold integers at first (`Program.holdsInt_build`), and every world that is
restored has come up before.
-/

namespace BoardGame

theorem Value.store_int_eq_ok_iff {name : String} {m n : Int} {path : List Int} {v : Value} :
    (int m).store name path n = .ok v ↔ path = [] ∧ v = .int n := by
  cases path <;> simp [store, eq_comm]

/-! ### Worlds -/

namespace World
variable {d : Definitions} {w w' : World} {x : String}

/-- The name is bound to an integer. -/
def HoldsInt (w : World) (x : String) : Prop := ∃ n, SortedMap.find? x w.vars = some (.int n)

namespace HoldsInt

theorem insert (hw : w.HoldsInt x) {name : String} {v : Value} (hv : name = x → ∃ n, v = .int n) :
    HoldsInt { w with vars := SortedMap.insert name v w.vars } x := by
  by_cases hname : x = name
  · obtain ⟨n, rfl⟩ := hv hname.symm
    exact ⟨n, by rw [hname, SortedMap.find?_insert_self]⟩
  · obtain ⟨n, hn⟩ := hw
    exact ⟨n, by rw [SortedMap.find?_insert_ne hname, hn]⟩

theorem apply {y : Write} (hw : w.HoldsInt x) (h : y.apply w = .ok w') : w'.HoldsInt x := by
  cases y with
  | tile t p =>
    obtain ⟨b, -, h⟩ := bind_eq_ok_iff.1 h
    obtain rfl := Except.ok.inj h
    exact hw
  | var name path n =>
    obtain ⟨v, hv, h⟩ := bind_eq_ok_iff.1 h
    obtain rfl := Except.ok.inj h
    refine hw.insert fun hname => ?_
    -- The store begins at the integer, so it has come to its end there.
    obtain ⟨m, hm⟩ := hw
    rw [hname, hm, Option.getD_some, Value.store_int_eq_ok_iff] at hv
    exact ⟨n, hv.2⟩

/-- Nothing that play does to a world makes a map, or nothing, of an integer. -/
theorem leads (hw : w.HoldsInt x) (h : w.Leads d w') : w'.HoldsInt x := by
  induction h with
  | refl => exact hw
  | carry _ _ hcarry ih => rwa [HoldsInt, vars_carry hcarry]
  | write _ _ happly ih => exact ih.apply happly

end HoldsInt

theorem Ordered.leads (hw : w.Ordered) (h : w.Leads d w') : w'.Ordered := by
  induction h with
  | refl => exact hw
  | carry _ _ hcarry ih =>
    have hvars := vars_carry hcarry
    exact ⟨hvars ▸ ih.names, hvars ▸ ih.values⟩
  | write _ _ happly ih => exact ih.apply happly

end World

/-! ### The first world -/

namespace Program
variable {p : Program} {rules : Rules}

theorem ordered_build (h : p.build = .ok rules) : World.Ordered ⟨rules.vars, rules.board⟩ := by
  refine foldlM_induction (P := fun vars => World.Ordered ⟨vars, rules.board⟩)
    (build_eq_ok_iff.1 h).2.1 (fun vars v vars' hvars hbind => ?_) ⟨SortedMap.ordered_nil, nofun⟩
  obtain ⟨n, -, rfl⟩ := bindVariable_eq_ok_iff.1 hbind
  exact hvars.insert v.name (.int n)

theorem eq_int_of_mem_vars (h : p.build = .ok rules) : ∀ e ∈ rules.vars, ∃ n, e.2 = .int n := by
  refine foldlM_induction (P := fun vars => ∀ e ∈ vars, ∃ n, e.2 = .int n)
    (build_eq_ok_iff.1 h).2.1 (fun vars v vars' hvars hbind e he => ?_) nofun
  obtain ⟨n, -, rfl⟩ := bindVariable_eq_ok_iff.1 hbind
  rcases SortedMap.mem_insert he with rfl | he
  · exact ⟨n, rfl⟩
  · exact hvars e he

theorem holdsInt_build (h : p.build = .ok rules) :
    ∀ x ∈ p.declared .var, World.HoldsInt ⟨rules.vars, rules.board⟩ x := by
  intro x hx
  obtain ⟨v, hv⟩ := Option.isSome_iff_exists.1 (binds_build h x hx)
  obtain ⟨n, rfl⟩ := eq_int_of_mem_vars h _ (SortedMap.mem_of_find? hv)
  exact ⟨n, hv⟩

end Program

/-! ### Games -/

namespace Game.Reachable
variable {p : Program} {rules : Rules} {options : Options} {g : Game} {x : String}

/-- Wherever play has led, the names of the variables and the keys of their maps increase. -/
theorem ordered (h : p.build = .ok rules) (hg : Reachable rules options g) : g.world.Ordered :=
  (Program.ordered_build h).leads (hg.leads h)

theorem holdsInt (h : p.build = .ok rules) (hg : Reachable rules options g)
    (hx : x ∈ p.declared .var) : g.world.HoldsInt x :=
  (Program.holdsInt_build h x hx).leads (hg.leads h)

theorem holdsInt_after (h : p.build = .ok rules) (hg : Reachable rules options g)
    (hx : g.world.HoldsInt x) (moves : List Move) : (g.after (moves.map .make)).world.HoldsInt x := by
  induction moves generalizing g with
  | nil => exact hx
  | cons m moves ih =>
    exact ih (hg.act (.make m)) (hx.leads (Play.leads_makeMove (hg.complete h) m))

/-- Wherever play has led, every declared variable holds an integer, and so it does amid a move, when
some steps of it are made and some assignments of the effect of the next one. A name that holds an
integer goes on holding one, through any effect in any world, and so through all further moves. -/
theorem variables_int (h : p.build = .ok rules) (hg : Reachable rules options g) :
    (∀ x ∈ p.declared .var, ∃ n, g.variableValue? x = some (.int n)) ∧
    (∀ x ∈ p.declared .var, ∀ (origin : Tile) (steps : List Step) (board : Board) (focus : Focus)
      (scope : Scope) (as : List Assignment),
      let w : World := ⟨(Play.makeSteps origin steps g).2.vars, board⟩
      (w.assign g.definitions focus scope as).2.HoldsInt x) ∧
    (∀ (x : String) (moves : List Move), g.world.HoldsInt x →
      (g.after (moves.map .make)).world.HoldsInt x) ∧
    ∀ (w : World) (x : String), w.HoldsInt x → ∀ (d : Definitions) (focus : Focus),
      (∀ c : Call, (w.perform d focus c).2.HoldsInt x) ∧
      ∀ (scope : Scope) (as : List Assignment), (w.assign d focus scope as).2.HoldsInt x := by
  refine ⟨fun x hx => hg.holdsInt h hx, fun x hx origin steps board focus scope as => ?_,
    fun x moves hx => hg.holdsInt_after h hx moves, fun w x hw d focus => ⟨fun c => ?_, fun scope as => ?_⟩⟩
  · intro w
    have hsteps : (Play.makeSteps origin steps g).2.world.HoldsInt x :=
      (hg.holdsInt h hx).leads (Play.leads_makeSteps (hg.complete h) origin steps)
    have hw : w.HoldsInt x := hsteps
    exact hw.leads (World.leads_assign as)
  · exact hw.leads (World.leads_perform c)
  · exact hw.leads (World.leads_assign as)

end Game.Reachable

def tallyStep : Step := ⟨1, 0, .var "empty", some ⟨"mark", [.literal 3]⟩⟩

def tallyAssignments : List Assignment :=
  [⟨"n", [], .binary .add (.var "n") (.var "k")⟩, ⟨"seen", [.var "k", .literal 0], .var "n"⟩,
    ⟨"n", [.literal 0], .literal 1⟩]

/-- A pawn whose steps have an effect that adds to the variable, makes a map, and then takes the variable
for one. -/
def tally : Program where
  players := [⟨"White", 0, 0⟩]
  pieces := [⟨⟨"Pawn", "White"⟩, 0, 0⟩]
  declarations := [
    ⟨.var ⟨"n", .binary .add (.literal 1) (.literal 1)⟩, 0, 0⟩,
    ⟨.effect ⟨"mark", ["k"], tallyAssignments⟩, 0, 0⟩,
    ⟨.rule ⟨"Pawn", .letter ⟨.literal 1, .literal 0, .named "empty", some ⟨"mark", [.literal 3]⟩⟩⟩,
      0, 0⟩]
  board := ⟨⟨2, 1, [⟨.piece "Pawn" none, 0, 0⟩, ⟨.empty, 0, 0⟩]⟩, 0, 0⟩

def tallyRules : Rules where
  definitions := {
    players := ["White"], pieces := [⟨"Pawn", 0⟩], effects := tally.effects, victories := [none] }
  pieces := [⟨"Pawn", 0, ⟨#[⟨[(tallyStep, 1)], false⟩, ⟨[], true⟩], 0⟩, some 2⟩]
  vars := [("n", .int 2)]
  board := ⟨2, 1, #[some 0, none]⟩

/-- The move fails when the variable has already been added to, and leaves it as it was. -/
theorem Game.Reachable.variables_int_tally : tally.build = .ok tallyRules ∧
    let m : Move := ⟨(0, 0), [tallyStep]⟩
    let g := ((Action.make m).play (.new tallyRules {})).2
    Reachable tallyRules {} g ∧
    (Play.makeMove m (.new tallyRules {})).1 = .error (.eval (.notIndexable "n")) ∧
    (∀ x ∈ tally.declared .var, ∃ n, g.variableValue? x = some (.int n)) ∧
    g.variableValue? "n" = some (.int 2) ∧
    let w := (World.assign tallyRules.definitions {} [("k", 3)] ⟨g.vars, g.board⟩
      (tallyAssignments.take 2)).2
    w = ⟨[("n", .int 5), ("seen", .map [(3, .map [(0, .int 5)])])], g.board⟩ ∧ w.HoldsInt "n" := by
  have hbuild : tally.build = .ok tallyRules := rfl
  refine ⟨hbuild, ?_⟩
  intro m g
  have hg : Reachable tallyRules {} g := .act .new (.make m)
  obtain ⟨hvars, hamid, -⟩ := variables_int hbuild hg
  have hn : "n" ∈ tally.declared .var := .head _
  exact ⟨hg, rfl, hvars, rfl, rfl, hamid "n" hn (0, 0) [] g.board {} [("k", 3)] (tallyAssignments.take 2)⟩

end BoardGame
