import BoardGame.Expansion
import BoardGame.Proofs.Checks.Specification
import Mathlib.Data.Finset.Card
import Mathlib.Logic.Relation

/-!
# How deep macros nest

If no macro calls itself, through others or not, each call leaves fewer macros to reach. So calls nest no
deeper than there are macros, and to allow for more changes nothing (`Env.expandWithin_eq_of_le`).
-/

namespace BoardGame
open Relation

/-! ### Relations without cycles -/

section
variable {R : String → String → Prop} {names : Finset String} {a b : String}

open Classical in
/-- The names that can be reached from `a`, which is one of them if it is a name. -/
noncomputable def reached (R : String → String → Prop) (names : Finset String) (a : String) :
    Finset String := names.filter (ReflTransGen R a)

theorem mem_reached {x : String} : x ∈ reached R names a ↔ x ∈ names ∧ ReflTransGen R a x := by
  simp [reached]

/-- From the next name fewer can be reached, for there is no way back. -/
theorem card_reached_lt (hacyclic : ¬ TransGen R a a) (ha : a ∈ names) (hab : R a b) :
    (reached R names b).card < (reached R names a).card := by
  refine Finset.card_lt_card ⟨fun x hx => ?_, fun hsub => ?_⟩
  · obtain ⟨hname, hx⟩ := mem_reached.1 hx
    exact mem_reached.2 ⟨hname, .head hab hx⟩
  · have hback := (mem_reached.1 (hsub (mem_reached.2 ⟨ha, .refl⟩))).2
    exact hacyclic (.head' hab hback)

/-- Where every step leads to a lower rank, nothing comes back to itself. -/
theorem not_transGen_of_rank (rank : String → Nat) (h : ∀ a b, R a b → rank b < rank a) (a : String) :
    ¬ TransGen R a a := by
  have hlt : ∀ b, TransGen R a b → rank b < rank a := by
    intro b hab
    induction hab with
    | single hab => exact h _ _ hab
    | tail _ hbc ih => exact (h _ _ hbc).trans ih
  exact fun hcycle => Nat.lt_irrefl _ (hlt a hcycle)

end

/-! ### Calls of macros -/

/-- The movement with its letters and its calls of macros replaced. -/
def Movement.map (f : Letter → Letter) (g : Call → Call) : Movement → Movement
  | letter l => letter (f l)
  | concat left right => concat (left.map f g) (right.map f g)
  | union left right => union (left.map f g) (right.map f g)
  | star inner => star (inner.map f g)
  | plus inner => plus (inner.map f g)
  | optional inner => optional (inner.map f g)
  | expand c => expand (g c)

theorem Movement.map_id (m : Movement) : m.map id id = m := by
  induction m with
  | letter l | expand c => rfl
  | concat left right ihl ihr | union left right ihl ihr => rw [map, ihl, ihr]
  | star inner ih | plus inner ih | optional inner ih => rw [map, ih]

namespace Definitions

/-- The body of the macro `a` calls the macro `b`. -/
def Expands (d : Definitions) (a b : String) : Prop :=
  ∃ m, d.moveMacro? a = some m ∧ ∃ c ∈ m.body.expansions, c.name = b

/-- No macro calls itself, through others or not. -/
def MacrosNest (d : Definitions) : Prop := ∀ name, ¬ TransGen d.Expands name name

def macroNames (d : Definitions) : Finset String := (d.macros.map (·.name)).toFinset

/-- How many macros a call of `name` can lead to. -/
noncomputable def macrosReached (d : Definitions) (name : String) : Nat :=
  (reached d.Expands d.macroNames name).card

section
variable {d : Definitions} {name : String} {m : MoveMacro}

theorem name_of_moveMacro? (h : d.moveMacro? name = some m) : m.name = name := by
  simpa using List.find?_some h

theorem mem_macroNames (h : d.moveMacro? name = some m) : name ∈ d.macroNames :=
  List.mem_toFinset.2 (List.mem_map.2 ⟨m, List.mem_of_find?_eq_some h, name_of_moveMacro? h⟩)

theorem macrosReached_lt (hd : d.MacrosNest) (hm : d.moveMacro? name = some m) {c : Call}
    (hc : c ∈ m.body.expansions) : d.macrosReached c.name < d.macrosReached name :=
  card_reached_lt (hd name) (mem_macroNames hm) ⟨m, hm, c, hc, rfl⟩

theorem macrosReached_le (d : Definitions) (name : String) :
    d.macrosReached name ≤ d.macros.length := by
  have hnames : d.macroNames.card ≤ (d.macros.map (·.name)).length := List.toFinset_card_le _
  rw [List.length_map] at hnames
  exact (Finset.card_le_card fun x hx => (mem_reached.1 hx).1).trans hnames

end

end Definitions

namespace Env
variable {env : Env} {expand expand' : Expand} {scope scope' : Scope} {m : Movement}

/-- A movement is resolved as what its letters and its calls of macros become. -/
theorem resolveWith_map {f : Letter → Letter} {g : Call → Call}
    (hletters : ∀ l ∈ m.letters, env.step scope l = env.step scope' (f l))
    (hcalls : ∀ c ∈ m.expansions, expand scope c = expand' scope' (g c)) :
    env.resolveWith expand scope m = env.resolveWith expand' scope' (m.map f g) := by
  induction m with
  | letter l => simp only [resolveWith, Movement.map, hletters l (List.mem_singleton_self l)]
  | concat left right ihl ihr | union left right ihl ihr =>
    have hl := ihl (fun l h => hletters l (List.mem_append_left _ h))
      fun c h => hcalls c (List.mem_append_left _ h)
    have hr := ihr (fun l h => hletters l (List.mem_append_right _ h))
      fun c h => hcalls c (List.mem_append_right _ h)
    simp only [resolveWith, Movement.map, hl, hr]
  | star inner ih | plus inner ih | optional inner ih =>
    simp only [resolveWith, Movement.map, ih hletters hcalls]
  | expand c => exact hcalls c (List.mem_singleton_self c)

theorem resolveWith_congr (hletters : ∀ l ∈ m.letters, env.step scope l = env.step scope' l)
    (hcalls : ∀ c ∈ m.expansions, expand scope c = expand' scope' c) :
    env.resolveWith expand scope m = env.resolveWith expand' scope' m := by
  have h : env.resolveWith expand scope m = env.resolveWith expand' scope' (m.map id id) :=
    resolveWith_map hletters hcalls
  rwa [Movement.map_id] at h

/-- A call that can lead to fewer macros than may nest is expanded the same if more may. -/
theorem expandWithin_eq_of_le (hd : env.definitions.MacrosNest) {depth depth' : Nat} {c : Call}
    (hc : env.definitions.macrosReached c.name < depth) (hle : depth ≤ depth') :
    env.expandWithin depth scope c = env.expandWithin depth' scope c := by
  induction depth generalizing depth' scope c with
  | zero => exact absurd hc (Nat.not_lt_zero _)
  | succ depth ih =>
    obtain ⟨depth', rfl⟩ : ∃ k, depth' = k + 1 := ⟨depth' - 1, by omega⟩
    simp only [expandWithin]
    cases hm : env.definitions.moveMacro? c.name with
    | none => rfl
    | some m =>
      have hbody : ∀ inner, env.resolveWith (env.expandWithin depth) inner m.body =
          env.resolveWith (env.expandWithin depth') inner m.body := by
        refine fun inner => resolveWith_congr (fun _ _ => rfl) fun c' hc' => ih ?_ (by omega)
        have := Definitions.macrosReached_lt hd hm hc'
        omega
      simp only [hbody]

end Env
end BoardGame
