import BoardGame.Proofs.Checks.Decision
import BoardGame.Proofs.Rules.Definitions

/-!
# Definitions of a well-formed program

The definitions that rules are built with are the declarations of the program, the last one first
(`Program.defines_definitions`). No name is declared twice, so that order does not matter: what takes so
many arguments is found under its name (`Defines.exists_predicate` and its like).
-/

namespace BoardGame
namespace Program
variable {p : Program} {kind : NameKind} {name : String} {n : Nat}

/-! ### Heads -/

/-- The names with their parameters that are declared as this kind. -/
def heads (p : Program) (kind : NameKind) : List (String × List String) :=
  p.declarations.filterMap (·.value.head? kind)

theorem takes_iff_heads : p.Takes kind name n ↔ ∃ h ∈ p.heads kind, h.1 = name ∧ h.2.length = n := by
  constructor
  · rintro ⟨d, hd, params, hhead, hlen⟩
    exact ⟨_, List.mem_filterMap.2 ⟨d, hd, hhead⟩, rfl, hlen⟩
  · rintro ⟨⟨_, params⟩, hh, rfl, hlen⟩
    obtain ⟨d, hd, hhead⟩ := List.mem_filterMap.1 hh
    exact ⟨d, hd, params, hhead, hlen⟩

theorem map_fst_heads (hplayer : kind ≠ .player) (hpiece : kind ≠ .piece) :
    (p.heads kind).map Prod.fst = p.declared kind := by
  rw [heads, List.map_filterMap]
  cases kind with
  | player => exact absurd rfl hplayer
  | piece => exact absurd rfl hpiece
  | _ => rfl

theorem heads_moveMacro : p.heads .moveMacro = p.macros.map fun m => (m.name, m.params) := by
  rw [heads, macros, List.map_filterMap]
  congr 1
  funext d
  cases d.value <;> rfl

theorem heads_predicate : p.heads .predicate = p.predicates.map fun q => (q.name, q.params) := by
  rw [heads, predicates, List.map_filterMap]
  congr 1
  funext d
  cases d.value <;> rfl

theorem heads_effect : p.heads .effect = p.effects.map fun e => (e.name, e.params) := by
  rw [heads, effects, List.map_filterMap]
  congr 1
  funext d
  cases d.value <;> rfl

/-- Of a kind whose names are declared once, the definitions have distinct names. -/
theorem nodup_keys {α : Type} {key : α → String} {params : α → List String} {as : List α}
    (hheads : p.heads kind = as.map fun a => (key a, params a)) (hplayer : kind ≠ .player)
    (hpiece : kind ≠ .piece) (h : (p.declared kind).Nodup) : (as.map key).Nodup := by
  rwa [← map_fst_heads hplayer hpiece, hheads, List.map_map] at h

theorem takes_predicate_iff : p.Takes .predicate name n ↔
    ∃ q ∈ p.predicates, q.name = name ∧ q.params.length = n := by
  simp [takes_iff_heads, heads_predicate]

theorem WellFormed.nodup_macros (hp : p.WellFormed) : (p.macros.map (·.name)).Nodup :=
  nodup_keys heads_moveMacro (by simp) (by simp) (hp.nodup _)

theorem WellFormed.nodup_predicates (hp : p.WellFormed) : (p.predicates.map (·.name)).Nodup :=
  nodup_keys heads_predicate (by simp) (by simp) (hp.nodup _)

theorem WellFormed.nodup_effects (hp : p.WellFormed) : (p.effects.map (·.name)).Nodup :=
  nodup_keys heads_effect (by simp) (by simp) (hp.nodup _)

/-! ### Declarations by kind -/

theorem exists_of_mem_rules {r : PieceRule} (h : r ∈ p.rules) :
    ∃ d ∈ p.declarations, d.value = .rule r := by
  obtain ⟨d, hd, h⟩ := List.mem_filterMap.1 h
  exact ⟨d, hd, by split at h <;> simp_all⟩

theorem exists_of_mem_macros {m : MoveMacro} (h : m ∈ p.macros) :
    ∃ d ∈ p.declarations, d.value = .moveMacro m := by
  obtain ⟨d, hd, h⟩ := List.mem_filterMap.1 h
  exact ⟨d, hd, by split at h <;> simp_all⟩

theorem exists_of_mem_predicates {q : Predicate} (h : q ∈ p.predicates) :
    ∃ d ∈ p.declarations, d.value = .predicate q := by
  obtain ⟨d, hd, h⟩ := List.mem_filterMap.1 h
  exact ⟨d, hd, by split at h <;> simp_all⟩

theorem exists_of_mem_effects {e : Effect} (h : e ∈ p.effects) :
    ∃ d ∈ p.declarations, d.value = .effect e := by
  obtain ⟨d, hd, h⟩ := List.mem_filterMap.1 h
  exact ⟨d, hd, by split at h <;> simp_all⟩

theorem exists_of_mem_variableDecls {v : VariableDecl} (h : v ∈ p.variableDecls) :
    ∃ d ∈ p.declarations, d.value = .var v := by
  obtain ⟨d, hd, h⟩ := List.mem_filterMap.1 h
  exact ⟨d, hd, by split at h <;> simp_all⟩

theorem exists_of_mem_victories {v : Victory} (h : v ∈ p.victories) :
    ∃ d ∈ p.declarations, d.value = .victory v := by
  obtain ⟨d, hd, h⟩ := List.mem_filterMap.1 h
  exact ⟨d, hd, by split at h <;> simp_all⟩

/-! ### Definitions -/

/-- `d` holds the definitions of `p`, the last one first. -/
structure Defines (p : Program) (d : Definitions) : Prop where
  macros_eq : d.macros = p.macros.reverse
  predicates_eq : d.predicates = p.predicates.reverse
  effects_eq : d.effects = p.effects.reverse
  victories : ∀ e, some e ∈ d.victories → ∃ v ∈ p.victories, v.condition = e

theorem defines_definitions {d : Definitions} (h : p.definitions = .ok d) : p.Defines d := by
  obtain ⟨-, rfl⟩ := definitions_eq_ok_iff.1 h
  refine ⟨rfl, rfl, rfl, fun e he => (mem_fillSlots he).resolve_right fun hslot => ?_⟩
  obtain ⟨_, -, hnone⟩ := List.mem_map.1 hslot
  cases hnone

/-! ### Looking definitions up -/

theorem exists_find?_of_takes {α : Type} {key : α → String} {params : α → List String} {as : List α}
    (hheads : p.heads kind = as.map fun a => (key a, params a)) (hnodup : (as.map key).Nodup)
    (h : p.Takes kind name n) :
    ∃ a ∈ as, as.reverse.find? (key · = name) = some a ∧ (params a).length = n := by
  rw [takes_iff_heads, hheads] at h
  obtain ⟨_, hh, rfl, hlen⟩ := h
  obtain ⟨a, ha, rfl⟩ := List.mem_map.1 hh
  have hreverse : (as.reverse.map key).Nodup := by
    rw [List.map_reverse]
    exact List.nodup_reverse.2 hnodup
  exact ⟨a, ha, (find?_eq_some_iff_of_nodup hreverse).2 ⟨List.mem_reverse.2 ha, rfl⟩, hlen⟩

namespace Defines
variable {d : Definitions}

theorem exists_moveMacro (hd : p.Defines d) (hp : p.WellFormed) (h : p.Takes .moveMacro name n) :
    ∃ m ∈ p.macros, d.moveMacro? name = some m ∧ m.params.length = n := by
  rw [Definitions.moveMacro?, hd.macros_eq]
  exact exists_find?_of_takes heads_moveMacro hp.nodup_macros h

theorem exists_predicate (hd : p.Defines d) (hp : p.WellFormed) (h : p.Takes .predicate name n) :
    ∃ q ∈ p.predicates, d.predicate? name = some q ∧ q.params.length = n := by
  rw [Definitions.predicate?, hd.predicates_eq]
  exact exists_find?_of_takes heads_predicate hp.nodup_predicates h

theorem exists_effect (hd : p.Defines d) (hp : p.WellFormed) (h : p.Takes .effect name n) :
    ∃ e ∈ p.effects, d.effect? name = some e ∧ e.params.length = n := by
  rw [Definitions.effect?, hd.effects_eq]
  exact exists_find?_of_takes heads_effect hp.nodup_effects h

theorem mem_predicates (hd : p.Defines d) {q : Predicate} (h : d.predicate? name = some q) :
    q ∈ p.predicates ∧ q.name = name := by
  rw [Definitions.predicate?, hd.predicates_eq] at h
  exact ⟨List.mem_reverse.1 (List.mem_of_find?_eq_some h), by simpa using List.find?_some h⟩

end Defines
end Program
end BoardGame
