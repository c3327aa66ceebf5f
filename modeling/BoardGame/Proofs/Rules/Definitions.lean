import Mathlib.Data.List.Nodup
import BoardGame.Proofs.Checks.Heads
import BoardGame.Rules

/-!
# The definitions that rules are built with

Collecting the definitions of a program succeeds if and only if it declares the players that it names as
owners and for victories, and gives its `dictionary` then (`definitions_eq_ok_iff`). In the dictionary the
last definition of a kind comes first. Where no player has two victories, the slot of a player holds the
condition of its victory (`getElem?_victories`).
-/

namespace BoardGame

/-! ### Players and pieces by name -/

namespace Definitions
variable {d : Definitions} {name : String}

theorem playerId?_of_mem (h : name ∈ d.players) :
    d.playerId? name = some (d.players.idxOf name) := by
  rw [playerId?, List.findIdx?_eq_some_iff_findIdx_eq]
  exact ⟨List.idxOf_lt_length_iff.2 h, rfl⟩

theorem playerId?_eq_none_iff : d.playerId? name = none ↔ name ∉ d.players := by
  rw [playerId?, List.findIdx?_eq_none_iff]
  simp only [decide_eq_false_iff_not]
  exact ⟨fun h hmem => h name hmem rfl, fun h x hx heq => h (heq ▸ hx)⟩

theorem lt_length_of_pieceId? {piece : PieceId} (h : d.pieceId? name = some piece) :
    piece < d.pieces.length :=
  (List.findIdx?_eq_some_iff_findIdx_eq.1 h).1

theorem exists_pieceId? (h : name ∈ d.pieces.map (·.name)) : ∃ piece, d.pieceId? name = some piece := by
  obtain ⟨type, htype, rfl⟩ := List.mem_map.1 h
  cases hfind : d.pieceId? type.name with
  | some piece => exact ⟨piece, rfl⟩
  | none =>
    have hne := List.findIdx?_eq_none_iff.1 hfind type htype
    simp at hne

/-! ### Adding what is declared -/

/-- With a piece of this name and owner. -/
def withPiece (d : Definitions) (q : PieceDecl) : Definitions :=
  { d with pieces := d.pieces ++ [⟨q.name, d.players.idxOf q.owner⟩] }

/-- With what a declaration defines. -/
def withDeclaration (d : Definitions) : Declaration → Definitions
  | .moveMacro m => { d with macros := m :: d.macros }
  | .predicate q => { d with predicates := q :: d.predicates }
  | .effect e => { d with effects := e :: d.effects }
  | .victory v =>
    { d with victories := d.victories.set (d.players.idxOf v.player) (some v.condition) }
  | .rule _ | .var _ => d

theorem addPiece_eq_ok_iff {d' : Definitions} {q : PieceDecl} :
    d.addPiece q = .ok d' ↔ q.owner ∈ d.players ∧ d' = d.withPiece q := by
  unfold addPiece
  by_cases h : q.owner ∈ d.players
  · rw [playerId?_of_mem h]
    simp only [h, true_and, Except.ok.injEq]
    exact eq_comm
  · rw [playerId?_eq_none_iff.2 h]
    simp [h]

theorem addDeclaration_eq_ok_iff {d' : Definitions} {x : Declaration} :
    d.addDeclaration x = .ok d' ↔
      (∀ name ∈ (x.head? .victory).map Prod.fst, name ∈ d.players) ∧ d' = d.withDeclaration x := by
  cases x with
  | victory v =>
    rw [addDeclaration, Declaration.head?]
    by_cases h : v.player ∈ d.players
    · rw [playerId?_of_mem h]
      simp only [Option.map_some, Option.mem_some_iff, forall_eq', h, true_and, Except.ok.injEq]
      exact eq_comm
    · rw [playerId?_eq_none_iff.2 h]
      simp [h]
  | _ => simp [addDeclaration, withDeclaration, Declaration.head?, eq_comm]

/-- A pass over a list that keeps the players and adds each item that is good with them. -/
theorem foldlM_eq_ok_iff {α : Type} {add : Definitions → α → Except BuildError Definitions}
    {next : Definitions → α → Definitions} {P : List String → α → Prop}
    (hadd : ∀ d a d', add d a = .ok d' ↔ P d.players a ∧ d' = next d a)
    (hnext : ∀ d a, (next d a).players = d.players) {as : List α} {d d' : Definitions} :
    as.foldlM add d = .ok d' ↔ (∀ a ∈ as, P d.players a) ∧ d' = as.foldl next d := by
  induction as generalizing d with
  | nil => simp [pure_eq_ok_iff]
  | cons a as ih =>
    rw [List.foldlM_cons, bind_eq_ok_iff, List.forall_mem_cons, List.foldl_cons]
    constructor
    · rintro ⟨d₁, h₁, h⟩
      obtain ⟨hgood, rfl⟩ := (hadd _ _ _).1 h₁
      obtain ⟨hall, rfl⟩ := ih.1 h
      rw [hnext] at hall
      exact ⟨⟨hgood, hall⟩, rfl⟩
    · rintro ⟨⟨hgood, hall⟩, rfl⟩
      refine ⟨_, (hadd _ _ _).2 ⟨hgood, rfl⟩, ih.2 ⟨?_, rfl⟩⟩
      rwa [hnext]

theorem addPieces_eq_ok_iff {d' : Definitions} {qs : List PieceDecl} :
    qs.foldlM addPiece d = .ok d' ↔ (∀ q ∈ qs, q.owner ∈ d.players) ∧ d' = qs.foldl withPiece d :=
  foldlM_eq_ok_iff (P := fun players (q : PieceDecl) => q.owner ∈ players)
    (fun _ _ _ => addPiece_eq_ok_iff) fun _ _ => rfl

theorem addDeclarations_eq_ok_iff {d' : Definitions} {xs : List Declaration} :
    xs.foldlM addDeclaration d = .ok d' ↔
      (∀ x ∈ xs, ∀ name ∈ (x.head? .victory).map Prod.fst, name ∈ d.players) ∧
        d' = xs.foldl withDeclaration d :=
  foldlM_eq_ok_iff
    (P := fun players (x : Declaration) => ∀ name ∈ (x.head? .victory).map Prod.fst, name ∈ players)
    (fun _ _ _ => addDeclaration_eq_ok_iff) fun _ x => by cases x <;> rfl

theorem foldl_withPiece (qs : List PieceDecl) (d : Definitions) : qs.foldl withPiece d =
    { d with pieces := d.pieces ++ qs.map fun q => ⟨q.name, d.players.idxOf q.owner⟩ } := by
  induction qs generalizing d with
  | nil => simp
  | cons q qs ih => simp [ih, withPiece]

end Definitions

/-! ### The dictionary of a program -/

/-- The slots after each of the victories has put its condition into that of its player. -/
def fillSlots (players : List String) (vs : List Victory) (slots : List (Option Expr)) :
    List (Option Expr) :=
  vs.foldl (fun slots v => slots.set (players.idxOf v.player) (some v.condition)) slots

theorem length_fillSlots (players : List String) (vs : List Victory) (slots : List (Option Expr)) :
    (fillSlots players vs slots).length = slots.length := by
  induction vs generalizing slots with
  | nil => rfl
  | cons v vs ih => exact (ih _).trans List.length_set

theorem mem_fillSlots {players : List String} {vs : List Victory} {slots : List (Option Expr)} {e : Expr}
    (h : some e ∈ fillSlots players vs slots) : (∃ v ∈ vs, v.condition = e) ∨ some e ∈ slots := by
  induction vs generalizing slots with
  | nil => exact .inr h
  | cons v vs ih =>
    rcases ih h with ⟨v', hv', hcondition⟩ | hslot
    · exact .inl ⟨v', List.mem_cons_of_mem _ hv', hcondition⟩
    · rcases List.mem_or_eq_of_mem_set hslot with hslot | hslot
      · exact .inr hslot
      · exact .inl ⟨v, List.mem_cons_self .., (Option.some.inj hslot).symm⟩

theorem idxOf_eq_iff {names : List String} (h : names.Nodup) {i : Nat} {name name' : String}
    (hi : names[i]? = some name) : names.idxOf name' = i ↔ name' = name := by
  obtain ⟨hlt, rfl⟩ := List.getElem?_eq_some_iff.1 hi
  constructor
  · rintro rfl
    exact (List.getElem_idxOf hlt).symm
  · rintro rfl
    exact h.idxOf_getElem i hlt

/-- If no player has two victories, a slot that was filled holds the condition of its player. -/
theorem getElem?_fillSlots {players : List String} {vs : List Victory} {slots : List (Option Expr)}
    (hplayers : players.Nodup) (hvs : (vs.map (·.player)).Nodup) (hlen : slots.length = players.length)
    {i : Nat} {name : String} (hi : players[i]? = some name) {e : Expr} :
    (fillSlots players vs slots)[i]? = some (some e) ↔
      ⟨name, e⟩ ∈ vs ∨ name ∉ vs.map (·.player) ∧ slots[i]? = some (some e) := by
  induction vs generalizing slots with
  | nil => simp [fillSlots]
  | cons v vs ih =>
    obtain ⟨player, condition⟩ := v
    obtain ⟨hv, hvs⟩ := List.nodup_cons.1 hvs
    have hlt : i < slots.length := by
      rw [hlen]
      exact (List.getElem?_eq_some_iff.1 hi).1
    have hfill : fillSlots players (⟨player, condition⟩ :: vs) slots =
        fillSlots players vs (slots.set (players.idxOf player) (some condition)) := rfl
    rw [hfill, ih hvs (by rwa [List.length_set]), List.getElem?_set]
    by_cases hname : player = name
    · subst hname
      have hnew : ∀ e, ⟨player, e⟩ ∉ vs := fun e he => hv (List.mem_map.2 ⟨_, he, rfl⟩)
      rw [if_pos ((idxOf_eq_iff hplayers hi).2 rfl), (idxOf_eq_iff hplayers hi).2 rfl, if_pos hlt]
      have hfresh : player ∉ vs.map (·.player) := hv
      simp only [hnew, hfresh, List.map_cons, List.mem_cons, Victory.mk.injEq, Option.some.injEq,
        true_and, false_or, or_false, not_true_eq_false, not_false_eq_true, false_and]
      exact eq_comm
    · rw [if_neg (mt (idxOf_eq_iff hplayers hi).1 hname)]
      simp [Ne.symm hname]

namespace Program
variable {p : Program} {d : Definitions}

/-- What the names of a program stand for. -/
def dictionary (p : Program) : Definitions where
  players := p.players.map (·.value)
  pieces := p.pieces.map fun q => ⟨q.value.name, (p.players.map (·.value)).idxOf q.value.owner⟩
  macros := p.macros.reverse
  predicates := p.predicates.reverse
  effects := p.effects.reverse
  victories := fillSlots (p.players.map (·.value)) p.victories (p.players.map fun _ => none)

theorem foldl_withDeclaration (p : Program) (d : Definitions) :
    (p.declarations.map (·.value)).foldl Definitions.withDeclaration d = { d with
      macros := p.macros.reverse ++ d.macros
      predicates := p.predicates.reverse ++ d.predicates
      effects := p.effects.reverse ++ d.effects
      victories := fillSlots d.players p.victories d.victories } := by
  obtain ⟨players, pieces, ds, board⟩ := p
  induction ds generalizing d with
  | nil => rfl
  | cons x ds ih =>
    rw [List.map_cons, List.foldl_cons]
    refine (ih _).trans ?_
    cases hx : x.value <;>
      simp [Definitions.withDeclaration, macros, predicates, effects, victories, hx, fillSlots]

theorem definitions_eq_ok_iff : p.definitions = .ok d ↔
    ((∀ q ∈ p.pieces, q.value.owner ∈ p.declared .player) ∧
      ∀ name ∈ p.declared .victory, name ∈ p.declared .player) ∧ d = p.dictionary := by
  have hpieces : ∀ d, (p.pieces.map (·.value)).foldlM Definitions.addPiece
      { players := p.players.map (·.value) } = .ok d ↔
        (∀ q ∈ p.pieces, q.value.owner ∈ p.declared .player) ∧
          d = { players := p.dictionary.players, pieces := p.dictionary.pieces } := by
    intro d
    rw [Definitions.addPieces_eq_ok_iff, Definitions.foldl_withPiece, List.forall_mem_map, List.nil_append,
      List.map_map]
    rfl
  have hdeclarations : ∀ d, (p.declarations.map (·.value)).foldlM Definitions.addDeclaration
      { players := p.dictionary.players, pieces := p.dictionary.pieces
        victories := p.dictionary.players.map fun _ => none } = .ok d ↔
        (∀ name ∈ p.declared .victory, name ∈ p.declared .player) ∧ d = p.dictionary := by
    intro d
    rw [Definitions.addDeclarations_eq_ok_iff, foldl_withDeclaration, List.forall_mem_map]
    refine and_congr ?_ ?_
    · rw [declared_eq_heads p .victory nofun nofun, Declaration.map_fst_heads, List.filterMap_map,
        List.forall_mem_filterMap]
      rfl
    · simp only [dictionary, List.append_nil, List.map_map]
      rfl
  rw [definitions, bind_eq_ok_iff]
  constructor
  · rintro ⟨d₁, h₁, h⟩
    obtain ⟨howners, rfl⟩ := (hpieces _).1 h₁
    obtain ⟨hplayers, rfl⟩ := (hdeclarations _).1 h
    exact ⟨⟨howners, hplayers⟩, rfl⟩
  · rintro ⟨⟨howners, hplayers⟩, rfl⟩
    exact ⟨_, (hpieces _).2 ⟨howners, rfl⟩, (hdeclarations _).2 ⟨hplayers, rfl⟩⟩

theorem declared_victory : p.declared .victory = p.victories.map (·.player) := by
  rw [victories, List.map_filterMap]
  show p.declarations.filterMap (fun d => (d.value.head? .victory).map Prod.fst) = _
  congr 1
  funext d
  cases d.value <;> rfl

theorem declared_rule : p.declared .rule = p.rules.map (·.piece) := by
  rw [rules, List.map_filterMap]
  show p.declarations.filterMap (fun d => (d.value.head? .rule).map Prod.fst) = _
  congr 1
  funext d
  cases d.value <;> rfl

theorem declared_var : p.declared .var = p.variableDecls.map (·.name) := by
  rw [variableDecls, List.map_filterMap]
  show p.declarations.filterMap (fun d => (d.value.head? .var).map Prod.fst) = _
  congr 1
  funext d
  cases d.value <;> rfl

theorem length_victories : p.dictionary.victories.length = p.players.length := by
  simp [dictionary, length_fillSlots]

/-- The slot of a player holds the condition of its victory. -/
theorem getElem?_victories (hp : p.WellFormed) {i : Nat} {name : String}
    (hi : p.dictionary.players[i]? = some name) {e : Expr} :
    p.dictionary.victories[i]? = some (some e) ↔ ⟨name, e⟩ ∈ p.victories := by
  have hplayers : (p.players.map (·.value)).Nodup := hp.nodup .player
  have hvictories := hp.nodup .victory
  rw [declared_victory] at hvictories
  refine (getElem?_fillSlots hplayers hvictories (by simp) hi).trans ?_
  have hempty : (p.players.map fun _ => (none : Option Expr))[i]? ≠ some (some e) := by
    simp [List.getElem?_replicate]
  simp only [hempty, and_false, or_false]

/-! ### Looking up under distinct names -/

/-- Of things with distinct keys, that with a key is found wherever it stands. -/
theorem find?_eq_some_iff_of_nodup {α : Type} {key : α → String} {as : List α} {a : α} {name : String}
    (h : (as.map key).Nodup) : as.find? (key · = name) = some a ↔ a ∈ as ∧ key a = name := by
  constructor
  · intro hfind
    exact ⟨List.mem_of_find?_eq_some hfind, by simpa using List.find?_some hfind⟩
  · rintro ⟨ha, rfl⟩
    cases hfind : as.find? (key · = key a) with
    | none =>
      have hne := List.find?_eq_none.1 hfind a ha
      simp at hne
    | some b =>
      have hkey : key b = key a := by simpa using List.find?_some hfind
      rw [List.inj_on_of_nodup_map h (List.mem_of_find?_eq_some hfind) ha hkey]

theorem find?_eq_of_perm {α : Type} {key : α → String} {as bs : List α} (hperm : as.Perm bs)
    (h : (bs.map key).Nodup) (name : String) :
    as.find? (key · = name) = bs.find? (key · = name) := by
  have h' : (as.map key).Nodup := (hperm.map key).nodup_iff.2 h
  refine Option.ext fun a => ?_
  rw [find?_eq_some_iff_of_nodup h', find?_eq_some_iff_of_nodup h, hperm.mem_iff]

end Program
end BoardGame
