import BoardGame.Proofs.Checks.Specification
import BoardGame.Proofs.Results
import BoardGame.WellFormed

/-!
# The names that are collected

The heads of a program are checked one after another, and each is added to what is collected so far. A
pass succeeds if and only if each item is good after those before it (`checkEach_eq_ok_iff`); read of the
whole list, this is what `WellFormedHeads` says (`symbols_eq_ok_iff`). What is collected then describes
the program (`describes_table`).
-/

namespace BoardGame

theorem require_eq_ok_iff {q : Prop} [Decidable q] {flaw : Flaw} {u : Unit} :
    require q flaw = .ok u ↔ q := by
  unfold require
  split <;> simp [*]

/-! ### Lists with their beginnings -/

theorem nodup_filterMap_iff {α β : Type} {f : α → Option β} {as : List α} :
    (as.filterMap f).Nodup ↔
      ∀ before a after, as = before ++ a :: after → ∀ b ∈ f a, b ∉ before.filterMap f := by
  induction as with
  | nil => simp
  | cons a as ih =>
    have hcons : (∀ before a' after, a :: as = before ++ a' :: after →
          ∀ b ∈ f a', b ∉ before.filterMap f) ↔
        ∀ before a' after, as = before ++ a' :: after →
          ∀ b ∈ f a', b ∉ (a :: before).filterMap f := by
      constructor
      · rintro h before a' after rfl
        exact h (a :: before) a' after rfl
      · intro h before a' after heq
        cases before with
        | nil => simp
        | cons _ before =>
          obtain ⟨rfl, rfl⟩ := List.cons.inj heq
          exact h before a' after rfl
    rw [hcons]
    cases ha : f a with
    | none => simp only [List.filterMap_cons_none ha, ih]
    | some b =>
      simp only [List.filterMap_cons_some ha, List.nodup_cons, ih, List.mem_cons, not_or]
      constructor
      · rintro ⟨hb, h⟩ before a' after rfl c hc
        refine ⟨?_, h before a' after rfl c hc⟩
        rintro rfl
        exact hb (List.mem_filterMap.2 ⟨a', by simp, hc⟩)
      · intro h
        refine ⟨fun hb => ?_, fun before a' after heq c hc => (h before a' after heq c hc).2⟩
        obtain ⟨a', ha', hab⟩ := List.mem_filterMap.1 hb
        obtain ⟨before, after, rfl⟩ := List.append_of_mem ha'
        exact (h before a' after rfl b hab).1 rfl

theorem forall_mem_filterMap_iff {α β : Type} {f : α → Option β} {as : List α} {P : β → Prop} :
    (∀ b ∈ as.filterMap f, P b) ↔
      ∀ before a after, as = before ++ a :: after → ∀ b ∈ f a, P b := by
  constructor
  · rintro h before a after rfl b hb
    exact h b (List.mem_filterMap.2 ⟨a, by simp, hb⟩)
  · intro h b hb
    obtain ⟨a, ha, hab⟩ := List.mem_filterMap.1 hb
    obtain ⟨before, after, rfl⟩ := List.append_of_mem ha
    exact h before a after rfl b hab

theorem lookup_eq_some_iff_mem {α β : Type} [BEq α] [LawfulBEq α] {l : List (α × β)}
    (h : (l.map Prod.fst).Nodup) {a : α} {b : β} : l.lookup a = some b ↔ (a, b) ∈ l := by
  induction l with
  | nil => simp
  | cons entry l ih =>
    obtain ⟨k, v⟩ := entry
    obtain ⟨hk, hl⟩ := List.nodup_cons.1 h
    rw [List.lookup_cons, List.mem_cons]
    by_cases hak : a = k
    · subst hak
      have hnot : (a, b) ∉ l := fun hm => hk (List.mem_map.2 ⟨(a, b), hm, rfl⟩)
      simp [hnot, eq_comm]
    · have hne : (a == k) = false := beq_eq_false_iff_ne.2 hak
      simp [hne, hak, ih hl]

theorem checkEach_eq_ok_iff {α σ : Type} {step : σ → α → Except Flaw σ} {Good : σ → α → Prop}
    {next : σ → α → σ} (hstep : ∀ s a s', step s a = .ok s' ↔ Good s a ∧ s' = next s a)
    {items : List (Spanned α)} {s s' : σ} : checkEach step s items = .ok s' ↔
      (∀ before a after, items.map (·.value) = before ++ a :: after → Good (before.foldl next s) a) ∧
        s' = (items.map (·.value)).foldl next s := by
  induction items generalizing s with
  | nil => simp [checkEach, eq_comm]
  | cons item items ih =>
    have hcons : (∀ before a after, (item :: items).map (·.value) = before ++ a :: after →
          Good (before.foldl next s) a) ↔
        Good s item.value ∧ ∀ before a after, items.map (·.value) = before ++ a :: after →
          Good (before.foldl next (next s item.value)) a := by
      constructor
      · refine fun h => ⟨h [] item.value (items.map (·.value)) rfl, fun before a after heq => ?_⟩
        refine h (item.value :: before) a after ?_
        rw [List.map_cons, heq, List.cons_append]
      · rintro ⟨hgood, h⟩ before a after heq
        rw [List.map_cons] at heq
        cases before with
        | nil =>
          rw [← (List.cons.inj heq).1]
          exact hgood
        | cons _ before =>
          obtain ⟨rfl, htail⟩ := List.cons.inj heq
          exact h before a after htail
    rw [hcons, List.map_cons, List.foldl_cons, checkEach]
    cases hitem : step s item.value with
    | error flaw =>
      have hno : ¬ Good s item.value := by
        intro hgood
        rw [(hstep _ _ _).2 ⟨hgood, rfl⟩] at hitem
        cases hitem
      simp [hno]
    | ok t =>
      obtain ⟨hgood, rfl⟩ := (hstep _ _ _).1 hitem
      simp only [ih, hgood, true_and]

theorem checkEach_unit_eq_ok_iff {α : Type} {f : α → Except Flaw Unit} {items : List (Spanned α)}
    {u : Unit} : checkEach (fun _ a => f a) () items = .ok u ↔ ∀ item ∈ items, f item.value = .ok () := by
  induction items with
  | nil => simp [checkEach]
  | cons item items ih =>
    rw [checkEach, List.forall_mem_cons]
    cases f item.value with
    | error flaw => simp
    | ok u => simp only [ih, true_and]

/-! ### Heads -/

/-- The names of the declarations of a kind, each with the number of its parameters. -/
def Declaration.heads (kind : NameKind) (ds : List Declaration) : List (String × Nat) :=
  ds.filterMap fun d => (d.head? kind).map fun h => (h.1, h.2.length)

theorem Declaration.map_fst_heads (kind : NameKind) (ds : List Declaration) :
    (heads kind ds).map Prod.fst = ds.filterMap fun d => (d.head? kind).map Prod.fst := by
  rw [heads, List.map_filterMap]
  simp only [Option.map_map, Function.comp_def]

theorem Declaration.heads_cons (kind : NameKind) (d : Declaration) (ds : List Declaration) :
    heads kind (d :: ds) = heads kind [d] ++ heads kind ds :=
  List.filterMap_append (l := [d]) ..

namespace Symbols
open Declaration (heads)
variable {s t : Symbols} {winners : List String} {d : Declaration} {ds : List Declaration}

def withPlayers (s : Symbols) (names : List String) : Symbols :=
  { s with players := names.reverse ++ s.players }

def withPieces (s : Symbols) (qs : List PieceDecl) : Symbols :=
  { s with pieces := (qs.map fun q => (q.name, q.owner)).reverse ++ s.pieces }

def withHeads (s : Symbols) (ds : List Declaration) : Symbols :=
  { s with
    macros := (heads .moveMacro ds).reverse ++ s.macros
    predicates := (heads .predicate ds).reverse ++ s.predicates
    effects := (heads .effect ds).reverse ++ s.effects
    vars := ((heads .var ds).map Prod.fst).reverse ++ s.vars }

/-- The players with a victory, those of `ds` in front. -/
def withWinners (winners : List String) (ds : List Declaration) : List String :=
  ((heads .victory ds).map Prod.fst).reverse ++ winners

/-- The names of a kind that are collected; the players with a victory are kept apart. -/
def collected (s : Symbols) (winners : List String) : NameKind → List String
  | .player => s.players
  | .piece => s.pieces.map Prod.fst
  | .moveMacro => s.macros.map Prod.fst
  | .predicate => s.predicates.map Prod.fst
  | .effect => s.effects.map Prod.fst
  | .var => s.vars
  | .victory => winners
  | .rule | .param => []

/-- The head of `d` may be added to the names that are collected. -/
structure Fresh (s : Symbols) (winners : List String) (d : Declaration) : Prop where
  free : ∀ kind ∈ [NameKind.predicate, .var], ∀ name ∈ (d.head? kind).map Prod.fst,
    name ∉ reservedNames ∧ ¬ s.isPiece name
  unused : ∀ kind, ∀ name ∈ (d.head? kind).map Prod.fst, name ∉ s.collected winners kind

theorem addPlayer_eq_ok_iff {name : String} :
    s.addPlayer name = .ok t ↔ name ∉ s.players ∧ t = s.withPlayers [name] := by
  simp only [addPlayer, bind_eq_ok_iff, require_eq_ok_iff, pure_eq_ok_iff, exists_const]
  rfl

theorem addPiece_eq_ok_iff {q : PieceDecl} : s.addPiece q = .ok t ↔
    ((q.name ∉ reservedNames ∧ ¬ s.isPiece q.name) ∧ q.owner ∈ s.players ∧ ¬ s.isPiece q.name) ∧
      t = s.withPieces [q] := by
  simp only [addPiece, declarable, bind_eq_ok_iff, require_eq_ok_iff, pure_eq_ok_iff, exists_const,
    and_assoc]
  rfl

theorem fresh_iff : s.Fresh winners d ↔
    (∀ kind ∈ [NameKind.predicate, .var], ∀ name ∈ (d.head? kind).map Prod.fst,
      name ∉ reservedNames ∧ ¬ s.isPiece name) ∧
    ∀ kind ∈ [NameKind.moveMacro, .predicate, .effect, .var, .victory],
      ∀ name ∈ (d.head? kind).map Prod.fst, name ∉ s.collected winners kind := by
  refine ⟨fun h => ⟨h.free, fun kind _ => h.unused kind⟩, fun ⟨hfree, hunused⟩ => ⟨hfree, ?_⟩⟩
  intro kind
  cases kind with
  | player => simp [Declaration.head?]
  | piece => simp [Declaration.head?]
  | param => simp [Declaration.head?]
  | rule => simp [collected]
  | _ => exact hunused _ (by simp)

theorem addDeclaration_eq_ok_iff {state : Symbols × List String} :
    addDeclaration (s, winners) d = .ok state ↔
      s.Fresh winners d ∧ state = (s.withHeads [d], withWinners winners [d]) := by
  rw [fresh_iff]
  cases d <;>
    simp only [addDeclaration, declarable, bind_eq_ok_iff, require_eq_ok_iff, pure_eq_ok_iff,
      exists_const, Declaration.head?, collected, List.forall_mem_cons, List.not_mem_nil,
      Option.map_some, Option.map_none, Option.not_mem_none, Option.mem_some_iff, forall_eq',
      false_imp_iff, implies_true, true_and, and_true, and_self]
  case predicate => exact and_assoc.symm
  case var => exact and_assoc.symm
  all_goals rfl

theorem foldl_withPlayers (names : List String) (s : Symbols) :
    names.foldl (fun s name => s.withPlayers [name]) s = s.withPlayers names := by
  induction names generalizing s with
  | nil => rfl
  | cons name names ih =>
    rw [List.foldl_cons, ih]
    simp only [withPlayers, List.reverse_cons, List.append_assoc, List.reverse_nil, List.nil_append]

theorem foldl_withPieces (qs : List PieceDecl) (s : Symbols) :
    qs.foldl (fun s q => s.withPieces [q]) s = s.withPieces qs := by
  induction qs generalizing s with
  | nil => rfl
  | cons q qs ih =>
    rw [List.foldl_cons, ih]
    simp only [withPieces, List.map_cons, List.map_nil, List.reverse_cons, List.append_assoc,
      List.reverse_nil, List.nil_append]

theorem foldl_withHeads (ds : List Declaration) (s : Symbols) (winners : List String) :
    ds.foldl (fun state d => (state.1.withHeads [d], withWinners state.2 [d])) (s, winners) =
      (s.withHeads ds, withWinners winners ds) := by
  induction ds generalizing s winners with
  | nil => rfl
  | cons d ds ih =>
    rw [List.foldl_cons, ih]
    simp only [withHeads, withWinners, Declaration.heads_cons _ d ds, List.map_append,
      List.reverse_append, List.append_assoc]

end Symbols

/-! ### The names of a program -/

namespace Program
open Declaration (heads)
variable {p : Program} {s : Symbols}

theorem declared_eq_heads (p : Program) (kind : NameKind) (hplayer : kind ≠ .player)
    (hpiece : kind ≠ .piece) :
    p.declared kind = (heads kind (p.declarations.map (·.value))).map Prod.fst := by
  rw [Declaration.map_fst_heads, List.filterMap_map]
  cases kind <;> first | rfl | contradiction

theorem mem_heads_iff {kind : NameKind} {name : String} {n : Nat} :
    (name, n) ∈ heads kind (p.declarations.map (·.value)) ↔ p.Takes kind name n := by
  simp only [heads, Takes, List.mem_filterMap, List.mem_map, Option.map_eq_some_iff]
  constructor
  · rintro ⟨_, ⟨d, hd, rfl⟩, ⟨name', params⟩, hhead, heq⟩
    cases heq
    exact ⟨d, hd, params, hhead, rfl⟩
  · rintro ⟨d, hd, params, hhead, rfl⟩
    exact ⟨d.value, ⟨d, hd, rfl⟩, (name, params), hhead, rfl⟩

/-- What is collected of the program: the last name of each kind stands at the head. -/
def table (p : Program) : Symbols :=
  ((Symbols.withPlayers {} (p.players.map (·.value))).withPieces (p.pieces.map (·.value))).withHeads
    (p.declarations.map (·.value))

/-- What must hold of the program for its names to be collected. -/
structure WellFormedHeads (p : Program) : Prop where
  nodup : ∀ kind ≠ .rule, (p.declared kind).Nodup
  pieces_free : ∀ name ∈ p.declared .piece, name ∉ reservedNames
  owners : ∀ q ∈ p.pieces, q.value.owner ∈ p.declared .player
  free : ∀ kind ∈ [NameKind.predicate, .var], ∀ name ∈ p.declared kind, p.Free name

theorem checkEach_addPlayer_eq_ok_iff : checkEach Symbols.addPlayer {} p.players = .ok s ↔
    (p.declared .player).Nodup ∧ s = .withPlayers {} (p.players.map (·.value)) := by
  rw [checkEach_eq_ok_iff fun _ _ _ => Symbols.addPlayer_eq_ok_iff, Symbols.foldl_withPlayers]
  refine and_congr_left' ?_
  rw [← List.filterMap_some (l := p.declared .player), nodup_filterMap_iff]
  refine forall₄_congr fun before name after _ => ?_
  rw [Symbols.foldl_withPlayers]
  simp [Symbols.withPlayers]

theorem checkEach_addPiece_eq_ok_iff (hs : s.pieces = []) {t : Symbols} :
    checkEach Symbols.addPiece s p.pieces = .ok t ↔
      ((p.declared .piece).Nodup ∧ (∀ name ∈ p.declared .piece, name ∉ reservedNames) ∧
        ∀ q ∈ p.pieces, q.value.owner ∈ s.players) ∧ t = s.withPieces (p.pieces.map (·.value)) := by
  rw [checkEach_eq_ok_iff fun _ _ _ => Symbols.addPiece_eq_ok_iff, Symbols.foldl_withPieces]
  refine and_congr_left' ?_
  have hdeclared : p.declared .piece =
      (p.pieces.map (·.value)).filterMap fun q => some q.name := by
    rw [List.filterMap_map, declared, ← List.filterMap_eq_map]
    rfl
  have howners : (∀ q ∈ p.pieces, q.value.owner ∈ s.players) ↔
      ∀ owner ∈ (p.pieces.map (·.value)).filterMap fun q => some q.owner, owner ∈ s.players := by
    simp
  rw [hdeclared, howners, nodup_filterMap_iff, forall_mem_filterMap_iff, forall_mem_filterMap_iff]
  have hkeys : ∀ before : List PieceDecl, ∀ name,
      (before.foldl (fun s q => s.withPieces [q]) s).isPiece name ↔
        name ∈ before.filterMap fun q => some q.name := by
    intro before name
    rw [Symbols.foldl_withPieces]
    simp [Symbols.withPieces, Symbols.isPiece, hs]
  have hplayers : ∀ before : List PieceDecl,
      (before.foldl (fun s q => s.withPieces [q]) s).players = s.players := by
    intro before
    rw [Symbols.foldl_withPieces]
    rfl
  simp only [hkeys, hplayers, Option.mem_some_iff, forall_eq']
  constructor
  · intro h
    exact ⟨fun before q after heq => (h before q after heq).1.2,
      fun before q after heq => (h before q after heq).1.1,
      fun before q after heq => (h before q after heq).2.1⟩
  · rintro ⟨hnodup, hfree, howner⟩ before q after heq
    exact ⟨⟨hfree before q after heq, hnodup before q after heq⟩, howner before q after heq,
      hnodup before q after heq⟩

/-- The players and the pieces of the program. -/
def sides (p : Program) : Symbols :=
  (Symbols.withPlayers {} (p.players.map (·.value))).withPieces (p.pieces.map (·.value))

theorem fresh_withHeads_iff {before : List Declaration} {d : Declaration} :
    (p.sides.withHeads before).Fresh (Symbols.withWinners [] before) d ↔
      (∀ kind ∈ [NameKind.predicate, .var], ∀ name ∈ (d.head? kind).map Prod.fst, p.Free name) ∧
      ∀ kind ≠ .rule, ∀ name ∈ (d.head? kind).map Prod.fst,
        name ∉ before.filterMap fun d => (d.head? kind).map Prod.fst := by
  have hfree : ∀ name, (name ∉ reservedNames ∧ ¬ (p.sides.withHeads before).isPiece name) ↔
      p.Free name := by
    intro name
    simp [sides, Symbols.withHeads, Symbols.withPieces, Symbols.withPlayers, Symbols.isPiece, Free,
      declared]
  have hcollected : ∀ kind ∈ [NameKind.moveMacro, .predicate, .effect, .var, .victory], ∀ name,
      name ∈ (p.sides.withHeads before).collected (Symbols.withWinners [] before) kind ↔
        name ∈ before.filterMap fun d => (d.head? kind).map Prod.fst := by
    intro kind hkind name
    have hkeys : (p.sides.withHeads before).collected (Symbols.withWinners [] before) kind =
        ((heads kind before).map Prod.fst).reverse := by
      simp only [List.mem_cons, List.not_mem_nil, or_false] at hkind
      rcases hkind with rfl | rfl | rfl | rfl | rfl <;>
        simp [Symbols.collected, Symbols.withHeads, Symbols.withWinners, sides, Symbols.withPieces,
          Symbols.withPlayers]
    rw [hkeys, List.mem_reverse, Declaration.map_fst_heads]
  rw [Symbols.fresh_iff]
  simp only [hfree]
  refine and_congr_right' ⟨fun h kind hkind name hname => ?_, fun h kind hkind name hname => ?_⟩
  · have hmem : kind ∈ [NameKind.moveMacro, .predicate, .effect, .var, .victory] := by
      cases kind with
      | player => simp [Declaration.head?] at hname
      | piece => simp [Declaration.head?] at hname
      | param => simp [Declaration.head?] at hname
      | rule => exact absurd rfl hkind
      | _ => simp
    exact mt (hcollected kind hmem name).2 (h kind hmem name hname)
  · refine mt (hcollected kind hkind name).1 (h kind ?_ name hname)
    rintro rfl
    simp at hkind

theorem checkEach_addDeclaration_eq_ok_iff {state : Symbols × List String} :
    checkEach Symbols.addDeclaration (p.sides, []) p.declarations = .ok state ↔
      ((∀ kind ≠ .rule, kind ≠ .player → kind ≠ .piece → (p.declared kind).Nodup) ∧
        ∀ kind ∈ [NameKind.predicate, .var], ∀ name ∈ p.declared kind, p.Free name) ∧
      state = (p.table, Symbols.withWinners [] (p.declarations.map (·.value))) := by
  have hdeclared : ∀ kind ≠ .player, kind ≠ .piece → p.declared kind =
      (p.declarations.map (·.value)).filterMap fun d => (d.head? kind).map Prod.fst := by
    intro kind hplayer hpiece
    rw [declared_eq_heads p kind hplayer hpiece, Declaration.map_fst_heads]
  rw [checkEach_eq_ok_iff fun _ _ _ => Symbols.addDeclaration_eq_ok_iff, Symbols.foldl_withHeads]
  refine and_congr_left' ?_
  simp only [Symbols.foldl_withHeads, fresh_withHeads_iff]
  constructor
  · refine fun h => ⟨fun kind hrule hplayer hpiece => ?_, fun kind hkind => ?_⟩
    · rw [hdeclared kind hplayer hpiece, nodup_filterMap_iff]
      exact fun before d after heq => (h before d after heq).2 kind hrule
    · rw [hdeclared kind (by rintro rfl; simp at hkind) (by rintro rfl; simp at hkind),
        forall_mem_filterMap_iff]
      exact fun before d after heq => (h before d after heq).1 kind hkind
  · rintro ⟨hnodup, hfree⟩ before d after heq
    refine ⟨fun kind hkind => ?_, fun kind hrule name hname => ?_⟩
    · have h := hfree kind hkind
      rw [hdeclared kind (by rintro rfl; simp at hkind) (by rintro rfl; simp at hkind),
        forall_mem_filterMap_iff] at h
      exact h before d after heq
    · have hplayer : kind ≠ .player := by rintro rfl; simp [Declaration.head?] at hname
      have hpiece : kind ≠ .piece := by rintro rfl; simp [Declaration.head?] at hname
      have h := hnodup kind hrule hplayer hpiece
      rw [hdeclared kind hplayer hpiece, nodup_filterMap_iff] at h
      exact h before d after heq name hname

theorem symbols_eq_ok_iff : p.symbols = .ok s ↔ p.WellFormedHeads ∧ s = p.table := by
  have hpieces : ∀ t, checkEach Symbols.addPiece (.withPlayers {} (p.players.map (·.value))) p.pieces
      = .ok t ↔ _ := fun t => checkEach_addPiece_eq_ok_iff (p := p) rfl
  have hplayers : ∀ owner, owner ∈ (Symbols.withPlayers {} (p.players.map (·.value))).players ↔
      owner ∈ p.declared .player := by
    intro owner
    simp [Symbols.withPlayers, declared]
  simp only [hplayers] at hpieces
  simp only [symbols, bind_eq_ok_iff, checkEach_addPlayer_eq_ok_iff, pure_eq_ok_iff]
  constructor
  · rintro ⟨_, ⟨hplayer, rfl⟩, t, ht, state, hstate, rfl⟩
    obtain ⟨⟨hpiece, hreserved, howners⟩, rfl⟩ := (hpieces t).1 ht
    obtain ⟨⟨hnodup, hfree⟩, rfl⟩ := checkEach_addDeclaration_eq_ok_iff.1 hstate
    refine ⟨⟨fun kind hrule => ?_, hreserved, howners, hfree⟩, rfl⟩
    cases kind with
    | player => exact hplayer
    | piece => exact hpiece
    | _ => exact hnodup _ hrule nofun nofun
  · rintro ⟨h, rfl⟩
    refine ⟨_, ⟨h.nodup .player nofun, rfl⟩, p.sides,
      (hpieces _).2 ⟨⟨h.nodup .piece nofun, h.pieces_free, h.owners⟩, rfl⟩, _,
      checkEach_addDeclaration_eq_ok_iff.2 ⟨⟨fun kind hrule _ _ => h.nodup kind hrule, h.free⟩, rfl⟩, rfl⟩

/-- The symbols tell of each name what the program declares. -/
structure Describes (p : Program) (s : Symbols) : Prop where
  mem_players : ∀ name, name ∈ s.players ↔ name ∈ p.declared .player
  isPiece : ∀ name, s.isPiece name ↔ name ∈ p.declared .piece
  lookup_pieces : ∀ name owner, s.pieces.lookup name = some owner ↔
    ∃ q ∈ p.pieces, q.value.name = name ∧ q.value.owner = owner
  lookup_macros : ∀ name n, s.macros.lookup name = some n ↔ p.Takes .moveMacro name n
  lookup_predicates : ∀ name n, s.predicates.lookup name = some n ↔ p.Takes .predicate name n
  lookup_effects : ∀ name n, s.effects.lookup name = some n ↔ p.Takes .effect name n
  mem_vars : ∀ name, name ∈ s.vars ↔ name ∈ p.declared .var
  predicates_free : ∀ name n, p.Takes .predicate name n → name ∉ builtinNames

theorem lookup_heads_eq_some_iff (kind : NameKind) (hplayer : kind ≠ .player) (hpiece : kind ≠ .piece)
    (h : (p.declared kind).Nodup) {name : String} {n : Nat} :
    (heads kind (p.declarations.map (·.value))).reverse.lookup name = some n ↔ p.Takes kind name n := by
  rw [declared_eq_heads p kind hplayer hpiece, ← (List.reverse_perm _).nodup_iff, ← List.map_reverse] at h
  rw [lookup_eq_some_iff_mem h, List.mem_reverse, mem_heads_iff]

theorem Takes.mem_declared (kind : NameKind) (hplayer : kind ≠ .player) (hpiece : kind ≠ .piece)
    {name : String} {n : Nat} (h : p.Takes kind name n) : name ∈ p.declared kind := by
  rw [declared_eq_heads p kind hplayer hpiece]
  exact List.mem_map_of_mem (mem_heads_iff.2 h)

theorem describes_table (h : p.WellFormedHeads) : p.Describes p.table where
  mem_players := by simp [table, Symbols.withHeads, Symbols.withPieces, Symbols.withPlayers, declared]
  isPiece := by
    simp [table, Symbols.withHeads, Symbols.withPieces, Symbols.withPlayers, Symbols.isPiece, declared]
  lookup_pieces := by
    have hkeys : (p.table.pieces.map Prod.fst).Nodup := by
      have hnodup := (List.reverse_perm _).nodup_iff.2 (h.nodup .piece nofun)
      simpa [table, Symbols.withHeads, Symbols.withPieces, Symbols.withPlayers, declared,
        Function.comp_def] using hnodup
    intro name owner
    rw [lookup_eq_some_iff_mem hkeys]
    simp [table, Symbols.withHeads, Symbols.withPieces, Symbols.withPlayers]
  lookup_macros := by
    simp [table, Symbols.withHeads, Symbols.withPieces, Symbols.withPlayers,
      lookup_heads_eq_some_iff .moveMacro nofun nofun (h.nodup _ nofun)]
  lookup_predicates := by
    simp [table, Symbols.withHeads, Symbols.withPieces, Symbols.withPlayers,
      lookup_heads_eq_some_iff .predicate nofun nofun (h.nodup _ nofun)]
  lookup_effects := by
    simp [table, Symbols.withHeads, Symbols.withPieces, Symbols.withPlayers,
      lookup_heads_eq_some_iff .effect nofun nofun (h.nodup _ nofun)]
  mem_vars := by
    simp [table, Symbols.withHeads, Symbols.withPieces, Symbols.withPlayers,
      declared_eq_heads p .var nofun nofun]
  predicates_free := by
    intro name n hname hbuiltin
    have hmem : name ∈ p.declared .predicate := Takes.mem_declared .predicate nofun nofun hname
    refine (h.free .predicate (by simp) name hmem).1 ?_
    have hsub : ∀ b ∈ builtinNames, b ∈ reservedNames := by decide
    exact hsub name hbuiltin

end Program
end BoardGame
