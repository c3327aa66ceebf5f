import BoardGame.Proofs.Checks.Decision

/-!
# Names that are declared again

To a program that passes the checks an entry is added that declares again what an earlier one of its list
declares. The pass that looks for it has taken all before that entry, as it did without it, so what it
finds there is the first flaw (`checkEach_repeated`). It is a duplicate, of the kind and the name of the
entry, except for a piece: whether a name may be declared at all is asked first, and the name of a piece
may not.
-/

namespace BoardGame

namespace Declaration

/-- What is declared; a rule is declared for a piece, a victory for a player. -/
def kind : Declaration → NameKind
  | rule _ => .rule
  | moveMacro _ => .moveMacro
  | predicate _ => .predicate
  | effect _ => .effect
  | var _ => .var
  | victory _ => .victory

/-- The name that is declared, or has a rule or a victory declared for it. -/
def name : Declaration → String
  | rule r => r.piece
  | moveMacro m => m.name
  | predicate q => q.name
  | effect e => e.name
  | var v => v.name
  | victory v => v.player

/-- What no other declaration of a program that passes the checks has. -/
def key (d : Declaration) : NameKind × String := (d.kind, d.name)

theorem map_fst_head?_kind (d : Declaration) : (d.head? d.kind).map Prod.fst = some d.name := by
  cases d <;> rfl

end Declaration

/-! ### An entry more -/

section
variable {α κ σ : Type} {step : σ → α → Except Flaw σ} {s t : σ} {items items' : List (Spanned α)}
  {copy : Spanned α} {key : α → κ}

/-- `items'` are the values of `items` and `copy` besides, which comes after an entry of the same
`key`. Where they were read from is left open. -/
def Repeats (key : α → κ) (items : List (Spanned α)) (copy : Spanned α) (items' : List (Spanned α)) :
    Prop :=
  ∃ before after, items' = before ++ copy :: after ∧
    (before ++ after).map (·.value) = items.map (·.value) ∧
    key copy.value ∈ before.map (key ·.value)

/-- Only the place of a flaw depends on the places of the items. -/
theorem checkEach_eq_ok_iff_foldlM :
    checkEach step s items = .ok t ↔ (items.map (·.value)).foldlM step s = .ok t := by
  induction items generalizing s with
  | nil => simp [checkEach, pure, Except.pure]
  | cons item items ih =>
    rw [checkEach, List.map_cons, List.foldlM_cons]
    cases step s item.value with
    | error flaw => simp [bind, Except.bind]
    | ok u => exact ih

theorem checkEach_congr (h : items'.map (·.value) = items.map (·.value)) :
    checkEach step s items' = .ok t ↔ checkEach step s items = .ok t := by
  rw [checkEach_eq_ok_iff_foldlM, checkEach_eq_ok_iff_foldlM, h]

theorem checkEach_append_eq_ok_iff {before after : List (Spanned α)} :
    checkEach step s (before ++ after) = .ok t ↔
      ∃ u, checkEach step s before = .ok u ∧ checkEach step u after = .ok t := by
  simp only [checkEach_eq_ok_iff_foldlM, List.map_append, List.foldlM_append, bind_eq_ok_iff]

/-- The flaw of the first item that has one is found, whatever comes after it. -/
theorem checkEach_append_cons_of_error {before after : List (Spanned α)} {flaw : Flaw}
    (hbefore : checkEach step s before = .ok t) (hcopy : step t copy.value = .error flaw) :
    checkEach step s (before ++ copy :: after) = .error (copy.map fun _ => flaw) := by
  induction before generalizing s with
  | nil =>
    cases hbefore
    rw [List.nil_append, checkEach, hcopy]
  | cons item before ih =>
    rw [checkEach] at hbefore
    rw [List.cons_append, checkEach]
    cases hitem : step s item.value with
    | error flaw => simp [hitem] at hbefore
    | ok u =>
      rw [hitem] at hbefore
      exact ih hbefore

/-- A pass that takes all items fails at an entry more, if its step does after whatever items with the
same key that it takes. -/
theorem checkEach_repeated {flaw : α → Flaw} (h : checkEach step s items = .ok t)
    (hrepeats : Repeats key items copy items')
    (hflaw : ∀ before u, checkEach step s before = .ok u → key copy.value ∈ before.map (key ·.value) →
      step u copy.value = .error (flaw copy.value)) :
    checkEach step s items' = .error (copy.map flaw) := by
  obtain ⟨before, after, rfl, hvalues, hkey⟩ := hrepeats
  obtain ⟨u, hbefore, -⟩ := checkEach_append_eq_ok_iff.1 ((checkEach_congr hvalues).2 h)
  exact checkEach_append_cons_of_error hbefore (hflaw before u hbefore hkey)

/-- An entry more that changes no state changes no result. -/
theorem checkEach_repeated_of_ok (h : checkEach step s items = .ok t)
    (hrepeats : Repeats key items copy items') (hcopy : ∀ u, step u copy.value = .ok u) :
    checkEach step s items' = .ok t := by
  obtain ⟨before, after, rfl, hvalues, -⟩ := hrepeats
  obtain ⟨u, hbefore, hafter⟩ := checkEach_append_eq_ok_iff.1 ((checkEach_congr hvalues).2 h)
  refine checkEach_append_eq_ok_iff.2 ⟨u, hbefore, ?_⟩
  rw [checkEach, hcopy]
  exact hafter

end

section
variable {α : Type} {q : Prop} [Decidable q] {flaw : Flaw} {f : Unit → Except Flaw α}

theorem require_bind_of_not (h : ¬ q) : (require q flaw >>= f) = .error flaw := by
  rw [require, if_neg h]
  rfl

theorem require_bind_of (h : q) : (require q flaw >>= f) = f () := by
  rw [require, if_pos h]
  rfl

end

/-! ### What a step finds -/

namespace Symbols
variable {s : Symbols} {winners ruled : List String}

theorem addPlayer_of_mem {name : String} (h : name ∈ s.players) :
    s.addPlayer name = .error (.duplicate .player name) :=
  require_bind_of_not (not_not_intro h)

/-- The name of a piece may not be declared, by a piece either. -/
theorem addPiece_of_isPiece {q : PieceDecl} (h : s.isPiece q.name) :
    s.addPiece q = .error (.reserved q.name) :=
  require_bind_of_not fun hfree => hfree.2 h

/-- So a piece is never found to be declared more than once. -/
theorem addPiece_ne_duplicate {q : PieceDecl} {name : String} :
    s.addPiece q ≠ .error (.duplicate .piece name) := by
  by_cases hpiece : s.isPiece q.name
  · simp [addPiece_of_isPiece hpiece]
  · rw [addPiece, require_bind_of (q := ¬ s.isPiece q.name) hpiece]
    simp only [declarable, require]
    split <;> split <;> simp [bind, Except.bind, pure, Except.pure]

theorem addDeclaration_of_mem {d : Declaration}
    (hfree : d.kind ∈ [NameKind.predicate, .var] → d.name ∉ reservedNames ∧ ¬ s.isPiece d.name)
    (h : d.name ∈ s.collected winners d.kind) :
    addDeclaration (s, winners) d = .error (.duplicate d.kind d.name) := by
  cases d with
  | rule r => simp [Declaration.kind, collected] at h
  | moveMacro m => exact require_bind_of_not (not_not_intro h)
  | effect e => exact require_bind_of_not (not_not_intro h)
  | victory v => exact require_bind_of_not (not_not_intro h)
  | predicate q =>
    exact (require_bind_of (hfree (.head _))).trans (require_bind_of_not (not_not_intro h))
  | var v =>
    exact (require_bind_of (hfree (.tail _ (.head _)))).trans (require_bind_of_not (not_not_intro h))

/-- A declaration of `ds` is collected with them, unless it is a rule. -/
theorem mem_collected_withHeads {ds : List Declaration} {d : Declaration} (hd : d ∈ ds)
    (hkind : d.kind ≠ .rule) :
    d.name ∈ (s.withHeads ds).collected (withWinners winners ds) d.kind := by
  have hmem : d.name ∈ (Declaration.heads d.kind ds).map Prod.fst := by
    rw [Declaration.map_fst_heads]
    exact List.mem_filterMap.2 ⟨d, hd, d.map_fst_head?_kind⟩
  have hcollected : (s.withHeads ds).collected (withWinners winners ds) d.kind =
      ((Declaration.heads d.kind ds).map Prod.fst).reverse ++ s.collected winners d.kind := by
    cases d with
    | rule r => exact absurd rfl hkind
    | _ => simp [Declaration.kind, collected, withHeads, withWinners]
  rw [hcollected]
  exact List.mem_append_left _ (List.mem_reverse.2 hmem)

/-- What is declared once more after `before` is found, since it was free to be declared. -/
theorem addDeclaration_of_checkEach {before : List (Spanned Declaration)} {d : Declaration}
    {state : Symbols × List String} (h : checkEach addDeclaration (s, winners) before = .ok state)
    (hd : d.key ∈ before.map (·.value.key))
    (hkind : d.kind ≠ .rule) : addDeclaration state d = .error (.duplicate d.kind d.name) := by
  obtain ⟨hfresh, rfl⟩ := (checkEach_eq_ok_iff fun _ _ _ => addDeclaration_eq_ok_iff).1 h
  simp only [foldl_withHeads] at hfresh ⊢
  obtain ⟨d', hd', heq⟩ := List.mem_map.1 hd
  have hkind' : d'.value.kind = d.kind := congrArg Prod.fst heq
  have hname' : d'.value.name = d.name := congrArg Prod.snd heq
  refine addDeclaration_of_mem (fun hfree => ?_) ?_
  · obtain ⟨earlier, later, hsplit⟩ := List.append_of_mem (List.mem_map_of_mem (f := (·.value)) hd')
    have hname : d.name ∈ (d'.value.head? d.kind).map Prod.fst := by
      rw [← hkind', ← hname', d'.value.map_fst_head?_kind]
      rfl
    exact (hfresh earlier d'.value later hsplit).free d.kind hfree d.name hname
  · rw [← hkind', ← hname']
    exact mem_collected_withHeads (List.mem_map_of_mem hd') (hkind' ▸ hkind)

theorem checkBody_of_mem {d : Declaration} (hkind : d.kind = .rule) (hpiece : s.isPiece d.name)
    (h : d.name ∈ ruled) : s.checkBody ruled d = .error (.duplicate .rule d.name) := by
  cases d with
  | rule r => exact (require_bind_of hpiece).trans (require_bind_of_not (not_not_intro h))
  | _ => cases hkind

/-- A second rule for a piece is found when its body is to be checked. -/
theorem checkBody_of_checkEach {p : Program} (hs : p.Describes s)
    {before : List (Spanned Declaration)} {d : Declaration}
    (h : checkEach s.checkBody [] before = .ok ruled)
    (hd : d.key ∈ before.map (·.value.key))
    (hkind : d.kind = .rule) : s.checkBody ruled d = .error (.duplicate .rule d.name) := by
  obtain ⟨hbodies, rfl⟩ := (checkEach_eq_ok_iff fun _ _ _ => checkBody_eq_ok_iff hs).1 h
  obtain ⟨d', hd', heq⟩ := List.mem_map.1 hd
  have hkind' : d'.value.kind = d.kind := congrArg Prod.fst heq
  have hname' : d'.value.name = d.name := congrArg Prod.snd heq
  have hrule : (d'.value.head? .rule).map Prod.fst = some d.name := by
    rw [← hkind, ← hkind', ← hname', d'.value.map_fst_head?_kind]
  obtain ⟨earlier, later, hsplit⟩ := List.append_of_mem (List.mem_map_of_mem (f := (·.value)) hd')
  refine checkBody_of_mem hkind ?_ ?_
  · exact (hs.isPiece _).2 ((hbodies earlier d'.value later hsplit).2.1 d.name hrule).1
  · rw [foldl_withRule, List.append_nil, List.mem_reverse]
    exact List.mem_filterMap.2 ⟨d'.value, List.mem_map_of_mem hd', hrule⟩

end Symbols

/-! ### A program with an entry more -/

namespace Program
variable {p q : Program}

theorem checkEach_addPlayer_repeated {s : Symbols} {copy : Spanned String}
    (h : checkEach Symbols.addPlayer {} p.players = .ok s)
    (hrepeats : Repeats id p.players copy q.players) :
    checkEach Symbols.addPlayer {} q.players = .error (copy.map fun name => .duplicate .player name) := by
  refine checkEach_repeated h hrepeats fun before t hbefore hname => Symbols.addPlayer_of_mem ?_
  obtain ⟨-, rfl⟩ := (checkEach_eq_ok_iff fun _ _ _ => Symbols.addPlayer_eq_ok_iff).1 hbefore
  rw [Symbols.foldl_withPlayers]
  simpa [Symbols.withPlayers] using hname

theorem checkEach_addPiece_repeated {s t : Symbols} {copy : Spanned PieceDecl}
    (h : checkEach Symbols.addPiece s p.pieces = .ok t)
    (hrepeats : Repeats PieceDecl.name p.pieces copy q.pieces) :
    checkEach Symbols.addPiece s q.pieces = .error (copy.map fun piece => .reserved piece.name) := by
  refine checkEach_repeated h hrepeats fun before u hbefore hname => Symbols.addPiece_of_isPiece ?_
  obtain ⟨-, rfl⟩ := (checkEach_eq_ok_iff fun _ _ _ => Symbols.addPiece_eq_ok_iff).1 hbefore
  obtain ⟨piece, hpiece, heq⟩ := List.mem_map.1 hname
  rw [Symbols.foldl_withPieces, Symbols.isPiece, ← heq]
  have hmem := List.mem_reverse.2 (List.mem_map_of_mem (f := fun piece => (piece.name, piece.owner))
    (List.mem_map_of_mem (f := (·.value)) hpiece))
  exact List.mem_map_of_mem (f := Prod.fst) (List.mem_append_left s.pieces hmem)

/-- A second rule adds no name. -/
theorem checkEach_addDeclaration_rule {state state' : Symbols × List String}
    {copy : Spanned Declaration}
    (h : checkEach Symbols.addDeclaration state p.declarations = .ok state')
    (hrepeats : Repeats Declaration.key p.declarations copy q.declarations)
    (hkind : copy.value.kind = .rule) :
    checkEach Symbols.addDeclaration state q.declarations = .ok state' := by
  refine checkEach_repeated_of_ok h hrepeats fun state => ?_
  cases hrule : copy.value with
  | rule r => rfl
  | _ => simp [hrule, Declaration.kind] at hkind

theorem checkEach_checkBody_repeated {s : Symbols} (hs : p.Describes s) {ruled : List String}
    {copy : Spanned Declaration} (h : checkEach s.checkBody [] p.declarations = .ok ruled)
    (hrepeats : Repeats Declaration.key p.declarations copy q.declarations)
    (hkind : copy.value.kind = .rule) : checkEach s.checkBody [] q.declarations =
      .error (copy.map fun d => .duplicate d.kind d.name) := by
  refine checkEach_repeated h hrepeats fun before ruled hbefore hname => ?_
  rw [hkind]
  exact Symbols.checkBody_of_checkEach hs hbefore hname hkind

theorem checkEach_addDeclaration_repeated {s : Symbols} {winners : List String}
    {state : Symbols × List String} {copy : Spanned Declaration}
    (h : checkEach Symbols.addDeclaration (s, winners) p.declarations = .ok state)
    (hrepeats : Repeats Declaration.key p.declarations copy q.declarations)
    (hkind : copy.value.kind ≠ .rule) : checkEach Symbols.addDeclaration (s, winners) q.declarations =
      .error (copy.map fun d => .duplicate d.kind d.name) :=
  checkEach_repeated h hrepeats fun _ _ hbefore hname =>
    Symbols.addDeclaration_of_checkEach hbefore hname hkind

theorem check_of_symbols_error {e : Spanned Flaw} (h : q.symbols = .error e) : q.check = .error e :=
  bind_eq_error_iff.2 (.inl h)

/-- To a program that passes the checks, wherever it was written, a player, a piece or a declaration is
added, somewhere behind one of the same name and kind. Then this entry is what the checks report, by its
kind and name as a duplicate; but if it is a piece, its name as reserved. -/
theorem check_of_repeats (hp : p.check = .ok ()) (q : Program) :
    (∀ copy, Repeats id p.players copy q.players →
      q.check = .error (copy.map fun name => .duplicate .player name)) ∧
    (q.players.map (·.value) = p.players.map (·.value) →
      ∀ copy, Repeats PieceDecl.name p.pieces copy q.pieces →
        q.check = .error (copy.map fun piece => .reserved piece.name)) ∧
    (q.players.map (·.value) = p.players.map (·.value) →
      q.pieces.map (·.value) = p.pieces.map (·.value) →
      ∀ copy, Repeats Declaration.key p.declarations copy q.declarations →
        q.check = .error (copy.map fun d => .duplicate d.kind d.name)) := by
  simp only [check, bind_eq_ok_iff] at hp
  obtain ⟨_, hsymbols, ruled, hbodies, -⟩ := hp
  obtain ⟨hheads, rfl⟩ := symbols_eq_ok_iff.1 hsymbols
  simp only [symbols, bind_eq_ok_iff, pure_eq_ok_iff] at hsymbols
  obtain ⟨s, hplayers, t, hpieces, ⟨table, winners⟩, hdeclarations, rfl⟩ := hsymbols
  refine ⟨fun copy hrepeats => check_of_symbols_error (bind_eq_error_iff.2 ?_),
    fun hsame copy hrepeats => check_of_symbols_error (bind_eq_error_iff.2 ?_),
    fun hsame hsame' copy hrepeats => ?_⟩
  · exact .inl (checkEach_addPlayer_repeated hplayers hrepeats)
  · have hcopy := checkEach_addPiece_repeated hpieces hrepeats
    exact .inr ⟨s, (checkEach_congr hsame).2 hplayers, bind_eq_error_iff.2 (.inl hcopy)⟩
  · have hplayers' := (checkEach_congr hsame).2 hplayers
    have hpieces' := (checkEach_congr hsame').2 hpieces
    -- Rules are looked for with the bodies, all others with the heads.
    by_cases hkind : copy.value.kind = .rule
    · have hdeclarations' := checkEach_addDeclaration_rule hdeclarations hrepeats hkind
      have hsymbols : q.symbols = .ok p.table := bind_eq_ok_iff.2 ⟨s, hplayers',
        bind_eq_ok_iff.2 ⟨t, hpieces', bind_eq_ok_iff.2 ⟨_, hdeclarations', rfl⟩⟩⟩
      have hcopy := checkEach_checkBody_repeated (describes_table hheads) hbodies hrepeats hkind
      exact bind_eq_error_iff.2 (.inr ⟨p.table, hsymbols, bind_eq_error_iff.2 (.inl hcopy)⟩)
    · have hcopy := checkEach_addDeclaration_repeated hdeclarations hrepeats hkind
      exact check_of_symbols_error (bind_eq_error_iff.2 (.inr ⟨s, hplayers',
        bind_eq_error_iff.2 (.inr ⟨t, hpieces', bind_eq_error_iff.2 (.inl hcopy)⟩)⟩))

/-- Another rule for the pawn, by a macro that is not declared. -/
def jumps : Spanned Declaration := ⟨.rule ⟨"Pawn", .expand ⟨"jump", []⟩⟩, 40, 60⟩

theorem check_of_repeats_jumps : steps.check = .ok () ∧
    Repeats Declaration.key steps.declarations jumps (steps.declarations ++ [jumps]) ∧
    check { steps with declarations := steps.declarations ++ [jumps] } =
      .error ⟨.duplicate .rule "Pawn", 40, 60⟩ ∧
    check { steps with players := steps.players ++ [⟨"White", 10, 15⟩] } =
      .error ⟨.duplicate .player "White", 10, 15⟩ := by
  have hcheck : steps.check = .ok () := rfl
  have hrule : Repeats Declaration.key steps.declarations jumps (steps.declarations ++ [jumps]) :=
    ⟨steps.declarations, [], rfl, rfl, .head _⟩
  have hplayer : Repeats id steps.players ⟨"White", 10, 15⟩ (steps.players ++ [⟨"White", 10, 15⟩]) :=
    ⟨steps.players, [], rfl, rfl, .head _⟩
  exact ⟨hcheck, hrule, (check_of_repeats hcheck
      { steps with declarations := steps.declarations ++ [jumps] }).2.2 rfl rfl _ hrule,
    (check_of_repeats hcheck { steps with players := steps.players ++ [⟨"White", 10, 15⟩] }).1 _ hplayer⟩

/-- One piece on one tile. -/
def lone : Program where
  players := [⟨"a", 10, 11⟩]
  pieces := [⟨⟨"P", "a"⟩, 22, 26⟩]
  declarations := []
  board := ⟨⟨1, 1, [⟨.piece "P" none, 55, 56⟩]⟩, 28, 57⟩

/-- A second piece of its name is reported as a reserved name, not as a duplicate. -/
theorem lone_piece_repeated : lone.check = .ok () ∧
    Repeats id lone.pieces ⟨⟨"P", "a"⟩, 28, 32⟩ (lone.pieces ++ [⟨⟨"P", "a"⟩, 28, 32⟩]) ∧
    check { lone with pieces := lone.pieces ++ [⟨⟨"P", "a"⟩, 28, 32⟩] } =
      .error ⟨.reserved "P", 28, 32⟩ ∧
    check { lone with pieces := lone.pieces ++ [⟨⟨"P", "a"⟩, 28, 32⟩] } ≠
      .error ⟨.duplicate .piece "P", 28, 32⟩ := by
  have hreserved : check { lone with pieces := lone.pieces ++ [⟨⟨"P", "a"⟩, 28, 32⟩] } =
      .error ⟨.reserved "P", 28, 32⟩ := rfl
  refine ⟨rfl, ⟨lone.pieces, [], rfl, rfl, .head _⟩, hreserved, ?_⟩
  rw [hreserved]
  decide

end Program
end BoardGame
