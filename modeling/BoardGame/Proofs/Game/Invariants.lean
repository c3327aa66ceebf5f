import BoardGame.Proofs.Game.Reachable
import BoardGame.Proofs.Grammar.RoundTrip
import BoardGame.Proofs.Rules.Definitions

/-!
# What holds of every game

Effects write computed codes to computed tiles, moves fail halfway and are taken back, and rules are also
built from programs that were not checked. Still, only pieces that stand somewhere are carried, and only
declared ones are put on the board: every world that comes up in play (`World.Leads`) has a board that
fits the rules (`Rules.Fits.leads`). With what the history records (`Recorded.length_changes`,
`Recorded.turn_eq`) this is the invariant of games (`Game.Reachable.intact`).
-/

namespace BoardGame

/-! ### Declared pieces -/

theorem Definitions.lt_length_of_pieceOfCode {d : Definitions} {code : Int} {piece : PieceId}
    (h : d.pieceOfCode code = .ok (some piece)) : piece < d.pieces.length := by
  unfold pieceOfCode at h
  split at h
  · cases h
  split at h
  · rename_i hcode
    have hlt : (code - 1).toNat < d.pieces.length := by omega
    exact Option.some.inj (Except.ok.inj h) ▸ hlt
  · cases h

namespace Env
variable {env : Env} {scope : Scope}

theorem lt_length_of_pieceValue {e : Expr} {piece : PieceId}
    (h : env.pieceValue scope e = .ok (some piece)) : piece < env.definitions.pieces.length := by
  have hcode : (do env.definitions.pieceOfCode (← env.eval scope e)) = .ok (some piece) →
      piece < env.definitions.pieces.length := by
    intro h
    obtain ⟨code, -, h⟩ := bind_eq_ok_iff.1 h
    exact Definitions.lt_length_of_pieceOfCode h
  unfold pieceValue at h
  split at h
  · rename_i name
    dsimp only at h
    split at h
    · exact hcode h
    split at h
    · cases h
    split at h
    · rename_i hpiece
      cases h
      exact Definitions.lt_length_of_pieceId? hpiece
    · exact hcode h
  · exact hcode h

theorem lt_length_of_write {a : Assignment} {t : Tile} {piece : PieceId}
    (h : env.write scope a = .ok (.tile t (some piece))) : piece < env.definitions.pieces.length := by
  obtain ⟨indices, -, h⟩ := bind_eq_ok_iff.1 h
  split at h
  · split at h
    · obtain ⟨occupant, hvalue, h⟩ := bind_eq_ok_iff.1 h
      cases h
      exact lt_length_of_pieceValue hvalue
    · cases h
  · obtain ⟨n, -, h⟩ := bind_eq_ok_iff.1 h
    cases h

end Env

/-! ### Boards that fit -/

namespace Board
variable {b b' : Board} {t : Tile} {occupant : Option PieceId} {piece : PieceId} {n : Nat}

/-- The pieces on the board are of the first `n` kinds. -/
def Holds (n : Nat) (b : Board) : Prop := ∀ (i : Nat) piece, b.cells[i]? = some (some piece) → piece < n

theorem holds_empty (width height : Nat) : Holds n (empty width height) := by
  intro i piece h
  rw [empty, Array.getElem?_replicate] at h
  split at h <;> cases h

theorem Holds.set (hb : b.Holds n) (hp : ∀ piece ∈ occupant, piece < n)
    (h : b.set t occupant = .ok b') : b'.Holds n := by
  obtain ⟨i, -, rfl⟩ := set_eq_ok_iff.1 h
  intro j piece hj
  dsimp only at hj
  rw [Array.getElem?_setIfInBounds] at hj
  split at hj
  · split at hj
    · exact hp piece (Option.some.inj hj)
    · cases hj
  · exact hb j piece hj

theorem Holds.lt_of_get (hb : b.Holds n) (hc : b.Complete) (h : b.get t = .ok (some piece)) :
    piece < n := by
  obtain ⟨i, hi, hcell⟩ := get_eq_ok_iff.1 h
  exact hb i piece (hcell ▸ getElem?_cells hc hi)

end Board

/-- The board has the sides of the first one, a cell for each tile, and declared pieces on it. -/
structure Rules.Fits (rules : Rules) (b : Board) : Prop where
  width_eq : b.width = rules.board.width
  height_eq : b.height = rules.board.height
  complete : b.Complete
  holds : b.Holds rules.definitions.pieces.length

namespace Rules.Fits
variable {rules : Rules} {b b' : Board} {t : Tile} {occupant : Option PieceId} {piece : PieceId}
  {w w' : World}

theorem set (hb : rules.Fits b) (hp : ∀ piece ∈ occupant, piece < rules.definitions.pieces.length)
    (h : b.set t occupant = .ok b') : rules.Fits b' := by
  obtain ⟨hwidth, hheight, hcomplete⟩ :=
    Board.Sized.set ⟨hb.width_eq, hb.height_eq, hb.complete⟩ h
  exact ⟨hwidth, hheight, hcomplete, hb.holds.set hp h⟩

theorem carry {origin target : Tile} (hw : rules.Fits w.board)
    (hget : w.board.get origin = .ok (some piece)) (h : w.carry origin target piece = .ok w') :
    rules.Fits w'.board := by
  obtain ⟨b₁, h₁, h⟩ := bind_eq_ok_iff.1 h
  obtain ⟨b₂, h₂, h⟩ := bind_eq_ok_iff.1 h
  obtain rfl := Except.ok.inj h
  refine (hw.set (by simp) h₁).set (fun piece' heq => ?_) h₂
  obtain rfl := Option.some.inj heq
  exact hw.holds.lt_of_get hw.complete hget

theorem apply {x : Write} (hw : rules.Fits w.board)
    (hx : ∀ t piece, x = .tile t (some piece) → piece < rules.definitions.pieces.length)
    (h : x.apply w = .ok w') : rules.Fits w'.board := by
  cases x with
  | tile t occupant =>
    obtain ⟨b, hset, h⟩ := bind_eq_ok_iff.1 h
    obtain rfl := Except.ok.inj h
    exact hw.set (fun piece heq => hx t piece (heq ▸ rfl)) hset
  | var name path n =>
    obtain ⟨v, -, h⟩ := bind_eq_ok_iff.1 h
    obtain rfl := Except.ok.inj h
    exact hw

/-- Play keeps the sides of the board and puts only declared pieces on it. -/
theorem leads (hw : rules.Fits w.board) (h : w.Leads rules.definitions w') : rules.Fits w'.board := by
  induction h with
  | refl => exact hw
  | carry _ hget hcarry ih => exact ih.carry hget hcarry
  | write _ hwrite happly ih =>
    refine ih.apply (fun t piece heq => ?_) happly
    subst heq
    exact Env.lt_length_of_write hwrite

end Rules.Fits

namespace Program
variable {p : Program} {rules : Rules}

theorem lt_length_of_cellPiece {d : Definitions} {cell : Cell} {piece : PieceId}
    (h : cellPiece d cell = .ok (some piece)) : piece < d.pieces.length := by
  cases cellPiece_eq_ok_iff.1 h with
  | piece hpiece => exact Definitions.lt_length_of_pieceId? hpiece

/-- The first board fits the rules, also of a program that was not checked. -/
theorem fits_build (h : p.build = .ok rules) : rules.Fits rules.board := by
  refine ⟨rfl, rfl, complete_build h, ?_⟩
  obtain ⟨width, height, -, -, hplace⟩ := placeCells_of_initialBoard (build_eq_ok_iff.1 h).2.2.2
  refine placeCells_induction (fun b t c occupant b' hb hcell hset => ?_) (Board.holds_empty _ _) hplace
  refine hb.set (fun piece hpiece => ?_) hset
  rw [Option.mem_def.1 hpiece] at hcell
  exact lt_length_of_cellPiece hcell

/-- The owners of declared pieces are declared players, also in a program that was not checked. -/
theorem owner_lt_of_definitions {d : Definitions} (h : p.definitions = .ok d) :
    ∀ type ∈ d.pieces, type.owner < p.players.length := by
  obtain ⟨⟨howners, -⟩, rfl⟩ := definitions_eq_ok_iff.1 h
  intro type htype
  obtain ⟨q, hq, rfl⟩ := List.mem_map.1 htype
  have hlt := List.idxOf_lt_length_iff.2 (howners q hq)
  rwa [declared, List.length_map] at hlt

theorem owner_lt_of_build (h : p.build = .ok rules) :
    ∀ bp ∈ rules.pieces, bp.owner < p.players.length := by
  obtain ⟨hd, -, hpieces, -⟩ := build_eq_ok_iff.1 h
  intro bp hbp
  obtain ⟨type, htype, hc⟩ := exists_of_mem_mapM hpieces hbp
  have howner : bp.owner = type.owner := by
    rcases compilePiece_eq_ok_iff.1 hc with ⟨-, rfl⟩ | ⟨_, _, -, -, rfl⟩ <;> rfl
  exact howner ▸ owner_lt_of_definitions hd type htype

theorem length_pieces_of_build (h : p.build = .ok rules) :
    rules.definitions.pieces.length = p.pieces.length ∧ rules.pieces.length = p.pieces.length := by
  obtain ⟨hd, -, hpieces, -⟩ := build_eq_ok_iff.1 h
  have hdict : rules.definitions.pieces.length = p.pieces.length := by
    rw [(definitions_eq_ok_iff.1 hd).2, dictionary, List.length_map]
  exact ⟨hdict, (forall₂_of_mapM hpieces).length_eq ▸ hdict⟩

end Program

/-! ### Turns and changes -/

namespace Recorded
variable {n : Nat} {first : Snapshot} {later : List Snapshot} {changes : List Change} {moves : List Nat}

theorem length_changes (h : Recorded n first later changes moves) : changes.length = moves.sum := by
  induction h with
  | start => rfl
  | move _ _ _ ih => rw [List.length_append, List.sum_cons, ih]

theorem eq_succ_mod {t k : Nat} (ht : t < n) (h : (t + n - 1) % n = k % n) : t = (k + 1) % n := by
  calc t = (t + n) % n := by rw [Nat.add_mod_right, Nat.mod_eq_of_lt ht]
    _ = ((t + n - 1) % n + 1) % n := by rw [Nat.mod_add_mod, Nat.sub_add_cancel (by omega)]
    _ = (k + 1) % n := by rw [h, Nat.mod_add_mod]

/-- With the first player on the turn at first, the moves tell whose turn it is. -/
theorem turn_eq (h : Recorded n first later changes moves) (hfirst : first.turn = 0)
    (hlt : ∀ q ∈ later, q.turn < n) : (later.headD first).turn = moves.length % n := by
  induction h with
  | start => rw [List.headD_nil, hfirst, List.length_nil, Nat.zero_mod]
  | move _ _ hturn ih =>
    rw [ih fun q hq => hlt q (List.mem_cons_of_mem _ hq)] at hturn
    exact eq_succ_mod (hlt _ (List.mem_cons_self ..)) hturn

end Recorded

namespace Game.Reachable
variable {p : Program} {rules : Rules} {options : Options} {g : Game}

/-- Wherever play has led, the board fits the rules. -/
theorem fits (h : p.build = .ok rules) (hg : Reachable rules options g) : rules.Fits g.world.board :=
  (Program.fits_build h).leads (hg.leads h)

/-- Wherever play has led, the turn and the changes are those of the moves. -/
theorem history (h : p.build = .ok rules) (hg : Reachable rules options g) :
    g.turn = g.moves.length % max 1 rules.definitions.players.length ∧
      g.changes.length = g.moves.sum := by
  obtain ⟨s, hs, hfirst⟩ := hg.exists_represents (P := fun s => s.first.turn = 0) h rfl
    fun s a hfirst => by rwa [Timeline.first_act]
  have hturn : s.top.turn = g.moves.length % max 1 rules.definitions.players.length :=
    hs.recorded.turn_eq hfirst fun q hq => (hs.valid q (List.mem_cons_of_mem _ hq)).turn_lt
  exact ⟨(congrArg Snapshot.turn hs.snapshot_eq).trans hturn, hs.recorded.length_changes⟩

end Game.Reachable

/-! ### The invariant -/

/-- The board has its first sides, a cell for each tile, and declared pieces on it. Pieces belong to
declared players. The turn and the changes are those of the moves. So what is looked up is found: the
player whose turn it is, the slot of each player for its victory, and of a piece that stands on a tile, now
or in a world that the game leads to, its kind, the owner of it and its automaton. -/
structure Game.Intact (p : Program) (rules : Rules) (g : Game) : Prop where
  rules_eq : g.rules = rules
  width_eq : g.board.width = rules.board.width
  height_eq : g.board.height = rules.board.height
  cells_size : g.board.cells.size = g.board.width * g.board.height
  piece_lt : ∀ (i : Nat) piece, g.board.cells[i]? = some (some piece) → piece < p.pieces.length
  owner_lt : (∀ type ∈ rules.definitions.pieces, type.owner < p.players.length) ∧
    ∀ bp ∈ rules.pieces, bp.owner < p.players.length
  turn_eq : g.turn = g.moves.length % p.players.length
  changes_eq : g.changes.length = g.moves.sum
  player : ∃ name, g.players[g.turn]? = some name
  slots : g.definitions.victories.length = g.players.length
  found : ∀ w, g.world.Leads g.definitions w → ∀ t piece, w.board.get t = .ok (some piece) →
    ∃ type bp name, g.definitions.pieces[piece]? = some type ∧ g.rules.pieces[piece]? = some bp ∧
      g.players[type.owner]? = some name

/-- Wherever play has led by the rules of a parsed program, checked or not, the game is intact. -/
theorem Game.Reachable.intact {source : String} {p : Program} {rules : Rules} {options : Options}
    {g : Game} (hparse : parseProgram source = .ok p) (h : p.build = .ok rules)
    (hg : Reachable rules options g) : g.Intact p rules := by
  obtain ⟨s, hs⟩ := hg.represents h
  obtain rfl := hs.rules_eq
  have hd := (Program.build_eq_ok_iff.1 h).1
  have hdict : g.definitions = p.dictionary := (Program.definitions_eq_ok_iff.1 hd).2
  have hplayers : g.players.length = p.players.length := by
    rw [players, hdict, Program.dictionary, List.length_map]
  have hpos : 0 < p.players.length :=
    List.length_pos_iff.2 (Program.printable_of_parseProgram hparse).players_ne_nil
  have hname : ∀ player < p.players.length, ∃ name, g.players[player]? = some name :=
    fun player hlt => ⟨_, List.getElem?_eq_getElem (hplayers ▸ hlt)⟩
  have hfits := hg.fits h
  obtain ⟨hturn, hchanges⟩ := hg.history h
  have hmax : max 1 g.players.length = p.players.length := by omega
  have hturn : g.turn = g.moves.length % p.players.length := hmax ▸ hturn
  obtain ⟨htypes, hautomata⟩ := Program.length_pieces_of_build h
  have howners := Program.owner_lt_of_definitions hd
  exact {
    rules_eq := rfl
    width_eq := hfits.width_eq
    height_eq := hfits.height_eq
    cells_size := hfits.complete
    piece_lt := htypes ▸ hfits.holds
    owner_lt := ⟨howners, Program.owner_lt_of_build h⟩
    turn_eq := hturn
    changes_eq := hchanges
    player := hname _ (hturn ▸ Nat.mod_lt _ hpos)
    slots := by rw [hdict, Program.length_victories, hplayers]
    found := by
      intro w hw t piece hget
      have hw' := hfits.leads hw
      have hlt : piece < g.definitions.pieces.length := hw'.holds.lt_of_get hw'.complete hget
      have hlt' : piece < g.rules.pieces.length := hautomata ▸ htypes ▸ hlt
      obtain ⟨name, hname⟩ := hname _ (howners _ (List.getElem_mem hlt))
      exact ⟨_, _, name, List.getElem?_eq_getElem hlt, List.getElem?_eq_getElem hlt', hname⟩ }

def crownStep : Step := ⟨0, 1, .call "free" [], some ⟨"crown", [.literal 1]⟩⟩

/-- A pawn that a step turns into a rook of the other player. The checks reject its condition. -/
def promotion : Program where
  players := [⟨"White", 10, 15⟩, ⟨"Black", 17, 22⟩]
  pieces := [⟨⟨"Pawn", "White"⟩, 33, 44⟩, ⟨⟨"Rook", "Black"⟩, 46, 57⟩]
  declarations := [
    ⟨.effect ⟨"crown", ["n"], [⟨"Board", [.literal 0, .var "n"],
      .binary .add (.var "n") (.literal 1)⟩]⟩, 59, 100⟩,
    ⟨.rule ⟨"Pawn", .letter ⟨.literal 0, .literal 1, .call ⟨"free", []⟩,
      some ⟨"crown", [.literal 1]⟩⟩⟩, 101, 138⟩]
  board := ⟨⟨1, 2, [⟨.empty, 166, 170⟩, ⟨.piece "Pawn" none, 172, 176⟩]⟩, 139, 177⟩

def promotionSource : String :=
  "players = White, Black; pieces = Pawn(White), Rook(Black); " ++
    "effect crown(n) \x7b Board[0][n] = n + 1; \x7d; " ++
    "rule Pawn = (0, 1, free())\x7bcrown(1)\x7d; board_size = 1, 2; board = None, Pawn;"

def promotionRules : Rules where
  definitions := {
    players := ["White", "Black"], pieces := [⟨"Pawn", 0⟩, ⟨"Rook", 1⟩]
    effects := promotion.effects, victories := [none, none] }
  pieces := [⟨"Pawn", 0, ⟨#[⟨[(crownStep, 1)], false⟩, ⟨[], true⟩], 0⟩, some 2⟩,
    ⟨"Rook", 1, .empty, none⟩]
  vars := []
  board := ⟨1, 2, #[some 0, none]⟩

theorem parseProgram_promotion : parseProgram promotionSource = .ok promotion := by
  have hparsed : (parseProgram promotionSource).toOption = some promotion := by decide +kernel
  cases hsource : parseProgram promotionSource with
  | error e => rw [hsource] at hparsed; cases hparsed
  | ok p => rw [hsource] at hparsed; rw [Option.some_inj.1 hparsed]

/-- After the step the game is intact, with the rook on the board and Black on the turn. -/
theorem Game.Reachable.intact_promotion :
    parseProgram promotionSource = .ok promotion ∧ promotion.check.isOk = false ∧
    promotion.build = .ok promotionRules ∧
    let g := ((Action.make ⟨(0, 0), [crownStep]⟩).play (.new promotionRules {})).2
    g.board.cells = #[none, some 1] ∧ g.turn = 1 ∧ g.Intact promotion promotionRules := by
  have hbuild : promotion.build = .ok promotionRules := rfl
  refine ⟨parseProgram_promotion, rfl, hbuild, ?_⟩
  intro g
  have hg : Reachable promotionRules {} g := .act .new _
  exact ⟨rfl, rfl, intact parseProgram_promotion hbuild hg⟩

end BoardGame
