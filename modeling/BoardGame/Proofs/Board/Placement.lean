import BoardGame.Proofs.Board
import Mathlib.Data.Set.Function

/-!
# Laying out the first board

The cells of a declaration are numbered row by row from the top, and tiles are counted from the bottom. Each
cell has a tile of its own and each tile a cell (`Program.bijOn_cellTile`), so what is put on a tile stays
there, and the built board holds on every tile what the cell for it names (`Program.initialBoard_lays_out`).
-/

namespace BoardGame

/-- The cell is for a piece of this name, and no piece of this name is declared. -/
def Cell.Undeclared (d : Definitions) (c : Cell) (name : String) : Prop :=
  d.pieceId? name = none ∧ ∃ owner, c = .piece name owner

namespace Program
variable {d : Definitions} {cell : Cell} {cells : List Cell} {occupant : Option PieceId} {e : BuildError}
  {decl : BoardDecl} {b b' : Board} {t : Tile} {width height k j x y : Nat}

theorem cellPiece_eq_error (h : cellPiece d cell = .error e) :
    ∃ name, cell.Undeclared d name ∧ e = .undefinedPiece name := by
  unfold cellPiece at h
  split at h
  · cases h
  · rename_i name owner
    split at h
    · rename_i hp
      exact ⟨name, ⟨hp, owner, rfl⟩, (Except.error.inj h).symm⟩
    · cases h

/-! ### Cells and tiles -/

/-- The number of the cell for the tile `(x, y)`, row by row from the top. -/
def cellNumber (width height x y : Nat) : Nat := (height - 1 - y) * width + x

/-- The row of a cell is one of the rows, so it can be counted from the bottom. -/
theorem row_lt (hk : k < width * height) : k / width < height := Nat.div_lt_of_lt_mul hk

theorem column_lt (hk : k < width * height) : k % width < width :=
  Nat.mod_lt _ (Nat.pos_of_mul_pos_right (Nat.zero_lt_of_lt hk))

theorem exists_cellTile_eq (hk : k < width * height) : ∃ x y : Nat, x < width ∧ y < height ∧
    cellTile width height k = ((x : Int), (y : Int)) ∧ cellNumber width height x y = k := by
  have hrow := row_lt hk
  refine ⟨k % width, height - 1 - k / width, column_lt hk, ?_, rfl, ?_⟩
  · generalize k / width = row at hrow
    omega
  · have hup : height - 1 - (height - 1 - k / width) = k / width := by
      generalize k / width = row at hrow
      omega
    rw [cellNumber, hup, Nat.div_add_mod']

theorem cellNumber_lt (hx : x < width) (hy : y < height) : cellNumber width height x y < width * height := by
  have hrow : height - 1 - y < height := by omega
  rw [cellNumber, Nat.mul_comm (height - 1 - y), Nat.mul_comm width height]
  exact Nat.mul_add_lt_mul_of_lt_of_lt hrow hx

theorem cellTile_cellNumber (hx : x < width) (hy : y < height) :
    cellTile width height (cellNumber width height x y) = ((x : Int), (y : Int)) := by
  have hwidth : 0 < width := Nat.zero_lt_of_lt hx
  have hcolumn : cellNumber width height x y % width = x := by
    rw [cellNumber, Nat.mul_add_mod_self_right, Nat.mod_eq_of_lt hx]
  have hrow : cellNumber width height x y / width = height - 1 - y := by
    rw [cellNumber, Nat.mul_comm, Nat.mul_add_div hwidth, Nat.div_eq_of_lt hx, Nat.add_zero]
  have hup : height - 1 - (height - 1 - y) = y := by omega
  rw [cellTile, hcolumn, hrow, hup]

theorem cellTile_injective (hj : j < width * height) (hk : k < width * height)
    (h : cellTile width height j = cellTile width height k) : j = k := by
  obtain ⟨x, y, -, -, hxy, rfl⟩ := exists_cellTile_eq hj
  obtain ⟨x', y', -, -, hxy', rfl⟩ := exists_cellTile_eq hk
  rw [hxy, hxy', Prod.mk.injEq, Int.natCast_inj, Int.natCast_inj] at h
  rw [h.1, h.2]

/-- Each cell has a tile of its own, and each tile has a cell. -/
theorem bijOn_cellTile (b : Board) : Set.BijOn (cellTile b.width b.height)
    {k | k < b.width * b.height} {t | b.contains t = true} := by
  refine ⟨fun k hk => ?_, fun j hj k hk h => cellTile_injective hj hk h, fun t ht => ?_⟩
  · obtain ⟨x, y, hx, hy, hxy, -⟩ := exists_cellTile_eq hk
    exact Board.contains_iff.2 ⟨x, y, hx, hy, hxy⟩
  · obtain ⟨x, y, hx, hy, rfl⟩ := Board.contains_iff.1 ht
    exact ⟨_, cellNumber_lt hx hy, cellTile_cellNumber hx hy⟩

theorem exists_set_cellTile (hk : k < b.width * b.height) (occupant : Option PieceId) :
    ∃ b', b.set (cellTile b.width b.height k) occupant = .ok b' := by
  obtain ⟨i, hi⟩ := Option.isSome_iff_exists.1 ((bijOn_cellTile b).mapsTo hk)
  exact ⟨_, Board.set_eq_ok_iff.2 ⟨i, hi, rfl⟩⟩

/-! ### Placing the cells -/

/-- Cells that are not too many find their places, so only a piece that is not declared keeps them off. -/
theorem placeCells_eq_error (h : placeCells d decl b.width b.height k b cells = .error e)
    (hk : k + cells.length ≤ b.width * b.height) :
    ∃ c ∈ cells, ∃ name, c.Undeclared d name ∧ e = .undefinedPiece name := by
  induction cells generalizing b k with
  | nil => cases h
  | cons cell cells ih =>
    rw [List.length_cons] at hk
    rw [placeCells, bind_eq_error_iff] at h
    rcases h with h | ⟨occupant, -, h⟩
    · exact ⟨cell, List.mem_cons_self .., cellPiece_eq_error h⟩
    · obtain ⟨b₁, hset⟩ := exists_set_cellTile (b := b) (k := k) (by omega) occupant
      rw [hset] at h
      obtain ⟨i, -, rfl⟩ := Board.set_eq_ok_iff.1 hset
      have hrest : k + 1 + cells.length ≤ b.width * b.height := by omega
      obtain ⟨c, hc, hname⟩ :=
        ih (b := { b with cells := b.cells.setIfInBounds i occupant }) h hrest
      exact ⟨c, List.mem_cons_of_mem _ hc, hname⟩

/-- What placing cells from number `k` on does: each of them is found on its tile, and the other tiles hold
what they held. -/
structure Places (d : Definitions) (b : Board) (k : Nat) (cells : List Cell) (b' : Board) : Prop where
  width_eq : b'.width = b.width
  height_eq : b'.height = b.height
  placed : ∀ i c, cells[i]? = some c → ∃ occupant, c.Names d occupant ∧
    b'.get (cellTile b.width b.height (k + i)) = .ok occupant
  kept : ∀ t, (∀ i < cells.length, t ≠ cellTile b.width b.height (k + i)) → b'.get t = b.get t

theorem places_of_placeCells (hb : b.Complete) (hk : k + cells.length ≤ b.width * b.height)
    (h : placeCells d decl b.width b.height k b cells = .ok b') : Places d b k cells b' := by
  induction cells generalizing b k with
  | nil =>
    obtain rfl := Except.ok.inj h
    exact ⟨rfl, rfl, nofun, fun t _ => rfl⟩
  | cons cell cells ih =>
    rw [List.length_cons] at hk
    obtain ⟨occupant, hcell, h⟩ := bind_eq_ok_iff.1 h
    split at h
    · cases h
    rename_i b₁ hset
    have hget := Board.get_set hb hset
    have hother : ∀ t, t ≠ cellTile b.width b.height k → b₁.get t = b.get t :=
      fun t ht => Board.get_set_of_ne hset ht
    have hcomplete := hb.set hset
    obtain ⟨_, -, rfl⟩ := Board.set_eq_ok_iff.1 hset
    have hrest : k + 1 + cells.length ≤ b.width * b.height := by omega
    obtain ⟨hwidth, hheight, hplaced, hkept⟩ := ih hcomplete hrest h
    -- the cells that follow are for other tiles
    have hlater : ∀ i < cells.length,
        cellTile b.width b.height k ≠ cellTile b.width b.height (k + 1 + i) := fun i hi heq => by
      have := cellTile_injective (by omega) (by omega) heq
      omega
    refine ⟨hwidth, hheight, fun i c hc => ?_, fun t ht => ?_⟩
    · cases i with
      | zero =>
        obtain rfl := Option.some.inj hc
        exact ⟨occupant, cellPiece_eq_ok_iff.1 hcell, (hkept _ hlater).trans hget⟩
      | succ i =>
        have hshift : k + (i + 1) = k + 1 + i := by omega
        rw [hshift]
        exact hplaced i c hc
    · have haway : ∀ i < cells.length, t ≠ cellTile b.width b.height (k + 1 + i) := fun i hi => by
        have hshift : k + 1 + i = k + (i + 1) := by omega
        rw [hshift]
        exact ht (i + 1) (by rw [List.length_cons]; omega)
      exact (hkept t haway).trans (hother t (ht 0 (by rw [List.length_cons]; omega)))

/-! ### The first board -/

/-- The board has the sides of the declaration and holds on each tile what the cell for it names, counted
from the top row. Each cell is found on the tile it is for, and that is a one-to-one match of all the cells
with all the tiles; the row of a cell is never past the last one. -/
structure LaysOut (d : Definitions) (decl : BoardDecl) (b : Board) : Prop where
  width_eq : (b.width : Int) = decl.width
  height_eq : (b.height : Int) = decl.height
  length_eq : decl.cells.length = b.width * b.height
  tile : ∀ x y : Nat, x < b.width → y < b.height → ∃ c occupant,
    decl.cells[(b.height - 1 - y) * b.width + x]? = some c ∧ c.value.Names d occupant ∧
      b.get (x, y) = .ok occupant
  cell : ∀ k c, decl.cells[k]? = some c → k / b.width < b.height ∧ ∃ occupant,
    c.value.Names d occupant ∧ b.get (cellTile b.width b.height k) = .ok occupant
  match_tiles : Set.BijOn (cellTile b.width b.height) {k | k < decl.cells.length} {t | b.contains t = true}

theorem sides?_eq_some (h : decl.sides? = some (width, height)) :
    (width : Int) = decl.width ∧ (height : Int) = decl.height := by
  unfold BoardDecl.sides? at h
  split at h
  · cases h
    omega
  · cases h

theorem laysOut_initialBoard (h : initialBoard decl d = .ok b) : LaysOut d decl b := by
  obtain ⟨width, height, hsides, hlength, h⟩ := placeCells_of_initialBoard h
  have hcount : 0 + (decl.cells.map (·.value)).length ≤ width * height := by
    rw [List.length_map, hlength, Nat.zero_add]
  obtain ⟨hwidth, hheight, hplaced, -⟩ :=
    places_of_placeCells (b := .empty width height) (Board.complete_empty width height) hcount h
  obtain rfl : b.width = width := hwidth
  obtain rfl : b.height = height := hheight
  have hcell : ∀ k c, decl.cells[k]? = some c → ∃ occupant, c.value.Names d occupant ∧
      b.get (cellTile b.width b.height k) = .ok occupant := fun k c hc => by
    have hk := hplaced k c.value (by rw [List.getElem?_map, hc]; rfl)
    rwa [Nat.zero_add] at hk
  obtain ⟨hdeclWidth, hdeclHeight⟩ := sides?_eq_some hsides
  refine ⟨hdeclWidth, hdeclHeight, hlength, fun x y hx hy => ?_, fun k c hc => ?_, ?_⟩
  · have hk : cellNumber b.width b.height x y < decl.cells.length := hlength ▸ cellNumber_lt hx hy
    obtain ⟨occupant, hnames, hget⟩ := hcell _ _ (List.getElem?_eq_getElem hk)
    rw [cellTile_cellNumber hx hy] at hget
    exact ⟨_, occupant, List.getElem?_eq_getElem hk, hnames, hget⟩
  · have hk : k < decl.cells.length := (List.getElem?_eq_some_iff.1 hc).1
    exact ⟨row_lt (hlength ▸ hk), hcell k c hc⟩
  · rw [hlength]
    exact bijOn_cellTile b

/-- If the first board is built, it is laid out as declared. If there is a cell for each tile, then only a
piece that is not declared can keep it from being built. -/
theorem initialBoard_lays_out (decl : BoardDecl) (d : Definitions) :
    (∀ b, initialBoard decl d = .ok b → LaysOut d decl b) ∧
    ∀ width height, decl.sides? = some (width, height) → decl.cells.length = width * height →
      ∀ e, initialBoard decl d = .error e →
        ∃ c ∈ decl.cells, ∃ name, c.value.Undeclared d name ∧ e = .undefinedPiece name := by
  refine ⟨fun b => laysOut_initialBoard, fun width height hsides hlength e h => ?_⟩
  rw [initialBoard_eq_placeCells d hsides hlength] at h
  have hcount : 0 + (decl.cells.map (·.value)).length ≤ width * height := by
    rw [List.length_map, hlength, Nat.zero_add]
  obtain ⟨_, hmem, hname⟩ := placeCells_eq_error (b := .empty width height) h hcount
  obtain ⟨c, hc, rfl⟩ := List.mem_map.1 hmem
  exact ⟨c, hc, hname⟩

/-- Two columns and three rows, with a queen at the top on the right and a pawn at the bottom on the left. -/
def corners : BoardDecl := ⟨2, 3, [⟨.empty, 0, 4⟩, ⟨.piece "Queen" none, 6, 11⟩, ⟨.empty, 13, 17⟩,
  ⟨.empty, 19, 23⟩, ⟨.piece "Pawn" (some "White"), 25, 36⟩, ⟨.empty, 38, 42⟩]⟩

def pawnAndQueen : Definitions := { pieces := [⟨"Pawn", 0⟩, ⟨"Queen", 1⟩] }

/-- The cells are laid out by columns from the bottom, and if there is no queen, only that is reported. -/
theorem initialBoard_lays_out_corners :
    initialBoard corners pawnAndQueen = .ok ⟨2, 3, #[some 0, none, none, none, none, some 1]⟩ ∧
    LaysOut pawnAndQueen corners ⟨2, 3, #[some 0, none, none, none, none, some 1]⟩ ∧
    initialBoard corners { pieces := [⟨"Pawn", 0⟩] } = .error (.undefinedPiece "Queen") ∧
    ∃ c ∈ corners.cells, ∃ name, c.value.Undeclared { pieces := [⟨"Pawn", 0⟩] } name ∧
      BuildError.undefinedPiece "Queen" = .undefinedPiece name := by
  have hbuilt : initialBoard corners pawnAndQueen =
      .ok ⟨2, 3, #[some 0, none, none, none, none, some 1]⟩ := rfl
  have hrefused : initialBoard corners { pieces := [⟨"Pawn", 0⟩] } =
      .error (.undefinedPiece "Queen") := rfl
  exact ⟨hbuilt, (initialBoard_lays_out corners pawnAndQueen).1 _ hbuilt, hrefused,
    (initialBoard_lays_out corners { pieces := [⟨"Pawn", 0⟩] }).2 2 3 rfl rfl _ hrefused⟩

end Program
end BoardGame
