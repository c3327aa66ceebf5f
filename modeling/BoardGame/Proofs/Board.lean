import Mathlib.Data.Nat.Init
import BoardGame.Proofs.Results
import BoardGame.Rules

/-!
# Boards with a cell for each tile

`Board.Complete`: the cells are as many as the tiles. The board of built rules is complete and stays
so, whatever is put on it. On a complete board what is put on a tile is found there, and a piece that
was moved can be moved back (`restore`).
-/

namespace BoardGame

/-- Where rows of `n` places follow each other, a place tells its row and its column. -/
theorem eq_and_eq_of_mul_add_eq {n x y x' y' : Nat} (hy : y < n) (hy' : y' < n)
    (h : x * n + y = x' * n + y') : x = x' ∧ y = y' := by
  have hrow : ∀ x y, y < n → (x * n + y) / n = x := fun x y hy => by
    rw [Nat.mul_comm, Nat.mul_add_div (Nat.zero_lt_of_lt hy), Nat.div_eq_of_lt hy, Nat.add_zero]
  have hx : x = x' := by rw [← hrow x y hy, h, hrow x' y' hy']
  exact ⟨hx, Nat.add_left_cancel (hx ▸ h)⟩

namespace Board
variable {b b' b₁ b₂ : Board} {t t' : Tile} {p q : Option PieceId} {i : Nat}

/-- There is a cell for each tile. -/
def Complete (b : Board) : Prop := b.cells.size = b.width * b.height

theorem complete_empty (width height : Nat) : (empty width height).Complete :=
  Array.size_replicate

theorem index?_eq_some_iff : b.index? t = some i ↔
    (0 ≤ t.1 ∧ t.1 < b.width ∧ 0 ≤ t.2 ∧ t.2 < b.height) ∧ t.1.toNat * b.height + t.2.toNat = i := by
  unfold index?
  split
  · rename_i h
    simp [h]
  · rename_i h
    simp [h]

theorem lt_size_of_index? (hb : b.Complete) (h : b.index? t = some i) : i < b.cells.size := by
  obtain ⟨⟨hx, hx', hy, hy'⟩, rfl⟩ := index?_eq_some_iff.1 h
  have hx : t.1.toNat < b.width := by omega
  have hy : t.2.toNat < b.height := by omega
  rw [hb, Nat.mul_comm t.1.toNat]
  exact Nat.mul_add_lt_mul_of_lt_of_lt hx hy

theorem getElem?_cells (hb : b.Complete) (h : b.index? t = some i) :
    b.cells[i]? = some (b.cells.getD i none) := by
  rw [Array.getD_eq_getD_getElem?, Array.getElem?_eq_getElem (lt_size_of_index? hb h)]
  rfl

theorem setIfInBounds_restore {α : Type} {cs : Array α} {i j : Nat} {p q r : α}
    (hi : cs[i]? = some p) (hj : cs[j]? = some q) :
    (((cs.setIfInBounds i r).setIfInBounds j p).setIfInBounds j q).setIfInBounds i p = cs := by
  refine Array.ext_getElem? fun k => ?_
  have hi' := (Array.getElem?_eq_some_iff.1 hi).1
  have hj' := (Array.getElem?_eq_some_iff.1 hj).1
  simp only [Array.getElem?_setIfInBounds, Array.size_setIfInBounds]
  by_cases hki : i = k
  · rw [if_pos hki, if_pos hi', ← hki, hi]
  rw [if_neg hki]
  by_cases hkj : j = k
  · rw [if_pos hkj, if_pos hj', ← hkj, hj]
  · rw [if_neg hkj, if_neg hkj, if_neg hki]

/-! ### Reading and writing -/

theorem get_eq_ok_iff : b.get t = .ok p ↔ ∃ i, b.index? t = some i ∧ b.cells.getD i none = p := by
  unfold get
  cases b.index? t <;> simp

theorem set_eq_ok_iff : b.set t p = .ok b' ↔
    ∃ i, b.index? t = some i ∧ { b with cells := b.cells.setIfInBounds i p } = b' := by
  unfold set
  cases b.index? t <;> simp

theorem exists_set_of_get (h : b.get t = .ok p) (q : Option PieceId) : ∃ b', b.set t q = .ok b' := by
  obtain ⟨i, hi, -⟩ := get_eq_ok_iff.1 h
  exact ⟨_, set_eq_ok_iff.2 ⟨i, hi, rfl⟩⟩

theorem contains_of_get (h : b.get t = .ok p) : b.contains t = true := by
  obtain ⟨i, hi, -⟩ := get_eq_ok_iff.1 h
  rw [contains, hi]
  rfl

theorem exists_get_of_contains (h : b.contains t = true) : ∃ p, b.get t = .ok p := by
  obtain ⟨i, hi⟩ := Option.isSome_iff_exists.1 h
  exact ⟨_, get_eq_ok_iff.2 ⟨i, hi, rfl⟩⟩

theorem contains_iff : b.contains t = true ↔
    ∃ x y : Nat, x < b.width ∧ y < b.height ∧ t = ((x : Int), (y : Int)) := by
  rw [contains, Option.isSome_iff_exists]
  simp only [index?_eq_some_iff, exists_and_left, exists_eq', and_true]
  constructor
  · rintro ⟨hx, hx', hy, hy'⟩
    refine ⟨t.1.toNat, by omega, t.2.toNat, by omega, Prod.ext ?_ ?_⟩
    · exact (Int.toNat_of_nonneg hx).symm
    · exact (Int.toNat_of_nonneg hy).symm
  · rintro ⟨x, hx, y, hy, rfl⟩
    dsimp only
    omega

theorem index?_set (h : b.set t p = .ok b') (t' : Tile) : b'.index? t' = b.index? t' := by
  obtain ⟨i, -, rfl⟩ := set_eq_ok_iff.1 h
  rfl

theorem set_eq_error_iff (h : b.set t p = .ok b') {e : EvalError} :
    b'.set t' q = .error e ↔ b.get t' = .error e := by
  unfold Board.set Board.get
  rw [index?_set h]
  cases b.index? t' <;> simp

theorem exists_set_of_set (h : b.set t p = .ok b') (h' : b.contains t' = true) (q : Option PieceId) :
    ∃ b'', b'.set t' q = .ok b'' := by
  obtain ⟨i, hi⟩ := Option.isSome_iff_exists.1 h'
  exact ⟨_, set_eq_ok_iff.2 ⟨i, (index?_set h t').trans hi, rfl⟩⟩

theorem Complete.set (hb : b.Complete) (h : b.set t p = .ok b') : b'.Complete := by
  obtain ⟨i, -, rfl⟩ := set_eq_ok_iff.1 h
  exact Array.size_setIfInBounds.trans hb

/-- The board has these sides and a cell for each tile. -/
structure Sized (width height : Nat) (b : Board) : Prop where
  width_eq : b.width = width
  height_eq : b.height = height
  complete : b.Complete

theorem Sized.set {width height : Nat} (hb : b.Sized width height) (h : b.set t p = .ok b') :
    b'.Sized width height := by
  have hcomplete := hb.complete.set h
  obtain ⟨i, -, rfl⟩ := set_eq_ok_iff.1 h
  exact ⟨hb.width_eq, hb.height_eq, hcomplete⟩

theorem get_set (hb : b.Complete) (h : b.set t p = .ok b') : b'.get t = .ok p := by
  obtain ⟨i, hi, rfl⟩ := set_eq_ok_iff.1 h
  refine get_eq_ok_iff.2 ⟨i, hi, ?_⟩
  rw [Array.getD_eq_getD_getElem?,
    Array.getElem?_setIfInBounds_self_of_lt (lt_size_of_index? hb hi)]
  rfl

/-- Each tile has a cell of its own. -/
theorem index?_injective (h : b.index? t = some i) (h' : b.index? t' = some i) : t = t' := by
  obtain ⟨⟨hx, -, hy, hy'⟩, rfl⟩ := index?_eq_some_iff.1 h
  obtain ⟨⟨hx', -, hz, hz'⟩, hcell⟩ := index?_eq_some_iff.1 h'
  obtain ⟨hcolumns, hrows⟩ := eq_and_eq_of_mul_add_eq (by omega) (by omega) hcell
  exact Prod.ext (by omega) (by omega)

theorem get_set_of_ne (h : b.set t p = .ok b') (hne : t' ≠ t) : b'.get t' = b.get t' := by
  obtain ⟨i, hi, rfl⟩ := set_eq_ok_iff.1 h
  have hindex : index? { b with cells := b.cells.setIfInBounds i p } t' = b.index? t' := rfl
  rw [get, get, hindex]
  cases hj : b.index? t' with
  | none => rfl
  | some j =>
    have hij : i ≠ j := by
      rintro rfl
      exact hne (index?_injective hj hi)
    simp only [Array.getD_eq_getD_getElem?, Array.getElem?_setIfInBounds_ne hij]

/-- A piece taken from a tile and put on another one, or on the same, can be moved back. -/
theorem restore (hb : b.Complete) (ht : b.get t = .ok p) (ht' : b.get t' = .ok q)
    (h₁ : b.set t none = .ok b₁) (h₂ : b₁.set t' p = .ok b₂) :
    ∃ b₃, b₂.set t' q = .ok b₃ ∧ b₃.set t p = .ok b := by
  obtain ⟨i, hi, hp⟩ := get_eq_ok_iff.1 ht
  obtain ⟨j, hj, hq⟩ := get_eq_ok_iff.1 ht'
  have hi₂ : b₂.index? t' = some j := by rw [index?_set h₂, index?_set h₁, hj]
  obtain ⟨b₃, h₃⟩ : ∃ b₃, b₂.set t' q = .ok b₃ := ⟨_, set_eq_ok_iff.2 ⟨j, hi₂, rfl⟩⟩
  refine ⟨b₃, h₃, set_eq_ok_iff.2 ⟨i, ?_, ?_⟩⟩
  · rw [index?_set h₃, index?_set h₂, index?_set h₁, hi]
  obtain ⟨_, hi₁, rfl⟩ := set_eq_ok_iff.1 h₁
  obtain ⟨_, hj₁, rfl⟩ := set_eq_ok_iff.1 h₂
  obtain ⟨_, hj₂, rfl⟩ := set_eq_ok_iff.1 h₃
  obtain rfl := Option.some.inj (hi.symm.trans hi₁)
  obtain rfl := Option.some.inj (hj.symm.trans hj₁)
  obtain rfl := Option.some.inj (hj.symm.trans hj₂)
  exact congrArg (Board.mk b.width b.height) (setIfInBounds_restore (hp ▸ getElem?_cells hb hi)
    (hq ▸ getElem?_cells hb hj))

/-! ### The pieces on a board -/

/-- The order by `x` and then by `y`. -/
def Before (t t' : Tile) : Prop := t.1 < t'.1 ∨ t.1 = t'.1 ∧ t.2 < t'.2

theorem mem_pieces (hb : b.Complete) {piece : PieceId} :
    (t, piece) ∈ b.pieces ↔ b.get t = .ok (some piece) := by
  obtain ⟨x, y⟩ := t
  have hmem : ((x, y), piece) ∈ b.pieces ↔ ∃ i : Nat, b.cells[i]? = some (some piece) ∧
      x = (i / b.height : Nat) ∧ y = (i % b.height : Nat) := by
    simp only [pieces, List.mem_filterMap, Prod.exists, List.mem_zipIdx_iff_getElem?,
      Array.getElem?_toList, Option.map_eq_some_iff, Prod.mk.injEq]
    constructor
    · rintro ⟨cell, i, hi, p, rfl, ⟨rfl, rfl⟩, rfl⟩
      exact ⟨i, hi, rfl, rfl⟩
    · rintro ⟨i, hi, rfl, rfl⟩
      exact ⟨_, i, hi, piece, rfl, ⟨rfl, rfl⟩, rfl⟩
  rw [hmem, get_eq_ok_iff]
  constructor
  · rintro ⟨i, hi, rfl, rfl⟩
    have hlt : i < b.width * b.height := by
      rw [← hb]
      exact (Array.getElem?_eq_some_iff.1 hi).1
    have hpos : 0 < b.height := Nat.pos_of_ne_zero fun h => by simp [h] at hlt
    have hx : i / b.height < b.width := (Nat.div_lt_iff_lt_mul hpos).2 hlt
    have hy : i % b.height < b.height := Nat.mod_lt _ hpos
    refine ⟨i, index?_eq_some_iff.2 ⟨⟨Int.natCast_nonneg _, Int.ofNat_lt.2 hx, Int.natCast_nonneg _,
      Int.ofNat_lt.2 hy⟩, Nat.div_add_mod' i b.height⟩, ?_⟩
    rw [Array.getD_eq_getD_getElem?, hi]
    rfl
  · rintro ⟨i, hi, hget⟩
    have hcell := getElem?_cells hb hi
    rw [hget] at hcell
    obtain ⟨⟨hx, hx', hy, hy'⟩, rfl⟩ := index?_eq_some_iff.1 hi
    dsimp only at hx hx' hy hy' hcell
    have hlt : y.toNat < b.height := by omega
    refine ⟨_, hcell, ?_, ?_⟩
    · rw [Nat.add_comm, Nat.add_mul_div_right _ _ (Nat.zero_lt_of_lt hlt), Nat.div_eq_of_lt hlt,
        Nat.zero_add, Int.toNat_of_nonneg hx]
    · rw [Nat.add_comm, Nat.add_mul_mod_self_right, Nat.mod_eq_of_lt hlt, Int.toNat_of_nonneg hy]

/-- The pieces are listed by their tiles, and no tile is listed twice. -/
theorem pairwise_pieces (b : Board) : (b.pieces.map Prod.fst).Pairwise Before := by
  rw [List.pairwise_map, pieces, List.pairwise_filterMap, List.pairwise_iff_getElem]
  intro i j hi hj hij e he e' he'
  rw [List.getElem_zipIdx] at he he'
  obtain ⟨p, -, rfl⟩ := Option.map_eq_some_iff.1 he
  obtain ⟨p', -, rfl⟩ := Option.map_eq_some_iff.1 he'
  simp only [Nat.zero_add]
  rcases Nat.lt_or_eq_of_le (Nat.div_le_div_right (c := b.height) (Nat.le_of_lt hij)) with h | h
  · exact .inl (Int.ofNat_lt.2 h)
  · refine .inr ⟨congrArg Int.ofNat h, Int.ofNat_lt.2 ?_⟩
    have h₁ := Nat.div_add_mod i b.height
    have h₂ := Nat.div_add_mod j b.height
    rw [← h] at h₂
    omega

end Board

/-! ### The first board and the pieces -/

/-- What a cell names: nothing, or the first declared piece of this name. -/
inductive Cell.Names (d : Definitions) : Cell → Option PieceId → Prop
  | empty : Names d .empty none
  | piece {name : String} {owner : Option String} {p : PieceId} (h : d.pieceId? name = some p) :
    Names d (.piece name owner) (some p)

namespace Program

theorem cellPiece_eq_ok_iff {d : Definitions} {cell : Cell} {occupant : Option PieceId} :
    cellPiece d cell = .ok occupant ↔ cell.Names d occupant := by
  constructor
  · intro h
    unfold cellPiece at h
    split at h
    · obtain rfl := Except.ok.inj h
      exact .empty
    · split at h
      · cases h
      · rename_i hp
        obtain rfl := Except.ok.inj h
        exact .piece hp
  · rintro (_ | hp)
    · rfl
    · rw [cellPiece, hp]

/-- What putting the occupants of cells on a board keeps is kept by placing cells. -/
theorem placeCells_induction {P : Board → Prop} {d : Definitions} {decl : BoardDecl}
    {width height k : Nat} {b b' : Board} {cells : List Cell}
    (hset : ∀ b t c occupant b', P b → cellPiece d c = .ok occupant → b.set t occupant = .ok b' → P b')
    (hb : P b) (h : placeCells d decl width height k b cells = .ok b') : P b' := by
  induction cells generalizing b k with
  | nil =>
    obtain rfl := Except.ok.inj h
    exact hb
  | cons cell cells ih =>
    rw [placeCells, bind_eq_ok_iff] at h
    obtain ⟨occupant, hcell, h⟩ := h
    split at h
    · cases h
    · rename_i b₁ hs
      exact ih (hset _ _ _ _ _ hb hcell hs) h

/-- With a cell for each tile, the first board is what comes of placing them. -/
theorem initialBoard_eq_placeCells {decl : BoardDecl} {width height : Nat} (d : Definitions)
    (hsides : decl.sides? = some (width, height)) (hlength : decl.cells.length = width * height) :
    initialBoard decl d =
      placeCells d decl width height 0 (.empty width height) (decl.cells.map (·.value)) := by
  rw [initialBoard, hsides]
  simp only [hlength, if_true]

theorem placeCells_of_initialBoard {decl : BoardDecl} {d : Definitions} {b : Board}
    (h : initialBoard decl d = .ok b) : ∃ width height, decl.sides? = some (width, height) ∧
      decl.cells.length = width * height ∧
      placeCells d decl width height 0 (.empty width height) (decl.cells.map (·.value)) = .ok b := by
  unfold initialBoard at h
  split at h
  · cases h
  · rename_i width height hsides
    split at h
    · rename_i hlength
      exact ⟨width, height, hsides, hlength, h⟩
    · cases h

theorem complete_initialBoard {decl : BoardDecl} {d : Definitions} {b : Board}
    (h : initialBoard decl d = .ok b) : b.Complete := by
  obtain ⟨width, height, -, -, h⟩ := placeCells_of_initialBoard h
  exact placeCells_induction (fun _ _ _ _ _ hb _ => hb.set) (Board.complete_empty _ _) h

/-- What building rules does, stage by stage. -/
theorem build_eq_ok_iff {p : Program} {rules : Rules} : p.build = .ok rules ↔
    p.definitions = .ok rules.definitions ∧
    p.initialVariables rules.definitions = .ok rules.vars ∧
    rules.definitions.pieces.mapM (p.compilePiece
      { definitions := rules.definitions, vars := rules.vars }) = .ok rules.pieces ∧
    initialBoard p.board.value rules.definitions = .ok rules.board := by
  simp only [build, bind_eq_ok_iff, pure_eq_ok_iff]
  constructor
  · rintro ⟨d, hd, vars, hvars, pieces, hpieces, board, hboard, rfl⟩
    exact ⟨hd, hvars, hpieces, hboard⟩
  · rintro ⟨hd, hvars, hpieces, hboard⟩
    exact ⟨_, hd, _, hvars, _, hpieces, _, hboard, rfl⟩

/-- What compiling a piece does: its first rule counts. -/
theorem compilePiece_eq_ok_iff {p : Program} {env : Env} {type : PieceType} {piece : BoardPiece} :
    p.compilePiece env type = .ok piece ↔
      (p.rules.find? (·.piece = type.name) = none ∧
        piece = ⟨type.name, type.owner, .empty, none⟩) ∨
      ∃ r pattern, p.rules.find? (·.piece = type.name) = some r ∧
        env.resolve [] r.movement = .ok pattern ∧ piece = ⟨type.name, type.owner,
          .ofNfa (.ofPattern pattern), some (Nfa.ofPattern pattern).size⟩ := by
  unfold compilePiece
  cases p.rules.find? (·.piece = type.name) with
  | none => simp [eq_comm]
  | some r =>
    cases hr : env.resolve [] r.movement with
    | error e => simp [hr]
    | ok pattern => simp [hr, eq_comm]

theorem complete_build {p : Program} {rules : Rules} (h : p.build = .ok rules) :
    rules.board.Complete :=
  complete_initialBoard (build_eq_ok_iff.1 h).2.2.2

end Program
end BoardGame
