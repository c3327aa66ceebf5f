import BoardGame.Game.View
import BoardGame.Proofs.Game.Invariants

/-!
# What is seen of a board

A tile is read and written at the place of its cell, pieces are listed with the tiles that places are
counted back to, and planes have a place of their own for each piece on each tile. All this fits together:
a board is `Board.Faithful` whatever has been put on it, and the planes of a game have 1 where a piece
stands and 0 elsewhere (`Planes.Shows`).
-/

namespace BoardGame

namespace Board
variable {b b' : Board} {t t' : Tile} {p : Option PieceId} {n width height : Nat}

/-! ### Boards written tile by tile -/

/-- The tile is one of the board. -/
def Inside (b : Board) (t : Tile) : Prop := 0 ≤ t.1 ∧ t.1 < b.width ∧ 0 ≤ t.2 ∧ t.2 < b.height

theorem inside_of_get (h : b.get t = .ok p) : b.Inside t := by
  obtain ⟨i, hi, -⟩ := get_eq_ok_iff.1 h
  exact (index?_eq_some_iff.1 hi).1

theorem exists_set_of_inside (ht : b.Inside t) (p : Option PieceId) : ∃ b', b.set t p = .ok b' :=
  ⟨_, set_eq_ok_iff.2 ⟨_, index?_eq_some_iff.2 ⟨ht, rfl⟩, rfl⟩⟩

theorem set_of_not_inside (ht : ¬ b.Inside t) : b.set t p = .error (.outOfBoard t.1 t.2) := by
  have hindex : b.index? t = none := if_neg ht
  rw [Board.set, hindex]

/-- The outcome of a write and the board that it leaves. -/
def setInPlace (b : Board) (t : Tile) (p : Option PieceId) : Except EvalError Unit × Board :=
  match b.set t p with
  | .error e => (.error e, b)
  | .ok b' => (.ok (), b')

theorem setInPlace_of_ok (h : b.set t p = .ok b') : b.setInPlace t p = (.ok (), b') := by
  rw [setInPlace, h]

theorem setInPlace_of_error {e : EvalError} (h : b.set t p = .error e) :
    b.setInPlace t p = (.error e, b) := by
  rw [setInPlace, h]

/-- The board that writes leave, some of which may fail, from an empty board on. -/
def written (width height : Nat) (writes : List (Tile × Option PieceId)) : Board :=
  writes.foldl (fun b w => (b.setInPlace w.1 w.2).2) (empty width height)

theorem Sized.setInPlace (hb : b.Sized width height) (t : Tile) (p : Option PieceId) :
    (b.setInPlace t p).2.Sized width height := by
  cases h : b.set t p with
  | error e =>
    rw [setInPlace_of_error h]
    exact hb
  | ok b' =>
    rw [setInPlace_of_ok h]
    exact hb.set h

theorem sized_written (width height : Nat) (writes : List (Tile × Option PieceId)) :
    (written width height writes).Sized width height :=
  List.foldlRecOn writes _ ⟨rfl, rfl, complete_empty width height⟩ fun _ hb w _ =>
    hb.setInPlace w.1 w.2

/-- What is put on a tile is found there, and the other tiles are as they were. A write that is not for a
tile of the board fails and leaves the board as it was. The pieces are those that are found on tiles, by
their tiles, and no tile is listed twice. -/
structure Faithful (b : Board) : Prop where
  set_inside : ∀ t p, b.Inside t → ∃ b', b.setInPlace t p = (.ok (), b') ∧ b'.get t = .ok p ∧
    ∀ t', t' ≠ t → b'.get t' = b.get t'
  set_outside : ∀ t p, ¬ b.Inside t → b.setInPlace t p = (.error (.outOfBoard t.1 t.2), b)
  mem_pieces : ∀ t piece, (t, piece) ∈ b.pieces ↔ b.get t = .ok (some piece)
  pairwise_pieces : (b.pieces.map Prod.fst).Pairwise Before

theorem Complete.faithful (hb : b.Complete) : b.Faithful where
  set_inside t p ht := by
    obtain ⟨b', h⟩ := exists_set_of_inside ht p
    exact ⟨b', setInPlace_of_ok h, get_set hb h, fun t' => get_set_of_ne h⟩
  set_outside t p ht := setInPlace_of_error (set_of_not_inside ht)
  mem_pieces t piece := mem_pieces hb
  pairwise_pieces := pairwise_pieces b

end Board

/-! ### Planes -/

namespace Planes
variable {p : Planes} {b : Board} {n piece piece' x x' y y' : Nat} {e : Tile × PieceId}
  {entries : List (Tile × PieceId)} {data : Array Nat}

/-- Planes with no piece on them. -/
def blank (pieces width height : Nat) : Planes :=
  ⟨pieces, width, height, Array.replicate (pieces * width * height) 0⟩

theorem index_lt (hpiece : piece < p.pieces) (hx : x < p.width) (hy : y < p.height) :
    p.index piece x y < p.pieces * p.width * p.height := by
  have hrow : piece * p.width + x < p.pieces * p.width := by
    rw [Nat.mul_comm piece]
    exact Nat.mul_add_lt_mul_of_lt_of_lt hpiece hx
  rw [index, Nat.mul_comm _ p.height]
  exact Nat.mul_add_lt_mul_of_lt_of_lt hrow hy

theorem index_inj (hx : x < p.width) (hx' : x' < p.width) (hy : y < p.height) (hy' : y' < p.height)
    (h : p.index piece x y = p.index piece' x' y') : piece = piece' ∧ x = x' ∧ y = y' := by
  obtain ⟨hrow, rfl⟩ := eq_and_eq_of_mul_add_eq hy hy' h
  obtain ⟨rfl, rfl⟩ := eq_and_eq_of_mul_add_eq hx hx' hrow
  exact ⟨rfl, rfl, rfl⟩

/-- The place of a piece on a tile. -/
def place (p : Planes) (e : Tile × PieceId) : Nat := p.index e.2 e.1.1.toNat e.1.2.toNat

def mark (p : Planes) (e : Tile × PieceId) : Planes :=
  { p with data := p.data.setIfInBounds (p.place e) 1 }

/-- The data of the planes after these entries have been marked. -/
structure Marks (p : Planes) (entries : List (Tile × PieceId)) (data : Array Nat) : Prop where
  size_eq : data.size = p.data.size
  marked : ∀ e ∈ entries, p.place e < p.data.size → data[p.place e]? = some 1
  kept : ∀ i : Nat, (∀ e ∈ entries, p.place e ≠ i) → data[i]? = p.data[i]?

theorem Marks.cons (h : (p.mark e).Marks entries data) : p.Marks (e :: entries) data where
  size_eq := h.size_eq.trans Array.size_setIfInBounds
  marked e' he' hlt := by
    have hlt' : p.place e' < (p.mark e).data.size := Array.size_setIfInBounds.symm ▸ hlt
    -- the place may be marked again later on
    by_cases hlater : ∃ e'' ∈ entries, p.place e'' = p.place e'
    · obtain ⟨e'', he'', heq⟩ := hlater
      rw [← heq] at hlt' ⊢
      exact h.marked e'' he'' hlt'
    · rcases List.mem_cons.1 he' with rfl | he'
      · rw [h.kept _ fun e'' he'' heq => hlater ⟨e'', he'', heq⟩]
        exact Array.getElem?_setIfInBounds_self_of_lt hlt
      · exact (hlater ⟨e', he', rfl⟩).elim
  kept i hi := by
    rw [h.kept i fun e' he' => hi e' (List.mem_cons_of_mem _ he')]
    exact Array.getElem?_setIfInBounds_ne (hi e (List.mem_cons_self ..))

theorem exists_foldl_mark (p : Planes) (entries : List (Tile × PieceId)) :
    ∃ data, entries.foldl mark p = { p with data := data } ∧ p.Marks entries data := by
  induction entries generalizing p with
  | nil => exact ⟨p.data, rfl, rfl, nofun, fun _ _ => rfl⟩
  | cons e entries ih =>
    obtain ⟨data, hdata, hmarks⟩ := ih (p.mark e)
    exact ⟨data, hdata, hmarks.cons⟩

/-- With the pieces of a board marked, the entry of a piece on a tile tells if it stands there. -/
theorem Marks.getElem?_index (hm : p.Marks b.pieces data) (hb : b.Complete) (hwidth : p.width = b.width)
    (hheight : p.height = b.height) (hx : x < p.width) (hy : y < p.height)
    (hlt : p.index piece x y < p.data.size) : data[p.index piece x y]? =
      if b.get (x, y) = .ok (some piece) then some 1 else p.data[p.index piece x y]? := by
  split
  · rename_i hstands
    exact hm.marked ((x, y), piece) ((Board.mem_pieces hb).2 hstands) hlt
  · rename_i hstands
    refine hm.kept _ ?_
    rintro ⟨⟨x', y'⟩, piece'⟩ hmem hplace
    have hget := (Board.mem_pieces hb).1 hmem
    obtain ⟨hx₀, hx', hy₀, hy'⟩ := Board.inside_of_get hget
    have hcolumn : x'.toNat < p.width := hwidth ▸ (Int.toNat_lt hx₀).2 hx'
    have hrow : y'.toNat < p.height := hheight ▸ (Int.toNat_lt hy₀).2 hy'
    obtain ⟨rfl, rfl, rfl⟩ := index_inj hcolumn hx hrow hy hplace
    rw [Int.toNat_of_nonneg hx₀, Int.toNat_of_nonneg hy₀] at hstands
    exact hstands hget

/-- There is an entry for each of the `n` kinds of pieces and each tile of the board. It is 1 if the piece
stands on the tile, and 0 if not; what is listed of the board has its place among the entries. -/
structure Shows (p : Planes) (n : Nat) (b : Board) : Prop where
  pieces_eq : p.pieces = n
  width_eq : p.width = b.width
  height_eq : p.height = b.height
  size_eq : p.data.size = n * b.width * b.height
  place_lt : ∀ t piece, (t, piece) ∈ b.pieces →
    b.Inside t ∧ piece < n ∧ p.index piece t.1.toNat t.2.toNat < p.data.size
  entry : ∀ piece x y, piece < n → x < b.width → y < b.height → p.index piece x y < p.data.size ∧
    p.get piece x y = if b.get (x, y) = .ok (some piece) then 1 else 0

theorem shows_foldl_mark (hb : b.Complete) (hn : b.Holds n) :
    (b.pieces.foldl mark (blank n b.width b.height)).Shows n b := by
  obtain ⟨data, hdata, hm⟩ := exists_foldl_mark (blank n b.width b.height) b.pieces
  have hblank : (blank n b.width b.height).data.size = n * b.width * b.height := Array.size_replicate
  have hsize : data.size = n * b.width * b.height := hm.size_eq.trans hblank
  rw [hdata]
  refine ⟨rfl, rfl, rfl, hsize, fun t piece hmem => ?_, fun piece x y hpiece hx hy => ?_⟩
  · have hget := (Board.mem_pieces hb).1 hmem
    have ht := Board.inside_of_get hget
    have hpiece := hn.lt_of_get hb hget
    exact ⟨ht, hpiece, hsize.symm ▸ index_lt (p := blank n b.width b.height) hpiece
      ((Int.toNat_lt ht.1).2 ht.2.1) ((Int.toNat_lt ht.2.2.1).2 ht.2.2.2)⟩
  · have hlt := index_lt (p := blank n b.width b.height) hpiece hx hy
    refine ⟨hsize.symm ▸ hlt, ?_⟩
    have hentry := hm.getElem?_index hb rfl rfl hx hy (hblank.symm ▸ hlt)
    have hzero : (blank n b.width b.height).data[(blank n b.width b.height).index piece x y]? = some 0 :=
      Array.getElem?_replicate.trans (if_pos hlt)
    rw [hzero, ← apply_ite some] at hentry
    exact (Array.getD_eq_getD_getElem? ..).trans (congrArg (Option.getD · 0) hentry)

end Planes

theorem Game.planes_eq (g : Game) : g.planes = g.board.pieces.foldl Planes.mark
    (.blank g.rules.pieces.length g.board.width g.board.height) := rfl

theorem Game.Reachable.shows {p : Program} {rules : Rules} {options : Options} {g : Game}
    (h : p.build = .ok rules) (hg : Reachable rules options g) :
    g.board.Faithful ∧ g.planes.Shows g.rules.pieces.length g.board := by
  obtain ⟨s, hs⟩ := hg.represents h
  have hfits := hg.fits h
  have hcount : rules.definitions.pieces.length = g.rules.pieces.length := by
    obtain ⟨hdeclared, hcompiled⟩ := Program.length_pieces_of_build h
    rw [hs.rules_eq, hdeclared, hcompiled]
  rw [planes_eq]
  exact ⟨hfits.complete.faithful, Planes.shows_foldl_mark hfits.complete (hcount ▸ hfits.holds)⟩

/-- A board is faithful whatever has been written on it, and so is the board of a game wherever play has
led, and the planes show it. -/
theorem views_faithful :
    (∀ width height writes, (Board.written width height writes).width = width ∧
      (Board.written width height writes).height = height ∧
      (Board.written width height writes).Faithful) ∧
    ∀ (p : Program) (rules : Rules) (options : Options) (g : Game), p.build = .ok rules →
      Game.Reachable rules options g →
        g.board.Faithful ∧ g.planes.Shows g.rules.pieces.length g.board := by
  refine ⟨fun width height writes => ?_, fun p rules options g => Game.Reachable.shows⟩
  obtain ⟨hwidth, hheight, hcomplete⟩ := Board.sized_written width height writes
  exact ⟨hwidth, hheight, hcomplete.faithful⟩

/-- A write beside a board of two columns leaves what has been put on its corners, and after the step the
planes of `promotion` have the rook on the tile where it is. -/
theorem views_faithful_promotion :
    (Board.written 2 1 [((1, 0), some 0), ((2, 0), some 1), ((0, 0), some 3)]).pieces =
        [((0, 0), 3), ((1, 0), 0)] ∧
      (Board.written 2 1 [((1, 0), some 0), ((2, 0), some 1), ((0, 0), some 3)]).Faithful ∧
    promotion.build = .ok promotionRules ∧
    let g := ((Action.make ⟨(0, 0), [crownStep]⟩).play (.new promotionRules {})).2
    g.planes = ⟨2, 1, 2, #[0, 0, 0, 1]⟩ ∧ g.planes.Shows 2 g.board := by
  have hbuild : promotion.build = .ok promotionRules := rfl
  refine ⟨rfl, (views_faithful.1 2 1 _).2.2, hbuild, ?_⟩
  intro g
  have hg : Game.Reachable promotionRules {} g := .act .new _
  exact ⟨by decide, (views_faithful.2 promotion promotionRules {} g hbuild hg).2⟩

end BoardGame
