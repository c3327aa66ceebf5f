import BoardGame.Proofs.Grammar.Locality
import BoardGame.Proofs.Grammar.Progress
import BoardGame.Proofs.Grammar.RoundTrip
import BoardGame.Proofs.Token.Slices

/-!
# Spans are exact

An item that is read from the tokens `i` to `j` begins where the first of them begins and stops where the last
one stops (`Covers`), since an attempt that failed has put the cursor back. The items of a list are next to
each other (`Row`), and with the tokens their spans are in the order of the text. A span of a declaration is
cut out of the text with the tokens of the declaration and no others, so it is parsed as the declaration by
itself (`readAll_slice`).
-/

namespace BoardGame
variable {α β : Type} {source : String}

/-! ### Tokens in a text -/

/-- Each token stops before the next one begins, and only the last one is empty. -/
structure Spaced (ts : Array Token) : Prop where
  ordered : ∀ {j k : Nat} {t u : Token}, j < k → ts[j]? = some t → ts[k]? = some u → t.stop ≤ u.position.offset
  nonempty : ∀ {j : Nat} {t : Token}, j + 1 < ts.size → ts[j]? = some t → t.position.offset < t.stop

theorem spaced_of_scan {ts : List Token} (hts : scan source = .ok ts) : Spaced ts.toArray := by
  obtain ⟨us, before, gap, rest, hsplits, rfl⟩ := exists_splits_of_scan hts
  have hpairwise : (us ++ [Token.endOfInput (.after (before ++ gap))]).Pairwise
      fun t u => t.stop ≤ u.position.offset := by
    refine List.pairwise_append.2 ⟨hsplits.ordered.imp And.right, List.pairwise_singleton _ _, fun t ht u hu => ?_⟩
    obtain rfl := List.mem_singleton.1 hu
    have hend : byteLength before ≤ byteLength (before ++ gap) := by
      rw [byteLength_append]
      exact Nat.le_add_right _ _
    exact Nat.le_trans (hsplits.bounds t ht).2.2 hend
  refine ⟨fun {j k t u} hjk ht hu => ?_, fun {j t} hj ht => ?_⟩
  · rw [List.getElem?_toArray] at ht hu
    obtain ⟨hj, rfl⟩ := List.getElem?_eq_some_iff.1 ht
    obtain ⟨hk, rfl⟩ := List.getElem?_eq_some_iff.1 hu
    exact List.pairwise_iff_getElem.1 hpairwise j k hj hk hjk
  · have hlt : j < us.length := by simpa using hj
    rw [List.getElem?_toArray, List.getElem?_append_left hlt] at ht
    exact (hsplits.bounds t (List.mem_of_getElem? ht)).2.1

theorem Spaced.offset_le_stop {ts : Array Token} {j k : Nat} {t u : Token} (h : Spaced ts) (hjk : j ≤ k)
    (ht : ts[j]? = some t) (hu : ts[k]? = some u) : t.position.offset ≤ u.stop := by
  rcases Nat.lt_or_eq_of_le hjk with hlt | rfl
  · have hle := h.ordered hlt ht hu
    exact Nat.le_trans (Nat.le_trans (Nat.le_add_right _ _) hle) (Nat.le_add_right _ _)
  · obtain rfl := Option.some_inj.1 (ht.symm.trans hu)
    exact Nat.le_add_right _ _

/-! ### Items and the tokens they are read from -/

namespace Parser

/-- From the token `i` on, `p` reads the value and stops at the token `j`; the span begins where the first of
these tokens begins and stops where the last one stops. -/
structure Covers (ts : Array Token) (p : Parser α) (i j : Nat) (s : Spanned α) : Prop where
  reads : ∃ f g, p ts ⟨i, f⟩ = (some s.value, ⟨j, g⟩)
  lt : i < j
  first : ∃ t, ts[i]? = some t ∧ s.start = t.position.offset
  last : ∃ t, ts[j - 1]? = some t ∧ s.stop = t.stop

/-- The items are read one after another up to the token `k`, each of them behind so many other tokens. -/
inductive Row (ts : Array Token) (p : Parser α) (gap : Nat) : Nat → List (Spanned α) → Nat → Prop
  | nil (i : Nat) : Row ts p gap i [] i
  | cons {i j k : Nat} {s : Spanned α} {ss : List (Spanned α)} (item : Covers ts p (i + gap) j s)
    (rest : Row ts p gap j ss k) : Row ts p gap i (s :: ss) k

section
variable {ts : Array Token} {p : Parser α} {q : Parser (Spanned α)} {gap i j : Nat} {r m : Reader}
  {s : Spanned α} {ss : List (Spanned α)}

theorem covers_of_spanned [hp : Consumes ts p] (hts : Spaced ts) (hsize : r.cursor ≤ ts.size)
    (h : spanned p ts r = (some s, m)) : Covers ts p r.cursor m.cursor s := by
  have hrun : (attempt p >>= fun a => lastStop >>= fun stop => pure ⟨a, (tokenAt ts r.cursor).position.offset,
      max stop (tokenAt ts r.cursor).position.offset⟩) ts r = (some s, m) := h
  obtain ⟨a, n, ha, hrest⟩ := exists_of_bind hrun
  cases hrest
  obtain ⟨hlt, hn⟩ := hp.consumes hsize (run_of_attempt ha)
  have hfirst : ts[r.cursor]? = some ts[r.cursor] := Array.getElem?_eq_getElem (Nat.lt_of_lt_of_le hlt hn)
  have hlast : ts[m.cursor - 1]? = some ts[m.cursor - 1] := Array.getElem?_eq_getElem (by omega)
  refine ⟨⟨r.furthest, m.furthest, run_of_attempt ha⟩, hlt, ⟨_, hfirst, ?_⟩, ⟨_, hlast, ?_⟩⟩
  · rw [tokenAt_of_lt (Nat.lt_of_lt_of_le hlt hn)]
  · have hle := hts.offset_le_stop (Nat.le_sub_one_of_lt hlt) hfirst hlast
    have hzero : m.cursor ≠ 0 := Nat.ne_of_gt (Nat.zero_lt_of_lt hlt)
    rw [tokenAt_of_lt (Nat.lt_of_lt_of_le hlt hn), if_neg hzero, hlast, Option.map_some, Option.getD_some,
      Nat.max_eq_left hle]

theorem row_of_many [hq : Consumes ts q]
    (hitem : ∀ {r s m}, r.cursor ≤ ts.size → q ts r = (some s, m) → Covers ts p (r.cursor + gap) m.cursor s)
    (hsize : r.cursor ≤ ts.size) (h : many q ts r = (some ss, m)) : Row ts p gap r.cursor ss m.cursor := by
  -- by induction on the number of tokens that are left
  induction hn : ts.size - r.cursor using Nat.strongRecOn generalizing r ss with
  | ind n ih =>
    rcases hx : q ts r with ⟨_ | s, l⟩
    · rw [many_of_none hx] at h
      cases h
      exact .nil _
    · obtain ⟨hlt, hl⟩ := hq.consumes hsize hx
      rw [many_of_lt hx hlt hl, Prod.mk.injEq] at h
      obtain ⟨us, hus, rfl⟩ := Option.map_eq_some_iff.1 h.1
      exact .cons (hitem hsize hx) (ih _ (by omega) hl (Prod.ext hus h.2) rfl)

variable [Ending ts]

theorem row_of_separated [Consumes ts p] (hts : Spaced ts) (hcursor : r.cursor = i + 1) (hsize : r.cursor ≤ ts.size)
    (h : separated (spanned p) ts r = (some ss, m)) : Row ts p 1 i ss m.cursor := by
  obtain ⟨s, n, hfirst, hrest⟩ := exists_of_bind (run_of_attempt h)
  obtain ⟨us, l, hmany, hpure⟩ := exists_of_bind hrest
  cases hpure
  have hn := (Consumes.consumes hsize hfirst).2
  refine .cons (hcursor ▸ covers_of_spanned hts hsize hfirst) (row_of_many (fun {r s m} hsize hitem => ?_) hn hmany)
  obtain ⟨u, l, hcomma, hspanned⟩ := exists_of_bind hitem
  obtain ⟨hl, hlt⟩ := Steps.steps hcomma
  rw [← hl]
  exact covers_of_spanned hts (Nat.le_of_lt hlt) hspanned

/-- `name = item, …, item;` -/
theorem row_of_list [Consumes ts p] {name : String} {f : List (Spanned α) → β} {b : β} (hts : Spaced ts)
    (h : (do
      keyword name
      operator "="
      let items ← separated (spanned p)
      semicolon
      return f items) ts r = (some b, m)) :
    ∃ ss k, b = f ss ∧ Row ts p 1 (r.cursor + 1) ss k ∧ m.cursor = k + 1 ∧ m.cursor < ts.size := by
  obtain ⟨_, r₁, hname, h⟩ := exists_of_bind h
  obtain ⟨_, r₂, hequals, h⟩ := exists_of_bind h
  obtain ⟨ss, r₃, hitems, h⟩ := exists_of_bind h
  obtain ⟨_, r₄, hsemicolon, h⟩ := exists_of_bind h
  cases h
  obtain ⟨h₁, -⟩ := Steps.steps hname
  obtain ⟨h₂, hsize⟩ := Steps.steps hequals
  obtain ⟨h₃, hend⟩ := Steps.steps hsemicolon
  exact ⟨ss, r₃.cursor, rfl, row_of_separated hts (by omega) (Nat.le_of_lt hsize) hitems, h₃, hend⟩

theorem row_of_board {b : BoardDecl} (hts : Spaced ts) (h : board ts r = (some b, m)) :
    ∃ k, Row ts cell 1 (r.cursor + 7) b.cells k ∧ m.cursor = k + 1 ∧ m.cursor < ts.size := by
  obtain ⟨_, r₁, hsize, h⟩ := exists_of_bind (run_of_attempt h)
  obtain ⟨_, r₂, hequals, h⟩ := exists_of_bind h
  obtain ⟨width, r₃, hwidth, h⟩ := exists_of_bind h
  obtain ⟨_, r₄, hcomma, h⟩ := exists_of_bind h
  obtain ⟨height, r₅, hheight, h⟩ := exists_of_bind h
  obtain ⟨_, r₆, hsemicolon, h⟩ := exists_of_bind h
  obtain ⟨cells, k, rfl, hrow, hend⟩ := row_of_list hts h
  have hcursor : r₆.cursor = r.cursor + 6 := by
    rw [(Steps.steps hsemicolon).1, (Steps.steps hheight).1, (Steps.steps hcomma).1, (Steps.steps hwidth).1,
      (Steps.steps hequals).1, (Steps.steps hsize).1]
  rw [hcursor] at hrow
  exact ⟨k, hrow, hend⟩

end

/-! ### Lists of items -/

section
variable {ts : Array Token} {p : Parser α} {q : Parser β} {gap i j k l : Nat} {s : Spanned α} {t : Spanned β}
  {ss : List (Spanned α)}

theorem Covers.start_lt_stop (hts : Spaced ts) (h : Covers ts p i j s) (hj : j < ts.size) : s.start < s.stop := by
  obtain ⟨t, ht, hstart⟩ := h.first
  obtain ⟨u, hu, hstop⟩ := h.last
  have hlt := h.lt
  rw [hstart, hstop]
  rcases Nat.lt_or_eq_of_le (Nat.le_sub_one_of_lt hlt) with hbefore | rfl
  · calc t.position.offset < t.stop := hts.nonempty (by omega) ht
      _ ≤ u.position.offset := hts.ordered hbefore ht hu
      _ ≤ u.stop := Nat.le_add_right _ _
  · obtain rfl := Option.some_inj.1 (ht.symm.trans hu)
    exact hts.nonempty (by omega) ht

theorem Covers.stop_le_start (hts : Spaced ts) (h : Covers ts p i j s) (h' : Covers ts q k l t) (hjk : j ≤ k) :
    s.stop ≤ t.start := by
  obtain ⟨u, hu, hstop⟩ := h.last
  obtain ⟨v, hv, hstart⟩ := h'.first
  have hlt := h.lt
  rw [hstart, hstop]
  exact hts.ordered (by omega) hu hv

theorem Row.covers (h : Row ts p gap i ss k) : i ≤ k ∧
    ∀ s ∈ ss, ∃ a b, Covers ts p a b s ∧ i + gap ≤ a ∧ b ≤ k := by
  induction h with
  | nil i => exact ⟨Nat.le_refl i, nofun⟩
  | @cons i j k s ss item rest ih =>
    obtain ⟨hjk, hss⟩ := ih
    have hij := item.lt
    refine ⟨by omega, List.forall_mem_cons.2 ⟨⟨_, j, item, Nat.le_refl _, hjk⟩, fun s hs => ?_⟩⟩
    obtain ⟨a, b, hcovers, ha, hb⟩ := hss s hs
    exact ⟨a, b, hcovers, by omega, hb⟩

end

end Parser

/-- The spans are in the order of the text and do not overlap. -/
structure InOrder (ss : List (Spanned α)) : Prop where
  nonempty : ∀ s ∈ ss, s.start < s.stop
  ordered : ss.Pairwise fun s t => s.stop ≤ t.start

theorem Parser.Row.inOrder {ts : Array Token} {p : Parser α} {gap i k : Nat} {ss : List (Spanned α)}
    (hts : Spaced ts) (h : Row ts p gap i ss k) (hk : k < ts.size) : InOrder ss := by
  refine ⟨fun s hs => ?_, ?_⟩
  · obtain ⟨a, b, hcovers, -, hb⟩ := h.covers.2 s hs
    exact hcovers.start_lt_stop hts (Nat.lt_of_le_of_lt hb hk)
  · induction h with
    | nil => exact .nil
    | cons item rest ih =>
      refine List.pairwise_cons.2 ⟨fun t ht => ?_, ih hk⟩
      obtain ⟨a, b, hcovers, ha, -⟩ := rest.covers.2 t ht
      exact item.stop_le_start hts hcovers (Nat.le_of_add_right_le ha)

/-! ### Slices of the text -/

section
open BoardGame.Parser (Readable read written Covers Local Anything)
variable {p : Parser α} [Readable p]

theorem Parser.read_of_run {ts : Array Token} {i j : Nat} {f g : Option ParseError} {a : α} (hts : Closed ts)
    (hi : i ≤ ts.size) (h : p ts ⟨i, f⟩ = (some a, ⟨j, g⟩)) : read p (written ts i) = some (a, written ts j) := by
  cases hread : read p (written ts i) with
  | none =>
    have hnone := (readsAs p).of_none (f := f) hts hi hread
    rw [h] at hnone
    cases hnone
  | some x =>
    obtain ⟨b, k, g', hrun, rfl, -, -, hys⟩ := (readsAs p).of_some (f := f) hts hi hread
    obtain ⟨hvalue, hreader⟩ := Prod.mk.inj (h.symm.trans hrun)
    cases hvalue
    cases hreader
    rw [hys]

theorem scanned_of_scan {ts : List Token} (hts : scan source = .ok ts) (i : Nat) :
    ∀ x ∈ written ts.toArray i, x.Scanned := by
  obtain ⟨hlexemes, hscanned⟩ := lexemes_of_scan hts
  have hall : ∀ x ∈ ts.map Token.lexeme, x.Scanned := by
    rw [hlexemes]
    exact List.forall_mem_append.2 ⟨fun x hx => (hscanned x hx).2, List.forall_mem_singleton.2 ⟨nofun, nofun⟩⟩
  intro x hx
  rw [written, List.map_drop] at hx
  exact hall x (List.mem_of_mem_drop hx)

/-- What is read locally is read from the slice of its span alone, and to its end. -/
theorem readAll_slice (hp : Local Anything (read p)) {ts : List Token} (hts : scan source = .ok ts) {i j : Nat}
    {s : Spanned α} (h : Covers ts.toArray p i j s) (hj : j < ts.length) : ∃ slice : String,
      slice.toByteArray = source.toByteArray.extract s.start s.stop ∧
      readAll (do let a ← p; Parser.endOfInput; return a) slice = .ok s.value := by
  obtain ⟨f, g, hrun⟩ := h.reads
  have hlt := h.lt
  have hi : i ≤ ts.toArray.size := Nat.le_of_lt (Nat.lt_trans hlt hj)
  obtain ⟨ws, hsplit, hws⟩ := hp _ _ _ (scanned_of_scan hts i) (Parser.read_of_run (closed_of_scan hts) hi hrun)
  have hwritten : ((ts.drop i).take (j - i)).map Token.lexeme = ws := by
    have hrest : ts.drop j = (ts.drop i).drop (j - i) := by rw [List.drop_drop, Nat.add_sub_of_le (Nat.le_of_lt hlt)]
    refine List.append_cancel_right (Eq.trans ?_ hsplit)
    rw [written, written, hrest, ← List.map_append, List.take_append_drop]
  obtain ⟨t, ht, hstart⟩ := h.first
  obtain ⟨u, hu, hstop⟩ := h.last
  rw [List.getElem?_toArray] at ht hu
  obtain ⟨slice, us, hscan, hslice, hlexemes⟩ := exists_slice_of_scan hts hlt hj ht hu
  refine ⟨slice, by rw [hstart, hstop, hslice], (readAll_whole_eq_ok_iff hscan).2 ⟨[.ending], ?_, rfl⟩⟩
  rw [hlexemes, hwritten]
  exact hws trivial _ trivial

end

/-! ### Programs -/

namespace Program
open BoardGame.Parser

/-- Where the items of a program stand among the tokens. There are tokens between the lists, but none behind the
board. -/
structure Placed (ts : Array Token) (p : Program) (a b c d : Nat) : Prop where
  players : Row ts word 1 1 p.players a
  pieces : Row ts piece 1 (a + 2) p.pieces b
  declarations : Row ts declaration 0 (b + 1) p.declarations c
  board : Covers ts Parser.board c (d + 1) p.board
  cells : Row ts cell 1 (c + 7) p.board.value.cells d
  ending : d + 2 = ts.size

variable {p : Program}

theorem exists_placed {ts : List Token} {m : Reader} (hts : scan source = .ok ts)
    (h : program ts.toArray ⟨0, none⟩ = (some p, m)) : ∃ a b c d, p.Placed ts.toArray a b c d := by
  have hspaced := spaced_of_scan hts
  have hrow := isRow_of_scan hts
  have : Ending ts.toArray := by
    obtain ⟨t, hback, ht⟩ := closed_of_scan hts
    exact ⟨by rw [hback]; exact congrArg some (congrArg Lexeme.kind ht)⟩
  obtain ⟨players, r₁, hplayers, h⟩ := exists_of_bind (run_of_attempt h)
  obtain ⟨pieces, r₂, hpieces, h⟩ := exists_of_bind h
  obtain ⟨declarations, r₃, hdeclarations, h⟩ := exists_of_bind h
  obtain ⟨board, r₄, hboard, h⟩ := exists_of_bind h
  obtain ⟨_, r₅, hend, h⟩ := exists_of_bind h
  cases h
  obtain ⟨_, a, rfl, hplayers, h₁, -⟩ := row_of_list (f := fun ss => ss) hspaced (run_of_attempt hplayers)
  obtain ⟨_, b, rfl, hpieces, h₂, hsize⟩ := row_of_list (f := fun ss => ss) hspaced (run_of_attempt hpieces)
  have hdecls : Row ts.toArray declaration 0 r₂.cursor declarations r₃.cursor :=
    row_of_many (fun hle hitem => covers_of_spanned hspaced hle hitem) (Nat.le_of_lt hsize) hdeclarations
  have hle : r₃.cursor ≤ ts.toArray.size := (Forward.forward (Nat.le_of_lt hsize) hdeclarations).2
  have hcovers := covers_of_spanned hspaced hle hboard
  obtain ⟨f, g, hreads⟩ := hcovers.reads
  obtain ⟨d, hcells, h₄, hlt⟩ := row_of_board hspaced hreads
  obtain ⟨_, _, hkind, -⟩ := exists_of_bind hend
  have hlast := (kind_of_run hkind).1
  rw [tokenAt_of_lt hlt, hrow.ending] at hlast
  refine ⟨a, b, r₃.cursor, d, hplayers, ?_, ?_, ?_, hcells, by omega⟩
  · rwa [h₁] at hpieces
  · rwa [h₂] at hdecls
  · rwa [← h₄]

/-- The spans of a parsed program are exact, those of a list are in order, and the span of a declaration cuts
the declaration out of the text. -/
theorem spans_of_parseProgram (h : parseProgram source = .ok p) : ∃ ts, scan source = .ok ts ∧
    (∃ a b c d, p.Placed ts.toArray a b c d) ∧
    InOrder p.players ∧ InOrder p.pieces ∧ InOrder p.declarations ∧ InOrder p.board.value.cells ∧
    ∀ s ∈ p.declarations, ∃ slice : String,
      slice.toByteArray = source.toByteArray.extract s.start s.stop ∧
      readAll (do let d ← declaration; endOfInput; return d) slice = .ok s.value := by
  obtain ⟨ts, hts, hrun⟩ := readAll_eq_ok_iff.1 h
  obtain ⟨a, b, c, d, hplaced⟩ := exists_placed hts (Prod.ext hrun rfl)
  have hspaced := spaced_of_scan hts
  have hb := hplaced.pieces.covers.1
  have hc := hplaced.declarations.covers.1
  have hd := hplaced.cells.covers.1
  have hsize := hplaced.ending
  refine ⟨ts, hts, ⟨a, b, c, d, hplaced⟩, hplaced.players.inOrder hspaced (by omega),
    hplaced.pieces.inOrder hspaced (by omega), hplaced.declarations.inOrder hspaced (by omega),
    hplaced.cells.inOrder hspaced (by omega), fun s hs => ?_⟩
  obtain ⟨i, j, hcovers, -, hj⟩ := hplaced.declarations.covers.2 s hs
  have hlt : j < ts.toArray.size := by omega
  exact readAll_slice local_declaration hts hcovers hlt

theorem spans_of_parseProgram_advance : readAll (do let d ← declaration; endOfInput; return d)
    "rule Pawn = ((0, 1, empty) skip()) turn(-1);" = .ok (.rule ⟨"Pawn", .concat (.concat
      (.letter ⟨.literal 0, .literal 1, .named "empty", none⟩) (.expand ⟨"skip", []⟩))
      (.expand ⟨"turn", [.unary .neg (.literal 1)]⟩)⟩) := by
  obtain ⟨_, -, -, -, -, -, -, hslices⟩ := spans_of_parseProgram parseProgram_advance
  obtain ⟨slice, hslice, hread⟩ := hslices _ (List.mem_singleton_self _)
  have hbytes : advanceSource.toByteArray.extract 39 83 =
      "rule Pawn = ((0, 1, empty) skip()) turn(-1);".toByteArray := by decide +kernel
  obtain rfl := String.toByteArray_inj.1 (hslice.trans hbytes)
  exact hread

end Program
end BoardGame
