import BoardGame.Proofs.Grammar.Derivation.Expr
import BoardGame.Proofs.Token.Splitting
import BoardGame.Source

/-!
# From a text to its lexemes

The lexemes of a text are texts of their kinds (`Lexeme.Scanned`), and behind them stands the end of input
(`lexemes_of_scan`). The text is parsed if its tokens are read (`readAll_eq_ok_iff`).
-/

namespace BoardGame
open Lexeme (next)
variable {α : Type} {p : Parser α} {source : String} {ts : List Token} {a : α}

/-! ### The lexemes of a text -/

/-- A lexeme as texts split into them: of a text of its kind, and in range. -/
structure Lexeme.Scanned (x : Lexeme) : Prop where
  text : x ≠ .ending → x.kind.HasText x.literal
  fits : x.kind = .integer → FitsInt64 (decimalValue x.literal.toList)

namespace Lexeme.Scanned
variable {x : Lexeme}

theorem text_of_kind (h : x.Scanned) (hx : x.kind ≠ .endOfInput) : x.kind.HasText x.literal :=
  h.text fun heq => hx (by rw [heq]; rfl)

theorem spelled (h : x.Scanned) : x.Spelled where
  word hx := by
    have htext := h.text_of_kind (by simp [hx])
    rwa [hx] at htext
  integer hx := by
    have htext := h.text_of_kind (by simp [hx])
    rwa [hx] at htext

theorem inRange (h : x.Scanned) : x.InRange := by
  intro hx
  have hread := readInt64?_of_isNumeral (h.spelled.integer hx)
  have hfits : (some (decimalValue x.literal.toList : Int)).filter (fun n => FitsInt64 n) =
      some (decimalValue x.literal.toList : Int) := by simp [h.fits hx]
  rw [Parser.integer?, if_pos hx, hread, hfits]

end Lexeme.Scanned

theorem lexemes_of_scan (hts : scan source = .ok ts) :
    ts.map Token.lexeme = ts.dropLast.map Token.lexeme ++ [.ending] ∧
      ∀ x ∈ ts.dropLast.map Token.lexeme, x.kind ≠ .endOfInput ∧ x.Scanned := by
  obtain ⟨us, before, gap, rest, hsplits, rfl⟩ := exists_splits_of_scan hts
  rw [List.dropLast_concat, List.map_append]
  refine ⟨rfl, List.forall_mem_map.2 fun t ht => ?_⟩
  obtain ⟨_, _, -, hstands⟩ := hsplits.exists_standsAt t ht
  exact ⟨hstands.kind_ne_endOfInput, fun _ => hstands.longest.1, hstands.fits⟩

theorem closed_of_scan (hts : scan source = .ok ts) : Parser.Closed ts.toArray := by
  have hlast : (ts.map Token.lexeme).getLast? = some .ending := by
    rw [(lexemes_of_scan hts).1, List.getLast?_concat]
  rw [List.getLast?_map] at hlast
  obtain ⟨t, ht, hending⟩ := Option.map_eq_some_iff.1 hlast
  exact ⟨t, by rw [List.back?_toArray, ht], hending⟩

theorem written_toArray (ts : List Token) : Parser.written ts.toArray 0 = ts.map Token.lexeme := by
  rw [Parser.written, List.drop_zero]

theorem spelled_of_scan (hts : scan source = .ok ts) : ∀ x ∈ Parser.written ts.toArray 0, x.Spelled := by
  obtain ⟨hlexemes, hscanned⟩ := lexemes_of_scan hts
  rw [written_toArray, hlexemes]
  exact List.forall_mem_append.2
    ⟨fun x hx => (hscanned x hx).2.spelled, List.forall_mem_singleton.2 ⟨nofun, nofun⟩⟩

/-! ### Running a parser on a text -/

theorem Parser.run_eq_ok_iff {ts : Array Token} : p.run ts = .ok a ↔ (p ts ⟨0, none⟩).1 = some a := by
  have hattempt : (attempt p ts ⟨0, none⟩).1 = (p ts ⟨0, none⟩).1 := by
    unfold attempt
    split <;> simp_all
  rw [← hattempt, run]
  split
  case h_1 heq => rw [heq, Except.ok.injEq, Option.some_inj]
  case h_2 heq => simp [heq]

theorem readAll_of_error {e : ScanError} (h : scan source = .error e) :
    readAll p source = .error (.scan e) := by
  have hread : readAll p source =
      ((scan source).mapError .scan).bind fun ts => (p.run ts.toArray).mapError .parse := rfl
  rw [hread, h]
  rfl

theorem readAll_eq_ok_iff_of_scan (hts : scan source = .ok ts) :
    readAll p source = .ok a ↔ (p ts.toArray ⟨0, none⟩).1 = some a := by
  have hread : readAll p source =
      ((scan source).mapError .scan).bind fun ts => (p.run ts.toArray).mapError .parse := rfl
  have hok : readAll p source = (p.run ts.toArray).mapError .parse := by
    rw [hread, hts]
    rfl
  rw [hok, ← Parser.run_eq_ok_iff]
  cases p.run ts.toArray with
  | error e => exact iff_of_false nofun nofun
  | ok b => exact ⟨fun h => congrArg _ (Except.ok.inj h), fun h => congrArg _ (Except.ok.inj h)⟩

theorem readAll_eq_ok_iff : readAll p source = .ok a ↔
    ∃ ts, scan source = .ok ts ∧ (p ts.toArray ⟨0, none⟩).1 = some a := by
  cases hts : scan source with
  | error e =>
    rw [readAll_of_error hts]
    exact iff_of_false nofun fun ⟨_, h, _⟩ => nomatch h
  | ok ts => simp only [readAll_eq_ok_iff_of_scan hts, Except.ok.injEq, exists_eq_left']

theorem Parser.run_eq_some_iff [Parser.Readable p] {ts : Array Token} (hts : Closed ts) :
    (p ts ⟨0, none⟩).1 = some a ↔ ∃ ys, read p (written ts 0) = some (a, ys) := by
  cases hread : read p (written ts 0) with
  | none => rw [(readsAs p).of_none hts (Nat.zero_le _) hread]; exact iff_of_false nofun nofun
  | some x =>
    obtain ⟨b, j, f, hrun, rfl, -⟩ := (readsAs p).of_some (f := none) hts (Nat.zero_le _) hread
    rw [hrun]
    simp only [Option.some_inj, Prod.ext_iff]
    exact ⟨fun h => ⟨x.2, h, rfl⟩, fun ⟨_, h, _⟩ => h⟩

theorem Parser.read_endOfInput_eq_some_iff {xs ys : List Lexeme} {u : Unit} :
    read endOfInput xs = some (u, ys) ↔ (next xs).kind = .endOfInput ∧ xs.tail = ys := by
  have hread : read endOfInput xs = (read (kind .endOfInput) xs).bind fun x => some ((), x.2) := rfl
  rw [hread, read_kind]
  by_cases h : (next xs).kind = .endOfInput <;> simp [h]

/-- The whole of a text is read as `a`, if `p` reads it and the end of input is next. -/
theorem readAll_whole_eq_ok_iff [Parser.Readable p] (hts : scan source = .ok ts) :
    readAll (do let a ← p; Parser.endOfInput; return a) source = .ok a ↔
      ∃ ys, Parser.read p (ts.map Token.lexeme) = some (a, ys) ∧ (next ys).kind = .endOfInput := by
  have hread : ∀ xs, Parser.read (do let a ← p; Parser.endOfInput; return a) xs =
      (Parser.read p xs).bind fun x => (Parser.read Parser.endOfInput x.2).bind fun y => some (x.1, y.2) :=
    fun _ => rfl
  rw [readAll_eq_ok_iff_of_scan hts, Parser.run_eq_some_iff (closed_of_scan hts), written_toArray, hread]
  simp only [Option.bind_eq_some_iff, Option.some_inj, Prod.exists, Prod.mk.injEq,
    Parser.read_endOfInput_eq_some_iff]
  constructor
  · rintro ⟨_, b, ys, hp, -, _, ⟨hys, -⟩, rfl, -⟩
    exact ⟨ys, hp, hys⟩
  · rintro ⟨ys, hp, hys⟩
    exact ⟨_, a, ys, hp, (), _, ⟨hys, rfl⟩, rfl, rfl⟩

end BoardGame
