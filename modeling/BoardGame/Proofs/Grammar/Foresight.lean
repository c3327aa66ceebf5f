import BoardGame.Grammar.Program
import BoardGame.Proofs.Token.Splitting

/-!
# Errors stand where no text can go on

Two rows of tokens that agree up to the token `i` are parsed alike as long as the parser does not get past
`i` (`Surely`): every failure is recorded at the token it is due to, so a run whose furthest failure is at
`i` has looked at nothing behind it. One lemma a combinator, and by induction on the nesting for operands
and movements; what follows for a whole parse is `Sure.run_eq`.
-/

namespace BoardGame.Parser
variable {α β : Type}

/-! ### Rows of tokens -/

/-- Tokens in the order of a text, of which the last and no other is the end of input. -/
structure IsRow (ts : Array Token) : Prop where
  ordered : ∀ k (hk : k < ts.size) j (hj : j < k), ts[j].position.offset < ts[k].position.offset
  ending : ∀ j (hj : j < ts.size), ts[j].kind = .endOfInput ↔ j + 1 = ts.size
  nonempty : 0 < ts.size

/-- The tokens of a text are a row. -/
theorem isRow_of_scan {source : String} {ts : List Token} (h : scan source = .ok ts) : IsRow ts.toArray := by
  obtain ⟨us, before, gap, rest, hsplits, rfl⟩ := exists_splits_of_scan h
  have hordered : (us ++ [Token.endOfInput (.after (before ++ gap))]).Pairwise
      fun t u => t.position.offset < u.position.offset := by
    refine List.pairwise_append.2 ⟨hsplits.ordered.imp And.left, List.pairwise_singleton _ _, fun t ht u hu => ?_⟩
    obtain rfl := List.mem_singleton.1 hu
    obtain ⟨-, hlt, hle⟩ := hsplits.bounds t ht
    have hend : byteLength before ≤ byteLength (before ++ gap) := by
      rw [byteLength_append]
      exact Nat.le_add_right _ _
    exact Nat.lt_of_lt_of_le hlt (Nat.le_trans hle hend)
  have hkind : ∀ t ∈ us, t.kind ≠ .endOfInput := by
    intro t ht
    obtain ⟨_, _, -, hstands⟩ := hsplits.exists_standsAt t ht
    exact hstands.kind_ne_endOfInput
  refine ⟨fun k hk j hjk => List.pairwise_iff_getElem.1 hordered j k _ _ hjk, fun j hj => ?_, by simp⟩
  have hsize : j < us.length + 1 := by simpa using hj
  rcases Nat.lt_or_eq_of_le (Nat.le_of_lt_succ hsize) with hlt | rfl
  · have hget : (us ++ [Token.endOfInput (.after (before ++ gap))]).toArray[j] = us[j] := by
      simp [List.getElem_append_left hlt]
    rw [hget]
    exact iff_of_false (hkind _ (List.getElem_mem hlt)) (by simp; omega)
  · simp [Token.endOfInput]

/-- Two rows that agree up to the token `i`, which is not the last of the first row. -/
structure Fork where
  ts : Array Token
  us : Array Token
  i : Nat
  row : IsRow ts
  lt : i + 1 < ts.size
  lt' : i < us.size
  agree : ∀ j ≤ i, ts[j]? = us[j]?

def offsetAt (ts : Array Token) (j : Nat) : Nat := (tokenAt ts j).position.offset

theorem tokenAt_of_lt {ts : Array Token} {j : Nat} (h : j < ts.size) : tokenAt ts j = ts[j] := by
  rw [tokenAt, Array.getElem?_eq_getElem h]
  rfl

theorem tokenAt_of_le {ts : Array Token} {j : Nat} (h : ts.size ≤ j) :
    tokenAt ts j = tokenAt ts (ts.size - 1) := by
  rw [tokenAt, tokenAt, Array.getElem?_eq_none h, Option.none_or, Array.back?]
  cases ts[ts.size - 1]? <;> rfl

namespace IsRow
variable {ts : Array Token} {j k : Nat}

theorem offsetAt_le (h : IsRow ts) (hjk : j ≤ k) : offsetAt ts j ≤ offsetAt ts k := by
  have hcases : ∀ k < ts.size, j ≤ k → offsetAt ts j ≤ offsetAt ts k := by
    intro k hk hjk
    rcases Nat.lt_or_eq_of_le hjk with hlt | rfl
    · rw [offsetAt, offsetAt, tokenAt_of_lt hk, tokenAt_of_lt (Nat.lt_trans hlt hk)]
      exact Nat.le_of_lt (h.ordered k hk j hlt)
    · exact Nat.le_refl _
  have hpos := h.nonempty
  rcases Nat.lt_or_ge k ts.size with hk | hk
  · exact hcases k hk hjk
  · rw [offsetAt, offsetAt, tokenAt_of_le hk]
    rcases Nat.lt_or_ge j ts.size with hj | hj
    · exact hcases (ts.size - 1) (by omega) (by omega)
    · exact Nat.le_of_eq (by rw [tokenAt_of_le hj])

theorem offsetAt_lt (h : IsRow ts) (hj : j + 1 < ts.size) (hjk : j < k) : offsetAt ts j < offsetAt ts k := by
  have hstep : offsetAt ts j < offsetAt ts (j + 1) := by
    rw [offsetAt, offsetAt, tokenAt_of_lt hj, tokenAt_of_lt (Nat.lt_of_succ_lt hj)]
    exact h.ordered (j + 1) hj j (Nat.lt_succ_self j)
  exact Nat.lt_of_lt_of_le hstep (h.offsetAt_le hjk)

/-- Only the end of input is behind all tokens. -/
theorem lt_size_of_kind (h : IsRow ts) (hj : (tokenAt ts j).kind ≠ .endOfInput) : j < ts.size := by
  refine Nat.lt_of_not_le fun hle => hj ?_
  have hpos := h.nonempty
  have hlast : ts.size - 1 < ts.size := by omega
  rw [tokenAt_of_le hle, tokenAt_of_lt hlast]
  exact (h.ending _ hlast).2 (by omega)

end IsRow

namespace Fork
variable (c : Fork)

theorem tokenAt_eq {j : Nat} (h : j ≤ c.i) : tokenAt c.us j = tokenAt c.ts j := by
  have hts : j < c.ts.size := Nat.lt_of_le_of_lt h (Nat.lt_of_succ_lt c.lt)
  have hagree := c.agree j h
  rw [tokenAt, tokenAt, ← hagree, Array.getElem?_eq_getElem hts]
  rfl

/-- Up to `i` the offsets tell where a token is. -/
theorem le_of_offsetAt {j : Nat} (h : offsetAt c.ts j ≤ offsetAt c.ts c.i) : j ≤ c.i :=
  Nat.le_of_not_lt fun hlt => Nat.not_le_of_lt (c.row.offsetAt_lt c.lt hlt) h

end Fork

/-! ### How far failures reach -/

/-- Where the failure stands, counted so that none is before any. -/
def reached : Option ParseError → Nat
  | none => 0
  | some e => e.position.offset + 1

section
variable (old : Option ParseError) (t : Token) (expected : String)

theorem lt_reached_furthestFailure : t.position.offset < reached (some (furthestFailure old t expected)) := by
  unfold furthestFailure
  cases old with
  | none => exact Nat.lt_succ_self _
  | some e =>
    dsimp only
    split
    · exact Nat.lt_succ_of_lt ‹_›
    · split
      · split <;> simp [reached, *]
      · exact Nat.lt_succ_self _

theorem reached_le_furthestFailure : reached old ≤ reached (some (furthestFailure old t expected)) := by
  unfold furthestFailure
  cases old with
  | none => exact Nat.zero_le _
  | some e =>
    dsimp only
    split
    · exact Nat.le_refl _
    · split
      · split <;> exact Nat.le_refl _
      · exact Nat.succ_le_succ (Nat.le_of_not_lt ‹_›)

end

/-! ### Runs on both rows -/

/-- The outcome `x` on the first row goes on from `r` and leaves a trace where it fails, and the outcome
`y` on the second row is the same, if the first does not get past `i`. -/
structure Surely (c : Fork) (r : Reader) (x y : Option α × Reader) : Prop where
  forward : ∀ a, x.1 = some a → r.cursor ≤ x.2.cursor ∧ x.2.cursor ≤ c.ts.size
  kept : reached r.furthest ≤ reached x.2.furthest
  recorded : x.1 = none → offsetAt c.ts r.cursor < reached x.2.furthest
  same : r.cursor ≤ c.i → reached x.2.furthest ≤ offsetAt c.ts c.i + 1 →
    (∀ a, x.1 = some a → x.2.cursor ≤ c.i) → y = x

/-- From the token `lo` on, `p` on the first row and `q` on the second do the same up to `i`. -/
class Sure (c : Fork) (lo : Nat) (p q : Parser α) : Prop where
  surely : ∀ r, lo ≤ r.cursor → r.cursor ≤ c.ts.size → Surely c r (p c.ts r) (q c.us r)

section
variable {c : Fork} {lo hi : Nat} {r s : Reader} {p q : Parser α} {k l : α → Parser β}

theorem Sure.mono (h : Sure c lo p q) (hle : lo ≤ hi) : Sure c hi p q :=
  ⟨fun r hr => h.surely r (Nat.le_trans hle hr)⟩

/-- Behind `i` nothing is said about the second row. -/
theorem Sure.of_lt (h : Sure c lo p q) (hlo : c.i < lo) (q' : Parser α) : Sure c lo p q' := by
  refine ⟨fun r hr hsize => ?_⟩
  have hr' := h.surely r hr hsize
  exact ⟨hr'.forward, hr'.kept, hr'.recorded, fun hi => absurd (Nat.lt_of_lt_of_le hlo hr) (Nat.not_lt.2 hi)⟩

/-- A run that fails behind `s` and up to `i` started there. -/
theorem Surely.cursor_le {x y : Option β × Reader} (h : Surely c s x y)
    (hreached : reached x.2.furthest ≤ offsetAt c.ts c.i + 1)
    (hcursor : ∀ b, x.1 = some b → x.2.cursor ≤ c.i) : s.cursor ≤ c.i := by
  cases hx : x.1 with
  | none => exact c.le_of_offsetAt (Nat.le_of_lt_succ (Nat.lt_of_lt_of_le (h.recorded hx) hreached))
  | some b => exact Nat.le_trans (h.forward b hx).1 (hcursor b hx)

theorem bind_of_none {ts : Array Token} (h : p ts r = (none, s)) : (p >>= k) ts r = (none, s) := by
  simp only [Bind.bind, h]

/-- What `k` does after `p`, which leaves `hi` tokens behind. -/
theorem Sure.bind_of (hp : Sure c lo p q)
    (hhi : ∀ r a s, lo ≤ r.cursor → r.cursor ≤ c.ts.size → p c.ts r = (some a, s) → hi ≤ s.cursor)
    (hk : ∀ a, Sure c hi (k a) (l a)) : Sure c lo (p >>= k) (q >>= l) := by
  refine ⟨fun r hlo hsize => ?_⟩
  have hr := hp.surely r hlo hsize
  rcases hx : p c.ts r with ⟨_ | a, s⟩
  · rw [hx] at hr
    rw [bind_of_none hx]
    refine ⟨nofun, hr.kept, fun _ => hr.recorded rfl, fun hi hreached _ => ?_⟩
    exact bind_of_none (hr.same hi hreached nofun)
  · rw [hx] at hr
    rw [run_bind_of_some hx]
    obtain ⟨hforward, hs⟩ := hr.forward a rfl
    have hrest := (hk a).surely s (hhi r a s hlo hsize hx) hs
    refine ⟨fun b hb => ?_, Nat.le_trans hr.kept hrest.kept, fun hnone => ?_, fun hi hreached hcursor => ?_⟩
    · obtain ⟨hstep, hend⟩ := hrest.forward b hb
      exact ⟨Nat.le_trans hforward hstep, hend⟩
    · exact Nat.lt_of_le_of_lt (c.row.offsetAt_le hforward) (hrest.recorded hnone)
    · have hs' := hrest.cursor_le hreached hcursor
      rw [run_bind_of_some (hr.same hi (Nat.le_trans hrest.kept hreached) fun _ _ => hs')]
      exact hrest.same hs' hreached hcursor

theorem Sure.bind (hp : Sure c lo p q) (hk : ∀ a, Sure c lo (k a) (l a)) : Sure c lo (p >>= k) (q >>= l) := by
  refine hp.bind_of (fun r a s hlo hsize hx => Nat.le_trans hlo ?_) hk
  have hforward := (hp.surely r hlo hsize).forward
  rw [hx] at hforward
  exact (hforward a rfl).1

instance sureBind [hp : Sure c lo p q] [hk : ∀ a, Sure c lo (k a) (l a)] : Sure c lo (p >>= k) (q >>= l) :=
  hp.bind hk

instance surePure (a : α) : Sure c lo (pure a) (pure a) :=
  ⟨fun _ _ hsize => ⟨fun _ _ => ⟨Nat.le_refl _, hsize⟩, Nat.le_refl _, nofun, fun _ _ _ => rfl⟩⟩

instance surePeek : Sure c lo peek peek := by
  refine ⟨fun r _ hsize => ⟨fun _ _ => ⟨Nat.le_refl _, hsize⟩, Nat.le_refl _, nofun, fun hi _ _ => ?_⟩⟩
  have hpeek : ∀ ts, peek ts r = (some (tokenAt ts r.cursor), r) := fun _ => rfl
  rw [hpeek, hpeek, c.tokenAt_eq hi]

instance sureFail (expected : String) : Sure c lo (fail expected : Parser α) (fail expected) := by
  refine ⟨fun r _ _ => ?_⟩
  have hfail : ∀ ts, (fail expected : Parser α) ts r =
      (none, { r with furthest := some (furthestFailure r.furthest (tokenAt ts r.cursor) expected) }) :=
    fun _ => rfl
  rw [hfail, hfail]
  refine ⟨nofun, reached_le_furthestFailure _ _ _, fun _ => lt_reached_furthestFailure _ _ _, fun hi _ _ => ?_⟩
  rw [c.tokenAt_eq hi]

instance sureAdvance : Sure c lo advance advance := by
  refine ⟨fun r _ hsize => ?_⟩
  have hadvance : ∀ ts : Array Token, advance ts r =
      (some (), if r.cursor < ts.size then { r with cursor := r.cursor + 1 } else r) := fun _ => rfl
  rw [hadvance, hadvance]
  refine ⟨fun _ _ => ?_, ?_, nofun, fun hi _ _ => ?_⟩
  · dsimp only
    split
    · exact ⟨Nat.le_succ _, ‹_›⟩
    · exact ⟨Nat.le_refl _, hsize⟩
  · dsimp only
    split <;> exact Nat.le_refl _
  · have hts : r.cursor < c.ts.size := Nat.lt_of_le_of_lt hi (Nat.lt_of_succ_lt c.lt)
    have hus : r.cursor < c.us.size := Nat.lt_of_le_of_lt hi c.lt'
    rw [if_pos hts, if_pos hus]

instance sureLastStop : Sure c lo lastStop lastStop := by
  refine ⟨fun r _ hsize => ⟨fun _ _ => ⟨Nat.le_refl _, hsize⟩, Nat.le_refl _, nofun, fun hi _ _ => ?_⟩⟩
  have hlast : ∀ ts, lastStop ts r =
      (some (if r.cursor = 0 then 0 else (ts[r.cursor - 1]?.map Token.stop).getD 0), r) := fun _ => rfl
  rw [hlast, hlast, c.agree _ (Nat.le_trans (Nat.sub_le _ _) hi)]

instance sureIte (b : Prop) [Decidable b] {p p' q q' : Parser α} [Sure c lo p q] [Sure c lo p' q'] :
    Sure c lo (if b then p else p') (if b then q else q') := by
  split <;> infer_instance

end

/-! ### Attempts and repetition -/

section
variable {p : Parser α} {ts : Array Token} {r s : Reader} {a : α}

theorem attempt_of_none (h : p ts r = (none, s)) : attempt p ts r = (none, { s with cursor := r.cursor }) := by
  simp only [attempt, h]

theorem attempt_of_some (h : p ts r = (some a, s)) : attempt p ts r = (some a, s) := by
  simp only [attempt, h]

theorem many_of_none (h : p ts r = (none, s)) : many p ts r = (some [], { s with cursor := r.cursor }) := by
  rw [many, manyFrom, attempt_of_none h]

theorem many_of_lt (h : p ts r = (some a, s)) (hlt : r.cursor < s.cursor) (hsize : s.cursor ≤ ts.size) :
    many p ts r = ((many p ts s).1.map (a :: ·), (many p ts s).2) := by
  rw [many, manyFrom, attempt_of_some h]
  simp only [hlt, hsize, and_self, if_true, many, Option.map_some]

theorem many_of_not_lt (h : p ts r = (some a, s)) (hlt : ¬ r.cursor < s.cursor) :
    many p ts r = (some [a], s) := by
  rw [many, manyFrom, attempt_of_some h]
  simp only [hlt, false_and, if_false]

end

section
variable {c : Fork} {lo : Nat} {p p' q q' : Parser α}

instance sureAttempt [hp : Sure c lo p q] : Sure c lo (attempt p) (attempt q) := by
  refine ⟨fun r hlo hsize => ?_⟩
  have hr := hp.surely r hlo hsize
  rcases hx : p c.ts r with ⟨_ | a, s⟩
  · rw [hx] at hr
    rw [attempt_of_none hx]
    refine ⟨nofun, hr.kept, fun _ => hr.recorded rfl, fun hi hreached _ => ?_⟩
    exact attempt_of_none (hr.same hi hreached nofun)
  · rw [hx] at hr
    rw [attempt_of_some hx]
    exact ⟨hr.forward, hr.kept, nofun, fun hi hreached hcursor => attempt_of_some (hr.same hi hreached hcursor)⟩

instance sureOrElse [hp : Sure c lo p q] [hq : Sure c lo p' q'] : Sure c lo (orElse p p') (orElse q q') := by
  refine ⟨fun r hlo hsize => ?_⟩
  have hr := hp.surely r hlo hsize
  rcases hx : p c.ts r with ⟨_ | a, s⟩
  · rw [hx] at hr
    have hrest := hq.surely { s with cursor := r.cursor } hlo hsize
    rw [orElse, attempt_of_none hx]
    refine ⟨hrest.forward, Nat.le_trans hr.kept hrest.kept, hrest.recorded, fun hi hreached hcursor => ?_⟩
    rw [orElse, attempt_of_none (hr.same hi (Nat.le_trans hrest.kept hreached) nofun)]
    exact hrest.same hi hreached hcursor
  · rw [hx] at hr
    rw [orElse, attempt_of_some hx]
    refine ⟨hr.forward, hr.kept, nofun, fun hi hreached hcursor => ?_⟩
    rw [orElse, attempt_of_some (hr.same hi hreached hcursor)]

instance sureOptional [hp : Sure c lo p q] : Sure c lo (optional p) (optional q) := by
  refine ⟨fun r hlo hsize => ?_⟩
  have hr := hp.surely r hlo hsize
  rcases hx : p c.ts r with ⟨_ | a, s⟩
  · rw [hx] at hr
    rw [optional, attempt_of_none hx]
    refine ⟨fun _ _ => ⟨Nat.le_refl _, hsize⟩, hr.kept, nofun, fun hi hreached _ => ?_⟩
    rw [optional, attempt_of_none (hr.same hi hreached nofun)]
  · rw [hx] at hr
    rw [optional, attempt_of_some hx]
    refine ⟨fun _ _ => hr.forward a rfl, hr.kept, nofun, fun hi hreached hcursor => ?_⟩
    rw [optional, attempt_of_some (hr.same hi hreached fun _ _ => hcursor _ rfl)]

instance sureMany [hp : Sure c lo p q] : Sure c lo (many p) (many q) := by
  refine ⟨fun r hlo hsize => ?_⟩
  -- by induction on the number of tokens that are left
  induction hn : c.ts.size - r.cursor using Nat.strongRecOn generalizing r with
  | ind n ih =>
    have hr := hp.surely r hlo hsize
    rcases hx : p c.ts r with ⟨_ | a, s⟩
    · rw [hx] at hr
      rw [many_of_none hx]
      refine ⟨fun _ _ => ⟨Nat.le_refl _, hsize⟩, hr.kept, nofun, fun hi hreached _ => ?_⟩
      exact many_of_none (hr.same hi hreached nofun)
    · rw [hx] at hr
      obtain ⟨hforward, hs⟩ : r.cursor ≤ s.cursor ∧ s.cursor ≤ c.ts.size := hr.forward a rfl
      by_cases hlt : r.cursor < s.cursor
      · have hrest := ih _ (by omega) s (Nat.le_trans hlo hforward) hs rfl
        rw [many_of_lt hx hlt hs]
        refine ⟨fun as has => ?_, Nat.le_trans hr.kept hrest.kept, fun hnone => ?_, fun hi hreached hcursor => ?_⟩
        · have hmap : (many p c.ts s).1.map (a :: ·) = some as := has
          obtain ⟨bs, hbs, -⟩ := Option.map_eq_some_iff.1 hmap
          obtain ⟨hstep, hend⟩ := hrest.forward bs hbs
          exact ⟨Nat.le_trans hforward hstep, hend⟩
        · exact Nat.lt_of_le_of_lt (c.row.offsetAt_le hforward) (hrest.recorded (Option.map_eq_none_iff.1 hnone))
        · have hcursor' : ∀ bs, (many p c.ts s).1 = some bs → (many p c.ts s).2.cursor ≤ c.i :=
            fun bs hbs => hcursor (a :: bs) (by rw [hbs]; rfl)
          have hs' := hrest.cursor_le hreached hcursor'
          have hq := hr.same hi (Nat.le_trans hrest.kept hreached) fun _ _ => hs'
          rw [many_of_lt hq hlt (Nat.le_of_lt (Nat.lt_of_le_of_lt hs' c.lt')), hrest.same hs' hreached hcursor']
      · rw [many_of_not_lt hx hlt]
        refine ⟨fun _ _ => ⟨hforward, hs⟩, hr.kept, nofun, fun hi hreached hcursor => ?_⟩
        exact many_of_not_lt (hr.same hi hreached fun _ _ => hcursor _ rfl) hlt

end

/-! ### Single tokens -/

section
variable {c : Fork} {lo : Nat}

instance (k : TokenKind) : Sure c lo (kind k) (kind k) := by delta kind; infer_instance

instance (k : TokenKind) (literal : String) : Sure c lo (exactly k literal) (exactly k literal) := by
  delta exactly; infer_instance

instance : Sure c lo word word := by delta word; infer_instance

instance (literal : String) : Sure c lo (keyword literal) (keyword literal) := by delta keyword; infer_instance

instance (literal : String) : Sure c lo (symbol literal) (symbol literal) := by delta symbol; infer_instance

instance (literal : String) : Sure c lo (operator literal) (operator literal) := by delta operator; infer_instance

instance : Sure c lo comma comma := by delta comma; infer_instance

instance : Sure c lo semicolon semicolon := by delta semicolon; infer_instance

instance : Sure c lo endOfInput endOfInput := by delta endOfInput; infer_instance

end

section
variable {c : Fork} {lo : Nat} {p q : Parser α} [Sure c lo p q]

instance : Sure c lo (spanned p) (spanned q) := by delta spanned; infer_instance

instance : Sure c lo (separated p) (separated q) := by delta separated; infer_instance

instance : Sure c lo (separatedOrNone p) (separatedOrNone q) := by delta separatedOrNone; infer_instance

end

/-! ### Brackets

A bracket takes a token, so what stands behind it starts further on. -/

section
variable {ts : Array Token} {r s : Reader}

theorem advance_of_lt (h : r.cursor < ts.size) : advance ts r = (some (), { r with cursor := r.cursor + 1 }) := by
  rw [advance, if_pos h]

theorem lt_of_advance {a b : α} (hlt : r.cursor < ts.size) (h : (advance >>= fun _ => pure a) ts r = (some b, s)) :
    r.cursor < s.cursor := by
  rw [run_bind_of_some (advance_of_lt hlt)] at h
  cases h
  exact Nat.lt_succ_self _

theorem IsRow.lt_size_of_is (h : IsRow ts) {j : Nat} {k : TokenKind} {literal : String}
    (his : (tokenAt ts j).is k literal = true) (hk : k ≠ .endOfInput) : j < ts.size := by
  simp only [Token.is, Bool.and_eq_true, beq_iff_eq] at his
  exact h.lt_size_of_kind (by rw [his.1]; exact hk)

end

section
variable {c : Fork} {lo : Nat} {k : TokenKind} {literal : String} {r s : Reader} {u : Unit}

theorem lt_of_exactly (hk : k ≠ .endOfInput) (h : exactly k literal c.ts r = (some u, s)) :
    r.cursor < s.cursor := by
  have hrun : exactly k literal c.ts r = (if (tokenAt c.ts r.cursor).is k literal then advance
      else fail ("`" ++ literal ++ "`") : Parser Unit) c.ts r := rfl
  rw [hrun] at h
  by_cases his : (tokenAt c.ts r.cursor).is k literal = true
  · rw [if_pos his, advance_of_lt (c.row.lt_size_of_is his hk)] at h
    cases h
    exact Nat.lt_succ_self _
  · rw [if_neg his] at h
    cases h

theorem Sure.behind {p q : Parser α} (hk : k ≠ .endOfInput) (h : Sure c (lo + 1) p q) :
    Sure c lo (exactly k literal >>= fun _ => p) (exactly k literal >>= fun _ => q) :=
  Sure.bind_of inferInstance (fun _ _ _ hlo _ hx => Nat.lt_of_le_of_lt hlo (lt_of_exactly hk hx)) fun _ => h

theorem Sure.between {p q : Parser α} (left right : String) (h : Sure c (lo + 1) p q) :
    Sure c lo (between left right p) (between left right q) := by
  have hrest : Sure c (lo + 1) (p >>= fun a => symbol right >>= fun _ => pure a)
      (q >>= fun a => symbol right >>= fun _ => pure a) := inferInstance
  have hbracket : Sure c lo (symbol left >>= fun _ => p >>= fun a => symbol right >>= fun _ => pure a)
      (symbol left >>= fun _ => q >>= fun a => symbol right >>= fun _ => pure a) := hrest.behind nofun
  exact sureAttempt

instance {p q : Parser α} [h : Sure c lo p q] (left right : String) :
    Sure c lo (between left right p) (between left right q) := (h.mono (Nat.le_succ lo)).between left right

end

/-- What nests behind at least one more token does not feel the limit on its nesting, which is the number
of tokens: on the first row, and on the second row as far as `i`. -/
theorem sure_of_step {c : Fork} {f : Nat → Parser α} {lo n m : Nat}
    (hstep : ∀ lo n m, Sure c (lo + 1) (f n) (f m) → Sure c lo (f (n + 1)) (f (m + 1)))
    (hn : c.ts.size < lo + n) (hm : c.i < lo + m) : Sure c lo (f n) (f m) := by
  induction n generalizing lo m with
  | zero => exact ⟨fun r hlo hsize => absurd (Nat.le_trans hlo hsize) (Nat.not_le_of_lt hn)⟩
  | succ n ih =>
    cases m with
    | zero =>
      have hnested : Sure c (lo + 1) (f n) (f c.i) := ih (by omega) (by omega)
      exact (hstep lo n c.i hnested).of_lt hm (f 0)
    | succ m => exact hstep lo n m (ih (by omega) (by omega))

/-! ### Expressions -/

section
variable {c : Fork} {lo : Nat}

instance (level : List (String × BinaryOp)) : Sure c lo (binaryOp level) (binaryOp level) := by
  delta binaryOp
  refine surePeek.bind fun t => ?_
  cases level.lookup t.literal <;> infer_instance

instance : Sure c lo integer integer := by
  delta integer
  refine surePeek.bind fun t => ?_
  cases readInt64? t.literal <;> infer_instance

instance : Sure c lo unaryOp unaryOp := by delta unaryOp; infer_instance

theorem lt_of_unaryOp {r s : Reader} {op : UnaryOp} (h : unaryOp c.ts r = (some op, s)) : r.cursor < s.cursor := by
  have hrun : unaryOp c.ts r = (
      if (tokenAt c.ts r.cursor).is .operator "!" ∨ (tokenAt c.ts r.cursor).is .word "not" then
        advance >>= fun _ => pure .not
      else if (tokenAt c.ts r.cursor).is .operator "-" then advance >>= fun _ => pure .neg
      else fail "expression" : Parser UnaryOp) c.ts r := rfl
  rw [hrun] at h
  by_cases hnot : (tokenAt c.ts r.cursor).is .operator "!" = true ∨ (tokenAt c.ts r.cursor).is .word "not" = true
  · rw [if_pos hnot] at h
    rcases hnot with hnot | hnot
    · exact lt_of_advance (c.row.lt_size_of_is hnot nofun) h
    · exact lt_of_advance (c.row.lt_size_of_is hnot nofun) h
  rw [if_neg hnot] at h
  by_cases hneg : (tokenAt c.ts r.cursor).is .operator "-" = true
  · rw [if_pos hneg] at h
    exact lt_of_advance (c.row.lt_size_of_is hneg nofun) h
  · rw [if_neg hneg] at h
    cases h

variable {p q : Parser Expr}

instance [Sure c lo p q] (level : List (String × BinaryOp)) : Sure c lo (leftAssoc level p) (leftAssoc level q) := by
  delta leftAssoc; infer_instance

instance [Sure c lo p q] : Sure c lo (exprOver p) (exprOver q) := by delta exprOver; infer_instance

/-- What stands behind a bracket starts further on. -/
theorem Sure.callOver (h : Sure c (lo + 1) p q) : Sure c lo (callOver p) (callOver q) := by
  have : Sure c lo (Parser.between "(" ")" (separatedOrNone p)) (Parser.between "(" ")" (separatedOrNone q)) :=
    Sure.between "(" ")" inferInstance
  delta Parser.callOver
  infer_instance

theorem Sure.variableOver (h : Sure c (lo + 1) p q) : Sure c lo (variableOver p) (variableOver q) := by
  have : Sure c lo (indices p) (indices q) := by
    have : Sure c lo (Parser.between "[" "]" p) (Parser.between "[" "]" q) := h.between "[" "]"
    delta indices
    infer_instance
  delta Parser.variableOver
  refine @sureAttempt _ _ _ _ _ (Sure.bind inferInstance fun name => @sureIte _ _ _ _ _ _ _ _ _ inferInstance
    (Sure.bind inferInstance fun key => ?_))
  cases key with
  | some key => infer_instance
  | none =>
    refine Sure.bind inferInstance fun is => ?_
    cases is <;> infer_instance

theorem Sure.core (h : Sure c (lo + 1) p q) : Sure c lo (core p) (core q) := by
  have := h.callOver
  have := h.variableOver
  have : Sure c lo (Parser.between "(" ")" p) (Parser.between "(" ")" q) := h.between "(" ")"
  delta Parser.core
  infer_instance

theorem Sure.operand {n m : Nat} (h : Sure c (lo + 1) (operand n) (operand m)) :
    Sure c lo (operand (n + 1)) (operand (m + 1)) := by
  have : Sure c lo (Parser.core (exprOver (Parser.operand n))) (Parser.core (exprOver (Parser.operand m))) :=
    Sure.core inferInstance
  have : Sure c lo (unaryOp >>= fun op => Parser.operand n >>= fun e => pure (Expr.unary op e))
      (unaryOp >>= fun op => Parser.operand m >>= fun e => pure (Expr.unary op e)) :=
    Sure.bind_of inferInstance (fun _ _ _ hlo _ hx => Nat.lt_of_le_of_lt hlo (lt_of_unaryOp hx))
      fun op => inferInstance
  exact sureOrElse

theorem sure_operand {n m : Nat} (hn : c.ts.size < lo + n) (hm : c.i < lo + m) :
    Sure c lo (operand n) (operand m) := sure_of_step (fun _ _ _ h => h.operand) hn hm

instance sureExpr : Sure c lo expr expr := by
  have hlt := c.lt'
  have h : Sure c lo (operand (c.ts.size + 1)) (operand (c.us.size + 1)) :=
    sure_operand (by omega) (by omega)
  have hexpr : Sure c lo (exprOver (operand (c.ts.size + 1))) (exprOver (operand (c.us.size + 1))) := inferInstance
  exact ⟨hexpr.surely⟩

instance sureCall : Sure c lo call call := (sureExpr.mono (Nat.le_succ lo)).callOver

end

/-! ### Movements -/

section
variable {c : Fork} {lo : Nat}

instance : Sure c lo condition condition := by delta condition; infer_instance

instance : Sure c lo letter letter := by
  delta letter
  exact @sureAttempt _ _ _ _ _ (Sure.bind inferInstance fun _ => Sure.bind inferInstance fun _ => inferInstance)

variable {p q : Parser Movement}

theorem Sure.term (h : Sure c (lo + 1) p q) : Sure c lo (term p) (term q) := by
  have : Sure c lo (Parser.between "(" ")" p) (Parser.between "(" ")" q) := h.between "(" ")"
  delta Parser.term
  infer_instance

theorem Sure.repeated (h : Sure c (lo + 1) p q) : Sure c lo (repeated p) (repeated q) := by
  have := h.term
  delta Parser.repeated
  refine @sureAttempt _ _ _ _ _ (Sure.bind inferInstance fun inner => Sure.bind inferInstance fun t => ?_)
  cases repetition? t <;> infer_instance

theorem Sure.concatenation (h : Sure c (lo + 1) p q) : Sure c lo (concatenation p) (concatenation q) := by
  have := h.repeated
  delta Parser.concatenation
  infer_instance

theorem Sure.movementWithin {n m : Nat} (h : Sure c (lo + 1) (movementWithin n) (movementWithin m)) :
    Sure c lo (movementWithin (n + 1)) (movementWithin (m + 1)) := by
  have := h.concatenation
  have : Sure c lo (operator "|" >>= fun _ => Parser.movementWithin n)
      (operator "|" >>= fun _ => Parser.movementWithin m) := h.behind nofun
  refine @sureAttempt _ _ _ _ _ (Sure.bind inferInstance fun left => Sure.bind inferInstance fun right => ?_)
  cases right <;> infer_instance

theorem sure_movementWithin {n m : Nat} (hn : c.ts.size < lo + n) (hm : c.i < lo + m) :
    Sure c lo (movementWithin n) (movementWithin m) := sure_of_step (fun _ _ _ h => h.movementWithin) hn hm

instance sureMovement : Sure c lo movement movement := by
  have hlt := c.lt'
  have h : Sure c lo (movementWithin (c.ts.size + 1)) (movementWithin (c.us.size + 1)) :=
    sure_movementWithin (by omega) (by omega)
  exact ⟨h.surely⟩

end

/-! ### Programs -/

section
variable {c : Fork} {lo : Nat}

instance : Sure c lo params params := by delta params; infer_instance

instance : Sure c lo players players := by delta players; infer_instance

instance : Sure c lo piece piece := by delta piece; infer_instance

instance : Sure c lo pieces pieces := by delta pieces; infer_instance

instance : Sure c lo rule rule := by delta rule; infer_instance

instance : Sure c lo moveMacro moveMacro := by delta moveMacro; infer_instance

instance : Sure c lo returnBlock returnBlock := by delta returnBlock; infer_instance

instance : Sure c lo predicate predicate := by delta predicate; infer_instance

instance : Sure c lo (indices expr) (indices expr) := by delta indices; infer_instance

instance : Sure c lo assignment assignment := by delta assignment; infer_instance

instance : Sure c lo effect effect := by delta effect; infer_instance

instance : Sure c lo variableDecl variableDecl := by delta variableDecl; infer_instance

instance : Sure c lo victory victory := by delta victory; infer_instance

instance : Sure c lo declaration declaration := by delta declaration; infer_instance

instance : Sure c lo cell cell := by delta cell; infer_instance

instance : Sure c lo board board := by
  delta board
  exact @sureAttempt _ _ _ _ _ (Sure.bind inferInstance fun _ => Sure.bind inferInstance fun _ =>
    Sure.bind inferInstance fun _ => Sure.bind inferInstance fun _ => inferInstance)

instance : Sure c lo program program := by delta program; infer_instance

end

/-! ### Whole parses -/

theorem run_eq_error_iff {p : Parser α} {ts : Array Token} {e : ParseError} : p.run ts = .error e ↔
    (p ts ⟨0, none⟩).1.isNone ∧ (p ts ⟨0, none⟩).2.furthest.getD ⟨.start, [], ""⟩ = e := by
  rcases hx : p ts ⟨0, none⟩ with ⟨_ | a, s⟩
  · rw [run, attempt_of_none hx]
    simp
  · rw [run, attempt_of_some hx]
    simp

/-- A parse that fails at the token `i` fails so on both rows. -/
theorem Sure.run_eq {c : Fork} {p q : Parser α} (h : Sure c 0 p q) {e : ParseError}
    (he : p.run c.ts = .error e) (hi : e.position.offset = offsetAt c.ts c.i) : q.run c.us = .error e := by
  have hr := h.surely ⟨0, none⟩ (Nat.le_refl _) (Nat.zero_le _)
  obtain ⟨hfails, hfurthest⟩ := run_eq_error_iff.1 he
  have hnone : (p c.ts ⟨0, none⟩).1 = none := Option.isNone_iff_eq_none.1 hfails
  have hrecorded := hr.recorded hnone
  have hreached : reached (p c.ts ⟨0, none⟩).2.furthest = offsetAt c.ts c.i + 1 := by
    cases hs : (p c.ts ⟨0, none⟩).2.furthest with
    | none =>
      rw [hs] at hrecorded
      exact absurd hrecorded (Nat.not_lt_zero _)
    | some f =>
      rw [hs, Option.getD_some] at hfurthest
      rw [hfurthest, reached, hi]
  have hsame : q c.us ⟨0, none⟩ = p c.ts ⟨0, none⟩ :=
    hr.same (Nat.zero_le _) (Nat.le_of_eq hreached) fun a ha => by rw [hnone] at ha; cases ha
  rw [run_eq_error_iff, hsame]
  exact ⟨hfails, hfurthest⟩

/-- Rows that agree up to their end of input are the same. -/
theorem IsRow.eq_of_agree {ts us : Array Token} (hts : IsRow ts) (hus : IsRow us) {i : Nat}
    (hi : i + 1 = ts.size) (hagree : ∀ j ≤ i, ts[j]? = us[j]?) : ts = us := by
  have hlast : i < ts.size := by omega
  have hget := hagree i (Nat.le_refl i)
  rw [Array.getElem?_eq_getElem hlast] at hget
  obtain ⟨hlast', heq⟩ := Array.getElem?_eq_some_iff.1 hget.symm
  have hsize : i + 1 = us.size := (hus.ending i hlast').1 (heq ▸ (hts.ending i hlast).2 hi)
  refine Array.ext_getElem? fun j => ?_
  rcases Nat.lt_or_ge i j with hj | hj
  · rw [Array.getElem?_eq_none (by omega), Array.getElem?_eq_none (by omega)]
  · exact hagree j hj

/-- An error that stands at the token `i` is that of every row with the same tokens up to `i`. -/
theorem run_error_of_sure {p : Parser α} (hp : ∀ c : Fork, Sure c 0 p p) {ts us : Array Token} {i : Nat}
    (hts : IsRow ts) (hus : IsRow us) (hi : i < ts.size) (hagree : ∀ j ≤ i, ts[j]? = us[j]?) {e : ParseError}
    (he : e.position = ts[i].position) (hrun : p.run ts = .error e) : p.run us = .error e := by
  rcases Nat.lt_or_eq_of_le (Nat.succ_le_of_lt hi) with hlt | hlast
  · have hus' : i < us.size := by
      have hget := hagree i (Nat.le_refl i)
      rw [Array.getElem?_eq_getElem hi] at hget
      exact (Array.getElem?_eq_some_iff.1 hget.symm).1
    refine (hp ⟨ts, us, i, hts, hlt, hus', hagree⟩).run_eq hrun ?_
    rw [offsetAt, tokenAt_of_lt hi, he]
  · rwa [← hts.eq_of_agree hus hlast hagree]

/-- A syntax error cannot be repaired behind the token at which it stands: whatever tokens follow that
one, there is the same error. -/
theorem run_error_of_agree {ts us : Array Token} {i : Nat} (hts : IsRow ts) (hus : IsRow us) (hi : i < ts.size)
    (hagree : ∀ j ≤ i, ts[j]? = us[j]?) {e : ParseError} (he : e.position = ts[i].position) :
    (program.run ts = .error e → program.run us = .error e) ∧
    ((do let a ← expr; endOfInput; return a).run ts = .error e →
      (do let a ← expr; endOfInput; return a).run us = .error e) ∧
    ((do let m ← movement; endOfInput; return m).run ts = .error e →
      (do let m ← movement; endOfInput; return m).run us = .error e) :=
  ⟨run_error_of_sure (fun _ => inferInstance) hts hus hi hagree he,
    run_error_of_sure (fun _ => inferInstance) hts hus hi hagree he,
    run_error_of_sure (fun _ => inferInstance) hts hus hi hagree he⟩

/-- Two brackets with nothing between them, and what follows them. -/
def brackets (rest : List Token) : Array Token :=
  (⟨.symbol, "(", ⟨0, 1, 1⟩⟩ :: ⟨.symbol, ")", ⟨1, 1, 2⟩⟩ :: rest).toArray

theorem run_error_brackets :
    program.run (brackets [⟨.word, "x", ⟨2, 1, 3⟩⟩, ⟨.endOfInput, "", ⟨3, 1, 4⟩⟩]) =
      .error ⟨⟨0, 1, 1⟩, ["`players`"], "`(`"⟩ ∧
    (do let a ← expr; endOfInput; return a).run
        (brackets [⟨.word, "x", ⟨2, 1, 3⟩⟩, ⟨.endOfInput, "", ⟨3, 1, 4⟩⟩]) =
      .error ⟨⟨1, 1, 2⟩, ["expression", "word", "integer", "`(`"], "`)`"⟩ ∧
    (do let m ← movement; endOfInput; return m).run
        (brackets [⟨.word, "x", ⟨2, 1, 3⟩⟩, ⟨.endOfInput, "", ⟨3, 1, 4⟩⟩]) =
      .error ⟨⟨1, 1, 2⟩, ["word", "`(`", "expression", "integer"], "`)`"⟩ := by
  have hts : IsRow (brackets [⟨.endOfInput, "", ⟨2, 1, 3⟩⟩]) := ⟨by decide, by decide, by decide⟩
  have hus : IsRow (brackets [⟨.word, "x", ⟨2, 1, 3⟩⟩, ⟨.endOfInput, "", ⟨3, 1, 4⟩⟩]) :=
    ⟨by decide, by decide, by decide⟩
  have hagree : ∀ j ≤ 1, (brackets [⟨.endOfInput, "", ⟨2, 1, 3⟩⟩])[j]? =
      (brackets [⟨.word, "x", ⟨2, 1, 3⟩⟩, ⟨.endOfInput, "", ⟨3, 1, 4⟩⟩])[j]? := by decide
  refine ⟨?_, ?_, ?_⟩
  · exact (run_error_of_agree (i := 0) hts hus (by decide) (by decide) rfl).1
      (run_eq_error_iff.2 (by decide +kernel))
  · exact (run_error_of_agree (i := 1) hts hus (by decide) hagree rfl).2.1
      (run_eq_error_iff.2 (by decide +kernel))
  · exact (run_error_of_agree (i := 1) hts hus (by decide) hagree rfl).2.2
      (run_eq_error_iff.2 (by decide +kernel))

end BoardGame.Parser
