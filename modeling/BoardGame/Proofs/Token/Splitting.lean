import BoardGame.Proofs.Token.Layout
import BoardGame.Proofs.Token.Scanning

/-!
# How a text splits into tokens

A token is the longest text of its kind where it stands (`longest_of_lexeme?`), and where `lexeme?` gives
none, none starts. What one step of a scan does is `scanStep`; by induction, the text is a row of tokens
with layout between them (`Splits`), up to the end or to the place of the error. What follows about bytes,
lines and columns is said of such a row (`Splits.tokenizes`), and `scan_tokenizes` puts it together.
-/

namespace BoardGame
variable {source before text before' text' gap rest : List Char} {c : Char} {s : String} {ts : List Token}

/-! ### The texts of a kind -/

/-- The texts that a token of the kind can have. The end of input is not written. -/
def TokenKind.HasText : TokenKind → String → Prop
  | .integer, s => IsNumeral s
  | .word, s => IsWord s
  | .symbol, s => s ∈ ["(", ")", "[", "]", "\x7b", "\x7d"]
  | .operator, s => s ∈ operators
  | .comma, s => s = ","
  | .semicolon, s => s = ";"
  | .endOfInput, _ => False

/-- Of the texts of this kind, none at the head of `text` is longer. -/
def Longest (k : TokenKind) (s : String) (text : List Char) : Prop :=
  k.HasText s ∧ ∀ s', k.HasText s' → s'.toList <+: text → s'.toList.length ≤ s.toList.length

theorem TokenKind.HasText.ne_nil {k : TokenKind} (h : k.HasText s) : s.toList ≠ [] := by
  cases k with
  | integer => exact h.1
  | word =>
    obtain ⟨c, cs, hs, -⟩ := h
    rw [hs]
    exact List.cons_ne_nil c cs
  | endOfInput => exact h.elim
  | comma | semicolon =>
    rw [show s = _ from h]
    exact List.cons_ne_nil _ _
  | symbol =>
    simp only [HasText, List.mem_cons, List.not_mem_nil, or_false] at h
    rcases h with rfl | rfl | rfl | rfl | rfl | rfl <;> exact List.cons_ne_nil _ _
  | operator =>
    exact (by decide : ∀ s ∈ operators, s.toList ≠ []) s h

/-! ### The token at the head -/

theorem length_le_takeWhile {f : Char → Bool} {ds : List Char} (h : ds <+: text) (hds : ∀ d ∈ ds, f d = true) :
    ds.length ≤ (text.takeWhile f).length := by
  obtain ⟨post, rfl⟩ := h
  rw [List.takeWhile_append_of_pos hds, List.length_append]
  exact Nat.le_add_right _ _

/-- No operator has a longer one that begins with it behind it. -/
theorem operators_ordered : operators.Pairwise fun op op' => ¬ op.toList <+: op'.toList := by decide

theorem length_le_of_find? {op : String}
    (h : operators.find? (fun op => op.toList.isPrefixOf text) = some op) (hs : s ∈ operators)
    (hpre : s.toList <+: text) : s.toList.length ≤ op.toList.length := by
  obtain ⟨hop, earlier, later, hsplit, hearlier⟩ := List.find?_eq_some_iff_append.1 h
  have hordered := operators_ordered
  rw [hsplit] at hs hordered
  rcases List.mem_append.1 hs with hs | hs
  · have hnot : s.toList.isPrefixOf text = false := by simpa using hearlier s hs
    exact absurd (List.isPrefixOf_iff_prefix.2 hpre) (Bool.eq_false_iff.1 hnot)
  rcases List.mem_cons.1 hs with rfl | hs
  · exact Nat.le_refl _
  · -- the longer of two texts at one place begins with the shorter
    have hnot := (List.pairwise_cons.1 (List.pairwise_append.1 hordered).2.1).1 s hs
    rcases List.prefix_or_prefix_of_prefix hpre (List.isPrefixOf_iff_prefix.1 hop) with h | h
    · exact h.length_le
    · exact absurd h hnot

theorem longest_integer (hdigit : c.isDigit) :
    Longest .integer (String.ofList (c :: text.takeWhile Char.isDigit)) (c :: text) := by
  refine ⟨⟨by simp, ?_⟩, fun s' hs' hpre => ?_⟩
  · rw [String.toList_ofList]
    exact List.forall_mem_cons.2 ⟨hdigit, List.all_eq_true.1 List.all_takeWhile⟩
  · rw [String.toList_ofList]
    have hle := length_le_takeWhile hpre hs'.2
    rwa [List.takeWhile_cons_of_pos hdigit] at hle

theorem longest_word (hstart : isWordStart c) :
    Longest .word (String.ofList (c :: text.takeWhile isWordChar)) (c :: text) := by
  refine ⟨⟨c, _, String.toList_ofList, hstart, List.all_eq_true.1 List.all_takeWhile⟩,
    fun s' ⟨d, ds, hs', hd, hds⟩ hpre => ?_⟩
  rw [String.toList_ofList]
  have hle := length_le_takeWhile (f := isWordChar) hpre (by
    rw [hs']
    exact List.forall_mem_cons.2 ⟨isWordChar_iff.2 (.inl hd), hds⟩)
  rwa [List.takeWhile_cons_of_pos (isWordChar_iff.2 (.inl hstart))] at hle

theorem longest_of_length_one {k : TokenKind} (hs : k.HasText s)
    (hk : ∀ s', k.HasText s' → s'.toList.length = 1) : Longest k s text :=
  ⟨hs, fun s' hs' _ => Nat.le_of_eq ((hk s' hs').trans (hk s hs).symm)⟩

theorem longest_symbol (hbracket : isBracket c) : Longest .symbol (String.ofList [c]) text := by
  refine longest_of_length_one ?_ ?_
  · simp only [isBracket, Bool.or_eq_true, beq_iff_eq] at hbracket
    show String.ofList [c] ∈ ["(", ")", "[", "]", "\x7b", "\x7d"]
    rcases hbracket with ((((rfl | rfl) | rfl) | rfl) | rfl) | rfl <;> decide
  · exact (by decide : ∀ s ∈ ["(", ")", "[", "]", "\x7b", "\x7d"], s.toList.length = 1)

theorem longest_operator {op : String}
    (h : operators.find? (fun op => op.toList.isPrefixOf text) = some op) : Longest .operator op text :=
  ⟨List.mem_of_find?_eq_some h, fun _ => length_le_of_find? h⟩

theorem take_length_takeWhile_eq (f : Char → Bool) (cs : List Char) :
    cs.take (cs.takeWhile f).length = cs.takeWhile f :=
  (List.prefix_iff_eq_take.1 (List.takeWhile_prefix f)).symm

/-- What stands at the head of a text, and which class of character or operator it is found by. -/
inductive Heads (c : Char) (text : List Char) : Option (TokenKind × Nat) → Prop
  | integer (h : c.isDigit) : Heads c text (some (.integer, (text.takeWhile Char.isDigit).length))
  | word (h : isWordStart c) : Heads c text (some (.word, (text.takeWhile isWordChar).length))
  | symbol (h : isBracket c) : Heads c text (some (.symbol, 0))
  | comma (h : c = ',') : Heads c text (some (.comma, 0))
  | semicolon (h : c = ';') : Heads c text (some (.semicolon, 0))
  | operator {op : String} (h : operators.find? (fun op => op.toList.isPrefixOf (c :: text)) = some op) :
    Heads c text (some (.operator, op.length - 1))
  | none (digit : ¬ c.isDigit) (start : ¬ isWordStart c) (bracket : ¬ isBracket c) (comma : c ≠ ',')
    (semicolon : c ≠ ';') (operator : ∀ op ∈ operators, ¬ op.toList <+: c :: text) : Heads c text none

theorem heads_lexeme? (c : Char) (text : List Char) : Heads c text (lexeme? c text) := by
  unfold lexeme?
  by_cases hdigit : c.isDigit
  · rw [if_pos hdigit]
    exact .integer hdigit
  rw [if_neg hdigit]
  by_cases hstart : isWordStart c
  · rw [if_pos hstart]
    exact .word hstart
  rw [if_neg hstart]
  by_cases hbracket : isBracket c
  · rw [if_pos hbracket]
    exact .symbol hbracket
  rw [if_neg hbracket]
  by_cases hcomma : c = ','
  · rw [if_pos hcomma]
    exact .comma hcomma
  rw [if_neg hcomma]
  by_cases hsemicolon : c = ';'
  · rw [if_pos hsemicolon]
    exact .semicolon hsemicolon
  rw [if_neg hsemicolon]
  cases hfind : operators.find? fun op => op.toList.isPrefixOf (c :: text) with
  | some op => exact .operator hfind
  | none =>
    refine .none hdigit hstart hbracket hcomma hsemicolon fun op hop hpre => ?_
    exact List.find?_eq_none.1 hfind op hop (List.isPrefixOf_iff_prefix.2 hpre)

/-- The operator that is found is what stands at the head. -/
theorem ofList_take_of_find? {op : String}
    (h : operators.find? (fun op => op.toList.isPrefixOf (c :: text)) = some op) :
    String.ofList (c :: text.take (op.length - 1)) = op := by
  have hop := List.find?_some h
  obtain ⟨d, ds, hcons⟩ := List.exists_cons_of_ne_nil
    (TokenKind.HasText.ne_nil (k := .operator) (List.mem_of_find?_eq_some h))
  have htake := List.prefix_iff_eq_take.1 (List.isPrefixOf_iff_prefix.1 hop)
  have hlength : op.length - 1 = ds.length := by
    rw [← String.length_toList, hcons, List.length_cons, Nat.add_sub_cancel]
  rw [hcons, List.length_cons, List.take_succ_cons] at htake
  rw [hlength, ← htake, ← hcons, String.ofList_toList]

theorem longest_of_lexeme? {k : TokenKind} {n : Nat} (h : lexeme? c text = some (k, n)) :
    Longest k (String.ofList (c :: text.take n)) (c :: text) := by
  have hheads := heads_lexeme? c text
  rw [h] at hheads
  cases hheads with
  | integer hdigit =>
    rw [take_length_takeWhile_eq]
    exact longest_integer hdigit
  | word hstart =>
    rw [take_length_takeWhile_eq]
    exact longest_word hstart
  | symbol hbracket => exact longest_symbol hbracket
  | comma hcomma =>
    subst hcomma
    exact longest_of_length_one rfl fun s' hs' => congrArg (·.toList.length) hs'
  | semicolon hsemicolon =>
    subst hsemicolon
    exact longest_of_length_one rfl fun s' hs' => congrArg (·.toList.length) hs'
  | operator hfind =>
    rw [ofList_take_of_find? hfind]
    exact longest_operator hfind

/-- No token starts there. -/
theorem not_prefix_of_lexeme?_eq_none (h : lexeme? c text = none) {k : TokenKind} (hs : k.HasText s) :
    ¬ s.toList <+: c :: text := by
  intro hpre
  obtain ⟨d, ds, hcons⟩ := List.exists_cons_of_ne_nil hs.ne_nil
  obtain rfl : d = c := (List.cons_prefix_cons.1 (hcons ▸ hpre)).1
  have hhead : s.toList.head? = some d := by rw [hcons, List.head?_cons]
  have hheads := heads_lexeme? d text
  rw [h] at hheads
  cases hheads with
  | none hdigit hstart hbracket hcomma hsemicolon hoperator =>
    cases k with
    | integer => exact hdigit (hs.2 d (hcons ▸ List.mem_cons_self))
    | word =>
      obtain ⟨e, es, hword, hestart, -⟩ := hs
      exact hstart ((List.cons.inj (hcons.symm.trans hword)).1 ▸ hestart)
    | symbol =>
      have hall : ∀ s ∈ ["(", ")", "[", "]", "\x7b", "\x7d"], s.toList.head?.all isBracket = true := by decide
      have hd := hall s hs
      rw [hhead, Option.all_some] at hd
      exact hbracket hd
    | operator => exact hoperator s hs hpre
    | comma =>
      rw [show s = "," from hs] at hhead
      exact hcomma (Option.some_inj.1 hhead).symm
    | semicolon =>
      rw [show s = ";" from hs] at hhead
      exact hsemicolon (Option.some_inj.1 hhead).symm
    | endOfInput => exact hs

/-! ### One token at its place -/

/-- The token stands between `before` and `rest`: its place is counted from `before`, and it is the
longest of its kind there. -/
structure Token.StandsAt (t : Token) (before rest : List Char) : Prop where
  place : t.position = .after before
  longest : Longest t.kind t.literal (t.literal.toList ++ rest)
  fits : t.kind = .integer → FitsInt64 (decimalValue t.literal.toList)

theorem Token.StandsAt.offset_eq {t : Token} (h : t.StandsAt before rest) :
    t.position.offset = byteLength before := by rw [h.place, Position.after]

theorem Token.StandsAt.stop_eq {t : Token} (h : t.StandsAt before rest) :
    t.stop = byteLength (before ++ t.literal.toList) := by
  rw [Token.stop, h.offset_eq, byteLength_append]

theorem byteLength_pos {cs : List Char} (h : cs ≠ []) : 0 < byteLength cs := by
  obtain ⟨c, cs, rfl⟩ := List.exists_cons_of_ne_nil h
  rw [byteLength_cons]
  exact Nat.add_pos_left c.utf8Size_pos _

theorem Token.StandsAt.offset_lt_stop {t : Token} (h : t.StandsAt before rest) : t.position.offset < t.stop :=
  Nat.lt_add_of_pos_right (byteLength_pos h.longest.1.ne_nil)

theorem Token.StandsAt.kind_ne_endOfInput {t : Token} (h : t.StandsAt before rest) : t.kind ≠ .endOfInput := by
  intro hend
  have htext := h.longest.1
  rw [hend] at htext
  exact htext

/-! ### One step of a scan -/

/-- Nothing that a token begins with and no layout, or digits that are no integer in range: what an error
says of the text `rest` behind `before`. -/
def ScanError.Describes : ScanError → List Char → List Char → Prop
  | .unexpectedChar c p, before, rest => p = .after before ∧ rest.head? = some c ∧ Visible rest ∧
      ∀ k s, TokenKind.HasText k s → ¬ s.toList <+: rest
  | .integerOverflow s p, before, rest => p = .after before ∧ s.toList <+: rest ∧
      Longest .integer s rest ∧ ¬ FitsInt64 (decimalValue s.toList)

/-- What a scan of the text behind `before` gives: behind the layout at its head it is at its end, at an
error, or at a token and goes on behind that. -/
inductive ScanStep (before : List Char) : List Char → Except ScanError (List Token) → Prop
  | ending {gap : List Char} (layout : IsLayout [] gap) :
    ScanStep before (gap ++ []) (.ok [Token.endOfInput (.after (before ++ gap))])
  | error {gap rest : List Char} {e : ScanError} (layout : IsLayout rest gap)
    (describes : e.Describes (before ++ gap) rest) : ScanStep before (gap ++ rest) (.error e)
  | token {gap rest : List Char} {t : Token} (layout : IsLayout (t.literal.toList ++ rest) gap)
    (stands : t.StandsAt (before ++ gap) rest) : ScanStep before (gap ++ (t.literal.toList ++ rest))
      ((scanFrom (.after (before ++ gap ++ t.literal.toList)) rest).map (t :: ·))

theorem scanStep (before text : List Char) : ScanStep before text (scanFrom (.after before) text) := by
  obtain ⟨⟨q, visible⟩, hskip⟩ : ∃ x, skipLayout false (.after before) text = x := ⟨_, rfl⟩
  obtain ⟨gap, rfl, hgap⟩ := skips_skipLayout hskip
  obtain rfl : q = .after (before ++ gap) := hgap.place.trans (Position.advance_after before gap)
  cases visible with
  | nil =>
    rw [scanFrom_of_nil hskip]
    exact .ending hgap.layout
  | cons c tail =>
    rw [scanFrom_of_cons hskip]
    cases hlexeme : lexeme? c tail with
    | none =>
      exact .error hgap.layout ⟨rfl, rfl, hgap.visible, fun k s hs => not_prefix_of_lexeme?_eq_none hlexeme hs⟩
    | some x =>
      obtain ⟨k, n⟩ := x
      obtain ⟨s, hliteral⟩ : ∃ s : String, c :: tail.take n = s.toList :=
        ⟨.ofList _, String.toList_ofList.symm⟩
      have htext : c :: tail = s.toList ++ tail.drop n := by
        rw [← hliteral, List.cons_append, List.take_append_drop]
      have hlongest := longest_of_lexeme? hlexeme
      simp only [hliteral, htext, String.ofList_toList] at hlongest hgap ⊢
      by_cases hoverflow : k = .integer ∧ ¬ FitsInt64 (decimalValue s.toList)
      · rw [if_pos hoverflow]
        obtain ⟨rfl, hbig⟩ := hoverflow
        exact .error hgap.layout ⟨rfl, List.prefix_append _ _, hlongest, hbig⟩
      · rw [if_neg hoverflow, Position.advance_after]
        have hfits : k = .integer → FitsInt64 (decimalValue s.toList) := fun hk =>
          Decidable.not_not.1 fun hbig => hoverflow ⟨hk, hbig⟩
        exact .token (t := ⟨k, s, .after (before ++ gap)⟩) hgap.layout ⟨rfl, hlongest, hfits⟩

/-! ### Rows of tokens -/

/-- The text behind `before` begins with the tokens `ts`, each with layout before it; they end where
`before'` does, and `text'` is left. -/
inductive Splits : List Char → List Char → List Token → List Char → List Char → Prop
  | nil (before text : List Char) : Splits before text [] before text
  | cons {before gap rest before' text' : List Char} {t : Token} {ts : List Token}
    (layout : IsLayout (t.literal.toList ++ rest) gap) (stands : t.StandsAt (before ++ gap) rest)
    (tail : Splits (before ++ gap ++ t.literal.toList) rest ts before' text') :
    Splits before (gap ++ (t.literal.toList ++ rest)) (t :: ts) before' text'

/-- How a scan ends behind `before`, after the tokens `ts`. -/
def Ends (result : Except ScanError (List Token)) (ts : List Token) (before rest : List Char) : Prop :=
  match result with
  | .ok all => rest = [] ∧ all = ts ++ [Token.endOfInput (.after before)]
  | .error e => e.Describes before rest

theorem Ends.cons {result : Except ScanError (List Token)} (h : Ends result ts before rest) (t : Token) :
    Ends (result.map (t :: ·)) (t :: ts) before rest := by
  cases result with
  | error e => exact h
  | ok all => exact ⟨h.1, congrArg (t :: ·) h.2⟩

theorem splits_scanFrom (before text : List Char) : ∃ ts before' gap rest,
    Splits before text ts before' (gap ++ rest) ∧ IsLayout rest gap ∧
      Ends (scanFrom (.after before) text) ts (before' ++ gap) rest := by
  -- by induction on the length of the text: a token takes at least one character of it
  induction hn : text.length using Nat.strongRecOn generalizing before text with
  | ind n ih =>
    have hstep := scanStep before text
    generalize scanFrom (.after before) text = result at hstep
    cases hstep with
    | ending layout => exact ⟨[], before, _, [], .nil _ _, layout, rfl, rfl⟩
    | error layout describes => exact ⟨[], before, _, _, .nil _ _, layout, describes⟩
    | @token gap rest t layout stands =>
      have hlt : rest.length < n := by
        have hpos := List.length_pos_iff.2 stands.longest.1.ne_nil
        simp only [List.length_append] at hn
        omega
      obtain ⟨ts, before', gap', rest', hsplits, hlayout, hends⟩ := ih _ hlt _ rest rfl
      exact ⟨_ :: ts, before', gap', rest', .cons layout stands hsplits, hlayout, hends.cons _⟩

theorem exists_splits_of_scan {source : String} {ts : List Token} (h : scan source = .ok ts) :
    ∃ us before gap text, Splits [] source.toList us before text ∧
      ts = us ++ [.endOfInput (.after (before ++ gap))] := by
  obtain ⟨us, before, gap, rest, hsplits, -, hends⟩ := splits_scanFrom [] source.toList
  have hscan : scan source = scanFrom (.after []) source.toList := rfl
  rw [← hscan, h] at hends
  exact ⟨us, before, gap, _, hsplits, hends.2⟩

/-! ### What holds of a row -/

/-- From byte `i` to byte `j` the text is layout. -/
def LayoutBetween (source : List Char) (i j : Nat) : Prop := ∃ before gap after,
  source = before ++ (gap ++ after) ∧ byteLength before = i ∧ byteLength (before ++ gap) = j ∧
    IsLayout after gap

/-- From byte `start` to byte `stop` the text is layout but for the tokens. -/
def Gaps (source : List Char) : Nat → List Token → Nat → Prop
  | start, [], stop => LayoutBetween source start stop
  | start, t :: ts, stop => LayoutBetween source start t.position.offset ∧ Gaps source t.stop ts stop

namespace Splits

/-- The tokens and the layout are all of the text. -/
theorem text_eq (h : Splits before text ts before' text') : before ++ text = before' ++ text' := by
  induction h with
  | nil => rfl
  | cons _ _ _ ih => rw [← ih]; simp only [List.append_assoc]

theorem exists_standsAt (h : Splits before text ts before' text') : ∀ t ∈ ts, ∃ pre post,
    before ++ text = pre ++ (t.literal.toList ++ post) ∧ t.StandsAt pre post := by
  induction h with
  | nil => exact nofun
  | @cons before gap rest _ _ t ts _ stands _ ih =>
    refine List.forall_mem_cons.2 ⟨⟨before ++ gap, rest, by simp only [List.append_assoc], stands⟩, fun u hu => ?_⟩
    obtain ⟨pre, post, htext, hu⟩ := ih u hu
    exact ⟨pre, post, by rw [← htext]; simp only [List.append_assoc], hu⟩

theorem byteLength_le (h : Splits before text ts before' text') : byteLength before ≤ byteLength before' := by
  induction h with
  | nil => exact Nat.le_refl _
  | cons _ _ _ ih =>
    rw [byteLength_append, byteLength_append, Nat.add_assoc] at ih
    exact Nat.le_of_add_right_le ih

theorem bounds (h : Splits before text ts before' text') : ∀ t ∈ ts,
    byteLength before ≤ t.position.offset ∧ t.position.offset < t.stop ∧ t.stop ≤ byteLength before' := by
  induction h with
  | nil => exact nofun
  | cons _ stands tail ih =>
    have htail := tail.byteLength_le
    rw [← stands.stop_eq] at htail
    refine List.forall_mem_cons.2 ⟨⟨?_, stands.offset_lt_stop, htail⟩, fun u hu => ?_⟩
    · rw [stands.offset_eq, byteLength_append]
      exact Nat.le_add_right _ _
    · obtain ⟨hstart, hlt, hle⟩ := ih u hu
      rw [byteLength_append, byteLength_append, Nat.add_assoc] at hstart
      exact ⟨Nat.le_of_add_right_le hstart, hlt, hle⟩

theorem ordered (h : Splits before text ts before' text') :
    ts.Pairwise fun t u => t.position.offset < u.position.offset ∧ t.stop ≤ u.position.offset := by
  induction h with
  | nil => exact .nil
  | cons _ stands tail ih =>
    refine List.pairwise_cons.2 ⟨fun u hu => ?_, ih⟩
    have hstart := (tail.bounds u hu).1
    rw [← stands.stop_eq] at hstart
    exact ⟨Nat.lt_of_lt_of_le stands.offset_lt_stop hstart, hstart⟩

theorem gaps (h : Splits before text ts before' (gap ++ rest)) (hgap : IsLayout rest gap) :
    Gaps (before ++ text) (byteLength before) ts (byteLength (before' ++ gap)) := by
  generalize htext' : gap ++ rest = text' at h
  induction h with
  | nil before _ =>
    subst htext'
    exact ⟨before, gap, rest, rfl, rfl, rfl, hgap⟩
  | @cons before gap rest _ _ t ts layout stands _ ih =>
    have htail := ih htext'
    rw [← stands.stop_eq, List.append_assoc, List.append_assoc] at htail
    exact ⟨⟨before, gap, _, rfl, rfl, stands.offset_eq.symm, layout⟩, htail⟩

end Splits

/-- Up to the byte `stop` the source consists of the tokens `ts` and of layout. -/
structure Tokenizes (source : String) (ts : List Token) (stop : Nat) : Prop where
  /-- The literal of a token is what the source has from its offset to its end. -/
  bytes : ∀ t ∈ ts, source.toByteArray.extract t.position.offset t.stop = t.literal.toByteArray
  bounds : ∀ t ∈ ts, t.position.offset < t.stop ∧ t.stop ≤ stop
  ordered : ts.Pairwise fun t u => t.position.offset < u.position.offset ∧ t.stop ≤ u.position.offset
  layout : Gaps source.toList 0 ts stop
  stands : ∀ t ∈ ts, ∃ before rest, source.toList = before ++ (t.literal.toList ++ rest) ∧
    t.StandsAt before rest

/-- What stands between two texts is a range of the bytes of all three. -/
theorem extract_toByteArray {source s : String} (h : source.toList = before ++ (s.toList ++ rest)) :
    source.toByteArray.extract (byteLength before) (byteLength (before ++ s.toList)) = s.toByteArray := by
  have hsource : source = String.ofList before ++ s ++ String.ofList rest := by
    rw [← String.ofList_toList (s := source), h, String.ofList_append, String.ofList_append,
      String.ofList_toList, String.append_assoc]
  have hbefore : (String.ofList before).toByteArray.size = byteLength before := by
    rw [String.size_toByteArray, ← byteLength_toList, String.toList_ofList]
  have hs : s.toByteArray.size = byteLength s.toList := by
    rw [String.size_toByteArray, byteLength_toList]
  have hrange := ByteArray.extract_append_size_add (i := 0) (j := s.toByteArray.size)
    (a := (String.ofList before).toByteArray) (b := s.toByteArray ++ (String.ofList rest).toByteArray)
  rw [Nat.add_zero, ByteArray.extract_append_eq_left rfl, hbefore, hs] at hrange
  rw [hsource, String.toByteArray_append, String.toByteArray_append, ByteArray.append_assoc, byteLength_append,
    hrange]

theorem Splits.tokenizes {source : String} (h : Splits [] source.toList ts before' (gap ++ rest))
    (hgap : IsLayout rest gap) : Tokenizes source ts (byteLength (before' ++ gap)) where
  bytes t ht := by
    obtain ⟨pre, post, htext, hstands⟩ := h.exists_standsAt t ht
    rw [hstands.offset_eq, hstands.stop_eq]
    exact extract_toByteArray htext
  bounds t ht := by
    obtain ⟨-, hlt, hle⟩ := h.bounds t ht
    rw [byteLength_append]
    exact ⟨hlt, Nat.le_add_right_of_le hle⟩
  ordered := h.ordered
  layout := h.gaps hgap
  stands := h.exists_standsAt

/-- A text is scanned without loss: its tokens are what the text has at their places, each the longest of
its kind, and only layout is left between them. The end of input stands behind the whole text; an error
stands where the tokens and the layout before it leave off. -/
theorem scan_tokenizes (source : String) :
    match scan source with
    | .ok all => ∃ ts, all = ts ++ [⟨.endOfInput, "", .after source.toList⟩] ∧
        (Position.after source.toList).offset = source.utf8ByteSize ∧
        (∀ t ∈ ts, t.kind ≠ .endOfInput) ∧ Tokenizes source ts source.utf8ByteSize
    | .error e => ∃ ts before rest, source.toList = before ++ rest ∧
        Tokenizes source ts (byteLength before) ∧ e.Describes before rest := by
  obtain ⟨ts, before, gap, rest, hsplits, hgap, hends⟩ := splits_scanFrom [] source.toList
  have htext : source.toList = before ++ gap ++ rest := by
    rw [List.append_assoc, ← hsplits.text_eq, List.nil_append]
  have htokens := hsplits.tokenizes hgap
  have hscan : scan source = scanFrom (.after []) source.toList := rfl
  rw [← hscan] at hends
  cases hresult : scan source with
  | error e =>
    rw [hresult] at hends
    exact ⟨ts, before ++ gap, rest, htext, htokens, hends⟩
  | ok all =>
    rw [hresult] at hends
    obtain ⟨rfl, rfl⟩ := hends
    rw [List.append_nil] at htext
    rw [← htext, byteLength_toList] at htokens
    refine ⟨ts, by rw [htext]; rfl, byteLength_toList source, fun t ht => ?_, htokens⟩
    obtain ⟨_, _, -, hstands⟩ := htokens.stands t ht
    exact hstands.kind_ne_endOfInput

end BoardGame
