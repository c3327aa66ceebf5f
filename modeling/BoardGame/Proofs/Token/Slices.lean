import BoardGame.Proofs.Token.Splitting

/-!
# Slices of a text

Tokens keep their texts when the text is cut in front of one of them and behind another: the kind of a token
shows in its first character (`classOf`), it is the longest of its kind in the shorter text too, and between
tokens there is the same layout (`Splits.exists_slice`).
-/

namespace BoardGame
variable {before text before' text' gap rest cs : List Char} {c : Char} {s : String} {ts us : List Token}
  {k : TokenKind} {xs : List Lexeme}

/-! ### The first character of a token -/

/-- The kind of the tokens that begin with `c`, if there are any. -/
def classOf (c : Char) : TokenKind :=
  if c.isDigit then .integer
  else if isWordStart c then .word
  else if isBracket c then .symbol
  else if c = ',' then .comma
  else if c = ';' then .semicolon
  else .operator

theorem TokenKind.HasText.head (h : k.HasText s) :
    ∀ c ∈ s.toList.head?, k = classOf c ∧ isBlank c = false ∧ c ≠ '#' := by
  intro c hc
  cases k with
  | integer =>
    have hdigit : c.isDigit := h.2 c (List.mem_of_mem_head? hc)
    have hword : isWordChar c := isWordChar_iff.2 (.inr hdigit)
    exact ⟨by rw [classOf, if_pos hdigit], isBlank_of_isWordChar hword, ne_hash_of_isWordChar hword⟩
  | word =>
    obtain ⟨d, ds, hs, hstart, -⟩ := h
    rw [hs, List.head?_cons, Option.mem_some_iff] at hc
    subst hc
    have hword : isWordChar d := isWordChar_iff.2 (.inl hstart)
    have hclass : classOf d = .word := by
      rw [classOf, if_neg (Bool.eq_false_iff.1 (not_isDigit_of_isWordStart hstart)), if_pos hstart]
    exact ⟨hclass.symm, isBlank_of_isWordChar hword, ne_hash_of_isWordChar hword⟩
  | symbol =>
    have hall : ∀ s ∈ ["(", ")", "[", "]", "\x7b", "\x7d"], (s.toList.head?.all fun c =>
        TokenKind.symbol = classOf c ∧ isBlank c = false ∧ c ≠ '#') = true := by decide
    exact of_decide_eq_true ((Option.all_eq_true _ _).1 (hall s h) c hc)
  | operator =>
    have hall : ∀ s ∈ operators, (s.toList.head?.all fun c =>
        TokenKind.operator = classOf c ∧ isBlank c = false ∧ c ≠ '#') = true := by decide
    exact of_decide_eq_true ((Option.all_eq_true _ _).1 (hall s h) c hc)
  | comma | semicolon =>
    obtain rfl : s = _ := h
    cases hc
    decide
  | endOfInput => exact h.elim

theorem le_length_of_lexeme? {n : Nat} (h : lexeme? c text = some (k, n)) : n ≤ text.length := by
  have hheads := heads_lexeme? c text
  rw [h] at hheads
  cases hheads with
  | integer | word => exact (List.takeWhile_prefix _).length_le
  | symbol | comma | semicolon => exact Nat.zero_le _
  | operator hfind =>
    have hop := List.find?_some hfind
    have hprefix := (List.isPrefixOf_iff_prefix.1 hop).length_le
    rw [String.length_toList, List.length_cons] at hprefix
    omega

/-- The longest text of its kind is what is found there. -/
theorem lexeme?_of_longest (hs : s.toList = c :: cs) (h : Longest k s (s.toList ++ rest)) :
    lexeme? c (cs ++ rest) = some (k, cs.length) := by
  rw [hs, List.cons_append] at h
  have hprefix : s.toList <+: c :: (cs ++ rest) := by
    rw [hs]
    exact List.prefix_append (c :: cs) rest
  cases hlexeme : lexeme? c (cs ++ rest) with
  | none => exact absurd hprefix (not_prefix_of_lexeme?_eq_none hlexeme h.1)
  | some x =>
    obtain ⟨k', n⟩ := x
    have hlongest := longest_of_lexeme? hlexeme
    have hkind : k' = classOf c := (hlongest.1.head c (by rw [String.toList_ofList]; rfl)).1
    obtain rfl : k = k' := (h.1.head c (by rw [hs]; rfl)).1.trans hkind.symm
    -- each of the two texts is no longer than the other
    have hle := hlongest.2 s h.1 hprefix
    have hge := h.2 _ hlongest.1 (by
      rw [String.toList_ofList, ← List.take_succ_cons]
      exact List.take_prefix _ _)
    have hn := le_length_of_lexeme? hlexeme
    rw [hs, String.toList_ofList, List.length_cons, List.length_cons, List.length_take] at hle hge
    have heq : n = cs.length := by omega
    rw [heq]

/-! ### Layout -/

theorem IsLayout.congr {after after' : List Char} (h : IsLayout after gap) (hhead : after'.head? = after.head?) :
    IsLayout after' gap := by
  induction h with
  | nil => exact .nil
  | blank hc _ ih => exact .blank hc ih
  | @comment body cs hbody hend _ ih =>
    refine .comment hbody (fun c hc => hend c ?_) ih
    rwa [List.head?_append, ← hhead, ← List.head?_append]

/-- In an open comment, up to the end of the line. -/
theorem skipLayout_comment {body : List Char} (hbody : '\n' ∉ body) (hend : ∀ c ∈ cs.head?, c = '\n')
    (p : Position) : skipLayout true p (body ++ cs) = skipLayout false (p.advance body) cs := by
  induction body generalizing p with
  | nil =>
    cases cs with
    | nil => rfl
    | cons c cs =>
      obtain rfl := hend c rfl
      rfl
  | cons c body ih =>
    rw [List.mem_cons, not_or] at hbody
    rw [List.cons_append, skipLayout, decide_eq_true (Ne.symm hbody.1), ih hbody.2, Position.advance_cons]

theorem Scans.comment {body : List Char} (h : Scans cs xs) (hbody : '\n' ∉ body)
    (hend : ∀ c ∈ cs.head?, c = '\n') : Scans ('#' :: (body ++ cs)) xs := by
  intro p
  have hskip : skipLayout false p ('#' :: (body ++ cs)) = skipLayout false ((p.next '#').advance body) cs := by
    rw [← skipLayout_comment hbody hend]
    rfl
  rw [scanFrom_congr hskip]
  exact h _

theorem Scans.layout (h : Scans rest xs) (hgap : IsLayout rest gap) : Scans (gap ++ rest) xs := by
  induction hgap with
  | nil => exact h
  | blank hc _ ih => exact ih.blank hc
  | comment hbody hend _ ih =>
    rw [List.cons_append, List.append_assoc]
    exact ih.comment hbody hend

/-! ### Cuts -/

theorem Longest.of_prefix {text text' : List Char} (h : Longest k s text) (hpre : text' <+: text) :
    Longest k s text' := ⟨h.1, fun s' hs' hs => h.2 s' hs' (hs.trans hpre)⟩

namespace Splits

theorem exists_of_append (h : Splits before text (ts ++ us) before' text') :
    ∃ pre mid, Splits before text ts pre mid ∧ Splits pre mid us before' text' := by
  induction ts generalizing before text with
  | nil => exact ⟨before, text, .nil before text, h⟩
  | cons t ts ih =>
    cases h with
    | cons layout stands tail =>
      obtain ⟨pre, mid, hts, hus⟩ := ih tail
      exact ⟨pre, mid, .cons layout stands hts, hus⟩

/-- Cut behind its last token, the text has the same tokens. -/
theorem exists_scans (h : Splits before text ts before' text') : ∃ cs, text = cs ++ text' ∧
    before' = before ++ cs ∧ Scans cs (ts.map Token.lexeme ++ [.ending]) := by
  induction h with
  | nil before text => exact ⟨[], rfl, (List.append_nil before).symm, scans_nil⟩
  | @cons before gap rest before' text' t ts layout stands tail ih =>
    obtain ⟨cs, rfl, hbefore, hscans⟩ := ih
    obtain ⟨c, ds, hcons⟩ := List.exists_cons_of_ne_nil stands.longest.1.ne_nil
    have hpre : t.literal.toList ++ cs <+: t.literal.toList ++ (cs ++ text') :=
      ⟨text', List.append_assoc _ _ _⟩
    obtain ⟨-, hblank, hcomment⟩ := stands.longest.1.head c (by rw [hcons]; rfl)
    have htoken : Scans (t.literal.toList ++ cs) (t.lexeme :: (ts.map Token.lexeme ++ [.ending])) :=
      .token hcons hblank hcomment (lexeme?_of_longest hcons (stands.longest.of_prefix hpre)) stands.fits hscans
    have hgap : IsLayout (t.literal.toList ++ cs) gap := layout.congr (by rw [hcons]; rfl)
    refine ⟨gap ++ (t.literal.toList ++ cs), ?_, ?_, htoken.layout hgap⟩
    · simp only [List.append_assoc]
    · rw [hbefore]
      simp only [List.append_assoc]

theorem stop_eq_of_getLast? (h : Splits before text ts before' text') :
    ∀ t ∈ ts.getLast?, t.stop = byteLength before' := by
  induction h with
  | nil => exact nofun
  | @cons before gap rest before' text' t ts _ stands tail ih =>
    cases ts with
    | nil =>
      cases tail
      intro u hu
      cases hu
      exact stands.stop_eq
    | cons u us => exact ih

/-- From the first byte of a token to the last byte of a token, the tokens are those of the text. -/
theorem exists_slice {t : Token} (h : Splits before text (t :: ts) before' text') : ∃ pre cs,
    before ++ text = pre ++ (cs ++ text') ∧ t.position.offset = byteLength pre ∧
      (∀ u ∈ (t :: ts).getLast?, u.stop = byteLength (pre ++ cs)) ∧
      Scans cs ((t :: ts).map Token.lexeme ++ [.ending]) := by
  have hstop := h.stop_eq_of_getLast?
  cases h with
  | @cons _ gap rest _ _ _ _ _ stands tail =>
    have hrow : Splits (before ++ gap) (t.literal.toList ++ rest) (t :: ts) before' text' := by
      have hnil : Splits (before ++ gap) ([] ++ (t.literal.toList ++ rest)) (t :: ts) before' text' :=
        .cons .nil (by rwa [List.append_nil]) (by rwa [List.append_nil])
      exact hnil
    obtain ⟨cs, htext, rfl, hscans⟩ := hrow.exists_scans
    refine ⟨before ++ gap, cs, ?_, stands.offset_eq, hstop, hscans⟩
    rw [htext, List.append_assoc]

end Splits

variable {source : String} {i j : Nat}

/-- The text from the token `i` on, up to the token `j`, has these tokens and no others. -/
theorem exists_slice_of_scan {t u : Token} (h : scan source = .ok ts) (hij : i < j) (hj : j < ts.length)
    (ht : ts[i]? = some t) (hu : ts[j - 1]? = some u) : ∃ slice us, scan slice = .ok us ∧
      slice.toByteArray = source.toByteArray.extract t.position.offset u.stop ∧
      us.map Token.lexeme = ((ts.drop i).take (j - i)).map Token.lexeme ++ [.ending] := by
  obtain ⟨all, before', gap, text, hsplits, rfl⟩ := exists_splits_of_scan h
  generalize Token.endOfInput (.after (before' ++ gap)) = ending at hj ht hu ⊢
  have hlength : j ≤ all.length := Nat.le_of_lt_succ (by simpa using hj)
  have htake : ((all ++ [ending]).drop i).take (j - i) = (all.drop i).take (j - i) := by
    rw [List.drop_append_of_le_length (by omega), List.take_append_of_le_length]
    rw [List.length_drop]
    omega
  rw [List.getElem?_append_left (by omega)] at ht hu
  have hhead : ((all.drop i).take (j - i)).head? = some t := by
    rw [List.head?_take, if_neg (by omega), List.head?_drop, ht]
  have hlast : u ∈ ((all.drop i).take (j - i)).getLast? := by
    have hindex : i + (j - i - 1) = j - 1 := by omega
    rw [Option.mem_def, List.getLast?_eq_getElem?, List.length_take_of_le (by rw [List.length_drop]; omega),
      List.getElem?_take_of_lt (by omega), List.getElem?_drop, hindex, hu]
  -- the tokens in front of `i`, those from `i` up to `j` and the others
  have hcut : all = all.take i ++ (((all.drop i).take (j - i)) ++ (all.drop i).drop (j - i)) := by
    rw [List.take_append_drop, List.take_append_drop]
  rw [hcut] at hsplits
  obtain ⟨pre₁, text₁, hbefore, hrest⟩ := hsplits.exists_of_append
  obtain ⟨pre₂, text₂, hmid, -⟩ := hrest.exists_of_append
  obtain ⟨mid, hcons⟩ := List.head?_eq_some_iff.1 hhead
  rw [hcons] at hmid hlast
  obtain ⟨pre, cs, htext, hoffset, hstop, hscans⟩ := hmid.exists_slice
  obtain ⟨us, hus, hlexemes⟩ := hscans .start
  have hsource : source.toList = pre ++ ((String.ofList cs).toList ++ text₂) := by
    rw [String.toList_ofList, ← htext, ← hbefore.text_eq, List.nil_append]
  refine ⟨String.ofList cs, us, ?_, ?_, ?_⟩
  · rw [scan, String.toList_ofList, hus]
  · rw [hoffset, hstop _ hlast, ← extract_toByteArray hsource, String.toList_ofList]
  · rw [htake, hcons, hlexemes]

end BoardGame
