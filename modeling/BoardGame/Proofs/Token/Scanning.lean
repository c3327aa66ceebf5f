import BoardGame.Proofs.Grammar.Written

/-!
# Scanning

`Scans cs xs` says that the text `cs` consists of the tokens `xs` wherever it stands, and each kind of token
has a lemma that puts one more in front.
-/

namespace BoardGame
variable {p q : Position} {c : Char} {cs text : List Char} {xs : List Lexeme}

/-! ### One step -/

theorem scanFrom_of_nil (h : skipLayout false p cs = (q, [])) :
    scanFrom p cs = .ok [Token.endOfInput q] := by
  rw [scanFrom]
  split
  case h_1 heq =>
    obtain ⟨rfl, -⟩ := Prod.mk.inj (h.symm.trans heq)
    rfl
  case h_2 heq => exact absurd (Prod.mk.inj (h.symm.trans heq)).2.symm (List.cons_ne_nil _ _)

theorem scanFrom_of_cons (h : skipLayout false p cs = (q, c :: text)) : scanFrom p cs =
    match lexeme? c text with
    | none => .error (.unexpectedChar c q)
    | some (kind, n) =>
      if kind = .integer ∧ ¬ FitsInt64 (decimalValue (c :: text.take n)) then
        .error (.integerOverflow (String.ofList (c :: text.take n)) q)
      else
        (scanFrom (q.advance (c :: text.take n)) (text.drop n)).map
          (⟨kind, String.ofList (c :: text.take n), q⟩ :: ·) := by
  rw [scanFrom]
  split
  case h_1 heq => exact absurd (Prod.mk.inj (h.symm.trans heq)).2 (List.cons_ne_nil _ _)
  case h_2 heq =>
    obtain ⟨rfl, hcons⟩ := Prod.mk.inj (h.symm.trans heq)
    obtain ⟨rfl, rfl⟩ := List.cons.inj hcons
    rfl

theorem scanFrom_congr (h : skipLayout false p text = skipLayout false q cs) :
    scanFrom p text = scanFrom q cs := by
  obtain ⟨⟨r, rest⟩, hrest⟩ : ∃ x, skipLayout false q cs = x := ⟨_, rfl⟩
  cases rest with
  | nil => rw [scanFrom_of_nil (h.trans hrest), scanFrom_of_nil hrest]
  | cons d rest => rw [scanFrom_of_cons (h.trans hrest), scanFrom_of_cons hrest]

theorem skipLayout_of_visible (hblank : isBlank c = false) (hcomment : c ≠ '#') (p : Position)
    (cs : List Char) : skipLayout false p (c :: cs) = (p, c :: cs) := by
  simp [skipLayout, hblank, hcomment]

/-! ### Classes of characters -/

theorem isDigit_iff : c.isDigit = true ↔ 48 ≤ c.toNat ∧ c.toNat ≤ 57 := Char.isDigit_iff_toNat

theorem isUpper_iff : c.isUpper = true ↔ 65 ≤ c.toNat ∧ c.toNat ≤ 90 := by
  have hupper : c.isUpper = decide ('A'.val ≤ c.val ∧ c.val ≤ 'Z'.val) := rfl
  rw [hupper, decide_eq_true_iff, UInt32.le_iff_toNat_le, UInt32.le_iff_toNat_le]
  exact Iff.rfl

theorem isLower_iff : c.isLower = true ↔ 97 ≤ c.toNat ∧ c.toNat ≤ 122 := by
  have hlower : c.isLower = (decide ('a'.val ≤ c.val) && decide (c.val ≤ 'z'.val)) := rfl
  rw [hlower, Bool.and_eq_true, decide_eq_true_iff, decide_eq_true_iff, UInt32.le_iff_toNat_le,
    UInt32.le_iff_toNat_le]
  exact Iff.rfl

theorem isWordStart_iff : isWordStart c = true ↔
    65 ≤ c.toNat ∧ c.toNat ≤ 90 ∨ 97 ≤ c.toNat ∧ c.toNat ≤ 122 ∨ c.toNat = 95 := by
  have hunderscore : c = '_' ↔ c.toNat = 95 := ⟨fun h => h ▸ rfl, fun h => Char.toNat_inj.1 h⟩
  have halpha : c.isAlpha = (c.isUpper || c.isLower) := rfl
  rw [isWordStart, halpha, Bool.or_eq_true, Bool.or_eq_true, isUpper_iff, isLower_iff, beq_iff_eq,
    hunderscore, or_assoc]

theorem isWordChar_iff : isWordChar c = true ↔ isWordStart c = true ∨ c.isDigit = true := by
  have halphanum : c.isAlphanum = (c.isAlpha || c.isDigit) := rfl
  rw [isWordChar, isWordStart, halphanum, Bool.or_eq_true, Bool.or_eq_true, Bool.or_eq_true]
  exact or_right_comm

/-- A printing character of ASCII is not blank. -/
theorem isBlank_of_printing (h : 33 ≤ c.toNat ∧ c.toNat ≤ 126) : isBlank c = false := by
  simp only [isBlank, Bool.or_eq_false_iff, Bool.and_eq_false_iff, decide_eq_false_iff_not, beq_eq_false_iff_ne]
  omega

theorem ne_hash_of_isWordChar (h : isWordChar c = true) : c ≠ '#' := by
  rintro rfl
  exact absurd h (by decide)

theorem isBlank_of_isWordChar (h : isWordChar c = true) : isBlank c = false := by
  rw [isWordChar_iff, isWordStart_iff, isDigit_iff] at h
  exact isBlank_of_printing (by omega)

theorem not_isDigit_of_isWordStart (h : isWordStart c = true) : c.isDigit = false := by
  rw [isWordStart_iff] at h
  refine Bool.eq_false_iff.2 fun hdigit => ?_
  rw [isDigit_iff] at hdigit
  omega

/-! ### Texts and their tokens -/

/-- Wherever the text stands, its tokens are these. -/
def Scans (cs : List Char) (xs : List Lexeme) : Prop :=
  ∀ p, ∃ ts, scanFrom p cs = .ok ts ∧ ts.map Token.lexeme = xs

theorem scans_nil : Scans [] [.ending] := fun _ => ⟨_, scanFrom_of_nil rfl, rfl⟩

theorem Scans.blank (h : Scans cs xs) (hc : isBlank c = true) : Scans (c :: cs) xs := by
  intro p
  have hskip : skipLayout false p (c :: cs) = skipLayout false (p.next c) cs := by
    simp [skipLayout, hc]
  rw [scanFrom_congr hskip]
  exact h (p.next c)

/-- The longest token at the head of the text and what it is followed by. -/
theorem Scans.token {k : TokenKind} {s : String} (hs : s.toList = c :: text) (hblank : isBlank c = false)
    (hcomment : c ≠ '#') (hlexeme : lexeme? c (text ++ cs) = some (k, text.length))
    (hk : k = .integer → FitsInt64 (decimalValue s.toList)) (h : Scans cs xs) :
    Scans (s.toList ++ cs) (⟨k, s⟩ :: xs) := by
  intro p
  obtain ⟨ts, hts, hxs⟩ := h (p.advance s.toList)
  have hskip := skipLayout_of_visible hblank hcomment p (text ++ cs)
  have htext : c :: (text ++ cs).take text.length = s.toList := by rw [List.take_left, hs]
  refine ⟨⟨k, s, p⟩ :: ts, ?_, by rw [List.map_cons, hxs]; rfl⟩
  rw [hs, List.cons_append, scanFrom_of_cons hskip, hlexeme]
  simp only [htext, List.drop_left, String.ofList_toList, hts]
  rw [if_neg fun hoverflow => hoverflow.2 (hk hoverflow.1)]
  rfl

/-- No word goes on here. -/
def EndsWord (cs : List Char) : Prop := ∀ c ∈ cs.head?, isWordChar c = false

theorem takeWhile_append_eq_left {f : Char → Bool} (htext : ∀ d ∈ text, f d = true)
    (hcs : ∀ d ∈ cs.head?, f d = false) : (text ++ cs).takeWhile f = text := by
  rw [List.takeWhile_append_of_pos htext]
  cases cs with
  | nil => rw [List.takeWhile_nil, List.append_nil]
  | cons d cs => rw [List.takeWhile_cons, hcs d rfl, if_neg nofun, List.append_nil]

theorem Scans.word {s : String} (h : Scans cs xs) (hs : IsWord s) (hcs : EndsWord cs) :
    Scans (s.toList ++ cs) (.word s :: xs) := by
  obtain ⟨c, text, hs, hstart, htext⟩ := hs
  have hc : isWordChar c = true := isWordChar_iff.2 (.inl hstart)
  refine .token hs (isBlank_of_isWordChar hc) (ne_hash_of_isWordChar hc) ?_ nofun h
  rw [lexeme?, not_isDigit_of_isWordStart hstart, takeWhile_append_eq_left htext hcs, if_neg nofun,
    if_pos hstart]

theorem Scans.integer {n : Int} (h : Scans cs xs) (hn : IsUnsigned n) (hcs : EndsWord cs) :
    Scans ((toString n).toList ++ cs) (.integer n :: xs) := by
  obtain ⟨hne, hdigits⟩ := isNumeral_toString hn.1
  obtain ⟨c, text, hs⟩ := List.exists_cons_of_ne_nil hne
  rw [hs] at hdigits
  obtain ⟨hc, htext⟩ := List.forall_mem_cons.1 hdigits
  have hword : isWordChar c = true := isWordChar_iff.2 (.inr hc)
  refine .token hs (isBlank_of_isWordChar hword) (ne_hash_of_isWordChar hword) ?_ (fun _ => ?_) h
  · have hend : ∀ d ∈ cs.head?, d.isDigit = false := fun d hd =>
      Bool.eq_false_iff.2 fun hdigit => Bool.eq_false_iff.1 (hcs d hd) (isWordChar_iff.2 (.inr hdigit))
    rw [lexeme?, takeWhile_append_eq_left htext hend, if_pos hc]
  · obtain ⟨m, rfl⟩ := Int.eq_ofNat_of_zero_le hn.1
    rw [decimalValue_toString]
    exact hn.2

theorem Scans.symbol {s : String} (h : Scans cs xs) (hs : s ∈ ["(", ")", "[", "]", "\x7b", "\x7d"]) :
    Scans (s.toList ++ cs) (.symbol s :: xs) := by
  simp only [List.mem_cons, List.not_mem_nil, or_false] at hs
  rcases hs with rfl | rfl | rfl | rfl | rfl | rfl <;>
  exact .token rfl (by decide) (by decide) rfl nofun h

theorem Scans.comma (h : Scans cs xs) : Scans (",".toList ++ cs) (.comma :: xs) :=
  .token rfl (by decide) (by decide) rfl nofun h

theorem Scans.semicolon (h : Scans cs xs) : Scans (";".toList ++ cs) (.semicolon :: xs) :=
  .token rfl (by decide) (by decide) rfl nofun h

theorem Scans.space (h : Scans cs xs) : Scans (" ".toList ++ cs) xs := h.blank (by decide)

theorem Scans.newline (h : Scans cs xs) : Scans ("\n".toList ++ cs) xs := h.blank (by decide)

/-- Before a space any operator ends. -/
theorem Scans.operator_space {s : String} (h : Scans cs xs) (hs : s ∈ operators) :
    Scans (s.toList ++ (" ".toList ++ cs)) (.operator s :: xs) := by
  simp only [operators, List.mem_cons, List.not_mem_nil, or_false] at hs
  rcases hs with rfl | rfl | rfl | rfl | rfl | rfl | rfl | rfl | rfl | rfl | rfl | rfl | rfl | rfl | rfl |
    rfl | rfl | rfl | rfl <;>
  exact .token rfl (by decide) (by decide) rfl nofun h.space

/-- No operator is longer than one of these and begins with it. -/
theorem Scans.operator {s : String} (h : Scans cs xs) (hs : s ∈ ["*", "+", "-", "?", "."]) :
    Scans (s.toList ++ cs) (.operator s :: xs) := by
  simp only [List.mem_cons, List.not_mem_nil, or_false] at hs
  rcases hs with rfl | rfl | rfl | rfl | rfl <;>
  exact .token rfl (by decide) (by decide) rfl nofun h

theorem Scans.not (h : Scans cs xs) (hcs : cs.head? ≠ some '=') :
    Scans ("!".toList ++ cs) (.operator "!" :: xs) := by
  suffices hlexeme : lexeme? '!' ([] ++ cs) = some (.operator, 0) from
    .token rfl (by decide) (by decide) hlexeme nofun h
  cases cs with
  | nil => rfl
  | cons d cs =>
    have hd : ¬ '=' = d := fun heq => hcs (by rw [heq, List.head?_cons])
    have hfind : operators.find? (fun op => op.toList.isPrefixOf ('!' :: d :: cs)) = some "!" := by
      rw [operators, List.find?_cons_of_neg (by simp), List.find?_cons_of_neg (by simpa using hd)]
      rfl
    show (operators.find? fun op => op.toList.isPrefixOf ('!' :: d :: cs)).map _ = _
    rw [hfind]
    rfl

end BoardGame
