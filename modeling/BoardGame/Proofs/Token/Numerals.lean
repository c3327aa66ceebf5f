import BoardGame.Int64

/-!
# Numerals

An integer without a sign is written in decimal digits, and the digits are read as that integer.
-/

namespace BoardGame

/-- Decimal digits, at least one. -/
def IsNumeral (s : String) : Prop := s.toList ≠ [] ∧ ∀ c ∈ s.toList, c.isDigit

/-- An integer that is written without a sign. -/
def IsUnsigned (n : Int) : Prop := 0 ≤ n ∧ FitsInt64 n

theorem toList_toString_natCast (n : Nat) : (toString (n : Int)).toList = Nat.toDigits 10 n := by
  have hstring : toString (n : Int) = toString n := rfl
  rw [hstring, Nat.toString_eq_ofList_toDigits, String.toList_ofList]

theorem isNumeral_toString {n : Int} (h : 0 ≤ n) : IsNumeral (toString n) := by
  obtain ⟨m, rfl⟩ := Int.eq_ofNat_of_zero_le h
  rw [IsNumeral, toList_toString_natCast]
  exact ⟨Nat.toDigits_ne_nil, fun c hc => Nat.isDigit_of_mem_toDigits (by decide) (by decide) hc⟩

theorem decimalValue_toString (n : Nat) : decimalValue (toString (n : Int)).toList = n := by
  rw [toList_toString_natCast]
  exact Nat.ofDigitChars_ten_toDigits

/-- A numeral has no sign. -/
theorem readInt64?_of_isNumeral {s : String} (h : IsNumeral s) :
    readInt64? s = (some (decimalValue s.toList : Int)).filter fun n => FitsInt64 n := by
  obtain ⟨hne, hdigits⟩ := h
  have hall : s.toList ≠ [] ∧ s.toList.all Char.isDigit := ⟨hne, List.all_eq_true.2 hdigits⟩
  unfold readInt64?
  cases hs : s.toList with
  | nil => exact absurd hs hne
  | cons c cs =>
    have hc : c.isDigit := hdigits c (by rw [hs]; exact List.mem_cons_self)
    rw [hs] at hall
    split
    case h_1 heq =>
      obtain ⟨rfl, -⟩ := List.cons.inj heq
      exact absurd hc (by decide)
    case h_2 heq =>
      obtain ⟨rfl, -⟩ := List.cons.inj heq
      exact absurd hc (by decide)
    case h_3 => simp [hall.2]

theorem readInt64?_toString {n : Int} (h : IsUnsigned n) : readInt64? (toString n) = some n := by
  obtain ⟨hn, hfits⟩ := h
  rw [readInt64?_of_isNumeral (isNumeral_toString hn)]
  obtain ⟨m, rfl⟩ := Int.eq_ofNat_of_zero_le hn
  rw [decimalValue_toString]
  simp [hfits]

theorem isUnsigned_of_readInt64? {s : String} {n : Int} (h : IsNumeral s) (hn : readInt64? s = some n) :
    IsUnsigned n := by
  rw [readInt64?_of_isNumeral h] at hn
  obtain ⟨heq, hfits⟩ := Option.filter_eq_some_iff.1 hn
  obtain rfl := Option.some_inj.1 heq
  exact ⟨Int.natCast_nonneg _, by simpa using hfits⟩

end BoardGame
