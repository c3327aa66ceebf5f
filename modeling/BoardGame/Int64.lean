/-! # The range of integers

Every integer of a game fits in 64 bits with a sign. Arithmetic is exact, and a result outside the
range is refused where it arises. -/

namespace BoardGame

/-- `n` has a signed 64-bit representation. -/
def FitsInt64 (n : Int) : Prop := -0x8000000000000000 ≤ n ∧ n < 0x8000000000000000

instance (n : Int) : Decidable (FitsInt64 n) := inferInstanceAs (Decidable (_ ∧ _))

/-- The value of a run of decimal digits. -/
def decimalValue (ds : List Char) : Nat :=
  ds.foldl (fun n c => 10 * n + (c.toNat - '0'.toNat)) 0

/-- Reads decimal digits after an optional sign, unless the value does not fit. -/
def readInt64? (s : String) : Option Int :=
  let unsigned (ds : List Char) : Option Nat :=
    if ds ≠ [] ∧ ds.all Char.isDigit then some (decimalValue ds) else none
  let value : Option Int := match s.toList with
    | '-' :: ds => (unsigned ds).map fun n => -(n : Int)
    | '+' :: ds => (unsigned ds).map Int.ofNat
    | ds => (unsigned ds).map Int.ofNat
  value.filter fun n => FitsInt64 n

end BoardGame
