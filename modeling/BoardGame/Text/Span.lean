/-! # Values with the place they were written at -/

namespace BoardGame

/-- A value read from the bytes `start` to `stop` (exclusive) of a text. -/
structure Spanned (α : Type) where
  value : α
  start : Nat
  stop : Nat
deriving DecidableEq, Inhabited

namespace Spanned
variable {α β : Type}

def map (f : α → β) (s : Spanned α) : Spanned β := ⟨f s.value, s.start, s.stop⟩

end Spanned
end BoardGame
