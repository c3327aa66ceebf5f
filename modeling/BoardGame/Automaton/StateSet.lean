/-! # Sets of numbers packed into words

Number `i` is bit `i % 64` of word `i / 64`. Sets of numbers below one size have equally many words,
so those with the same members are equal. -/

namespace BoardGame

/-- A set of numbers below `size`, sixty-four of them to a word. -/
structure StateSet (size : Nat) where
  words : Vector (BitVec 64) ((size + 63) / 64)
deriving DecidableEq

namespace StateSet
variable {size : Nat} {s t : StateSet size} {i j : Nat}

def empty : StateSet size := ⟨.replicate _ 0⟩

/-- The bit that a number has in its word. -/
def bit (i : Nat) : BitVec 64 := 1 <<< (i % 64)

/-- A word, zero past the last one. -/
def word (s : StateSet size) (k : Nat) : BitVec 64 := s.words[k]?.getD 0

def contains (s : StateSet size) (i : Nat) : Bool := s.word (i / 64) &&& bit i != 0

/-- Adds a number, unless it is past the last word. -/
def insert (s : StateSet size) (i : Nat) : StateSet size :=
  ⟨s.words.setIfInBounds (i / 64) (s.word (i / 64) ||| bit i)⟩

theorem bit_eq_twoPow (i : Nat) : bit i = BitVec.twoPow 64 (i % 64) := (BitVec.twoPow_eq ..).symm

theorem contains_eq_getLsbD (s : StateSet size) (i : Nat) :
    s.contains i = (s.word (i / 64)).getLsbD (i % 64) := by
  have hi : i % 64 < 64 := Nat.mod_lt _ (by decide)
  have hne : BitVec.twoPow 64 (i % 64) ≠ 0#64 := by
    intro h
    have := congrArg (BitVec.getLsbD · (i % 64)) h
    simp [hi] at this
  rw [contains, bit_eq_twoPow, BitVec.and_twoPow]
  cases (s.word (i / 64)).getLsbD (i % 64) <;> simp [hne]

theorem word_insert (s : StateSet size) (i k : Nat) : (s.insert i).word k =
    if i / 64 = k ∧ k < (size + 63) / 64 then s.word k ||| bit i else s.word k := by
  rw [word, insert, Vector.getElem?_setIfInBounds]
  split
  · rename_i h
    subst h
    split
    · simp [*]
    · rw [if_neg (by omega), word, Vector.getElem?_eq_none (by omega)]
  · rw [if_neg (by simp [*])]
    rfl

@[simp] theorem contains_empty (i : Nat) : (empty : StateSet size).contains i = false := by
  rw [contains_eq_getLsbD, word, empty, Vector.getElem?_replicate]
  split <;> simp

theorem contains_insert_self (s : StateSet size) (hi : i < size) :
    (s.insert i).contains i = true := by
  have hword : i / 64 < (size + 63) / 64 := by omega
  rw [contains_eq_getLsbD, word_insert, if_pos ⟨rfl, hword⟩, BitVec.getLsbD_or, bit_eq_twoPow]
  simp [Nat.mod_lt]

theorem contains_insert_of_ne (s : StateSet size) (h : i ≠ j) :
    (s.insert i).contains j = s.contains j := by
  rw [contains_eq_getLsbD, contains_eq_getLsbD, word_insert]
  split
  · rename_i hk
    have hne : i % 64 ≠ j % 64 := by omega
    rw [BitVec.getLsbD_or, bit_eq_twoPow, BitVec.getLsbD_twoPow]
    simp [hne]
  · rfl

theorem contains_insert (s : StateSet size) (hi : i < size) (j : Nat) :
    (s.insert i).contains j = (decide (i = j) || s.contains j) := by
  by_cases h : i = j
  · subst h
    simp [s.contains_insert_self hi]
  · simp [h, s.contains_insert_of_ne h]

theorem ext (h : ∀ i, s.contains i = t.contains i) : s = t := by
  obtain ⟨v⟩ := s
  obtain ⟨w⟩ := t
  congr
  ext k hk b hb
  have hbit := h (64 * k + b)
  have hk' : (64 * k + b) / 64 = k := by omega
  have hb' : (64 * k + b) % 64 = b := by omega
  rw [contains_eq_getLsbD, contains_eq_getLsbD, hk', hb'] at hbit
  simpa [word, hk, hb] using hbit

end StateSet
end BoardGame
