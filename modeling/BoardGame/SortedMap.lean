/-! # Maps as lists in the order of their keys

`insert` replaces the entry of an equal key and keeps the keys increasing, so two maps built by
insertion hold the same entries exactly if they are equal lists. -/

namespace BoardGame.SortedMap
variable {κ α : Type} [LT κ] [DecidableLT κ] [DecidableEq κ]

def insert (k : κ) (a : α) : List (κ × α) → List (κ × α)
  | [] => [(k, a)]
  | (k', a') :: rest =>
    if k < k' then (k, a) :: (k', a') :: rest
    else if k = k' then (k, a) :: rest
    else (k', a') :: insert k a rest

omit [LT κ] [DecidableLT κ] in
def find? (k : κ) : List (κ × α) → Option α
  | [] => none
  | (k', a) :: rest => if k = k' then some a else find? k rest

theorem find?_insert_self (k : κ) (a : α) (m : List (κ × α)) :
    find? k (insert k a m) = some a := by
  fun_induction insert k a m <;> simp_all [find?]

theorem find?_insert_ne {k k' : κ} (h : k' ≠ k) (a : α) (m : List (κ × α)) :
    find? k' (insert k a m) = find? k' m := by
  fun_induction insert k a m <;> simp_all [find?]

end BoardGame.SortedMap
