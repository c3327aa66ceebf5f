import BoardGame.EvalError
import BoardGame.SortedMap

/-! # Values of variables

A variable holds an integer, or a map from integers to values whose keys increase. -/

namespace BoardGame

inductive Value where
  | int (value : Int)
  | map (entries : List (Int × Value))
deriving Inhabited

namespace Value

/-! ## Equality -/

mutual

/-- Whether two values are the same. -/
def same : Value → Value → Bool
  | int m, int n => m == n
  | map es, map fs => sameEntries es fs
  | _, _ => false

def sameEntries : List (Int × Value) → List (Int × Value) → Bool
  | [], [] => true
  | (k, v) :: es, (l, w) :: fs => k == l && (same v w && sameEntries es fs)
  | _, _ => false

end

mutual

theorem same_refl : ∀ v : Value, same v v = true
  | int _ => by simp [same]
  | map es => by simp [same, sameEntries_refl es]

theorem sameEntries_refl : ∀ es : List (Int × Value), sameEntries es es = true
  | [] => rfl
  | (k, v) :: es => by simp [sameEntries, same_refl v, sameEntries_refl es]

end

mutual

theorem eq_of_same : ∀ v w : Value, same v w = true → v = w
  | int _, w, h => by cases w <;> simp_all [same]
  | map es, w, h => by
    cases w <;> simp_all only [same, reduceCtorEq]
    exact congrArg _ (eq_of_sameEntries es _ h)

theorem eq_of_sameEntries : ∀ es fs : List (Int × Value), sameEntries es fs = true → es = fs
  | [], fs, h => by cases fs <;> simp_all [sameEntries]
  | (k, v) :: es, fs, h => by
    cases fs with
    | nil => simp [sameEntries] at h
    | cons f fs =>
      obtain ⟨l, w⟩ := f
      simp only [sameEntries, Bool.and_eq_true, beq_iff_eq] at h
      rw [h.1, eq_of_same v w h.2.1, eq_of_sameEntries es fs h.2.2]

end

instance : DecidableEq Value := fun v w =>
  decidable_of_iff (same v w = true) ⟨eq_of_same v w, fun h => h ▸ same_refl v⟩

/-! ## Reading and writing -/

/-- The value as an integer. `name` is the variable it belongs to. -/
def asInt (name : String) : Value → Except EvalError Int
  | int n => .ok n
  | map _ => .error (.notAnInteger name)

/-- The value at the end of `path`. -/
def read (name : String) : Value → List Int → Except EvalError Value
  | v, [] => .ok v
  | int _, _ :: _ => .error (.notIndexable name)
  | map es, k :: path =>
    match SortedMap.find? k es with
    | none => .error (.missingKey name k)
    | some v => read name v path

/-- What a fresh entry starts from when the rest of the path is `path`. -/
def fresh : List Int → Value
  | [] => int 0
  | _ :: _ => map []

/-- Writes `n` at the end of `path`, making the maps on the way that are missing. -/
def store (name : String) : Value → List Int → Int → Except EvalError Value
  | _, [], n => .ok (int n)
  | int _, _ :: _, _ => .error (.notIndexable name)
  | map es, k :: path, n => do
    let v ← store name ((SortedMap.find? k es).getD (fresh path)) path n
    return map (SortedMap.insert k v es)

/-! ## Printing -/

mutual

def render : Value → String
  | int n => toString n
  | map es => "\x7b" ++ ", ".intercalate (renderEntries es) ++ "\x7d"

def renderEntries : List (Int × Value) → List String
  | [] => []
  | (k, v) :: es => (toString k ++ ": " ++ v.render) :: renderEntries es

end

end Value

/-- The variables of a game, in the order of their names. -/
abbrev Variables := List (String × Value)

end BoardGame
