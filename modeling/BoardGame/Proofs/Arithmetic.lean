import BoardGame.Expr.Operator
import Mathlib.Algebra.Order.Field.Basic
import Mathlib.Data.Rat.Floor
import Mathlib.Tactic.Linarith

/-!
# Exact operators

Where a binary operator has a value, it is the exact one (`BinaryOp.exactValue`): a quotient is that of
rational numbers, cut off or rounded down. Rounding down starts from the quotient and the remainder that
are cut off toward zero; no step from there leaves the range of integers (`BinaryOp.apply_exact`).
-/

namespace BoardGame
variable {l r v q m : Int}

/-- A rational number cut off toward zero. -/
def truncate (x : ℚ) : Int := if 0 ≤ x then ⌊x⌋ else ⌈x⌉

/-- The exact value of `l op r`, for `r` other than 0 if `op` divides. -/
def BinaryOp.exactValue (op : BinaryOp) (l r : Int) : Int :=
  match op with
  | and => if l ≠ 0 ∧ r ≠ 0 then 1 else 0
  | or => if l ≠ 0 ∨ r ≠ 0 then 1 else 0
  | eq => if l = r then 1 else 0
  | ne => if l ≠ r then 1 else 0
  | lt => if l < r then 1 else 0
  | le => if l ≤ r then 1 else 0
  | gt => if r < l then 1 else 0
  | ge => if r ≤ l then 1 else 0
  | add => l + r
  | sub => l - r
  | mul => l * r
  | div => truncate (l / r)
  | floorDiv => ⌊(l / r : ℚ)⌋
  | mod => l - r * ⌊(l / r : ℚ)⌋

/-! ### Quotients of rational numbers -/

/-- `q` is the quotient rounded down if what it leaves of `l` lies between zero and `r`. -/
theorem floor_div_eq (hr : r ≠ 0) (h : q * r + m = l) (hpos : 0 < r → 0 ≤ m ∧ m < r)
    (hneg : r < 0 → r < m ∧ m ≤ 0) : ⌊(l / r : ℚ)⌋ = q := by
  have hl : (l : ℚ) = q * r + m := by exact_mod_cast h.symm
  rw [Int.floor_eq_iff, hl]
  rcases lt_or_gt_of_ne hr with hr | hr
  · obtain ⟨hlow, hhigh⟩ := hneg hr
    have hr' : (r : ℚ) < 0 := by exact_mod_cast hr
    have hlow : (r : ℚ) < m := by exact_mod_cast hlow
    have hhigh : (m : ℚ) ≤ 0 := by exact_mod_cast hhigh
    rw [le_div_iff_of_neg hr', div_lt_iff_of_neg hr']
    constructor <;> linarith
  · obtain ⟨hlow, hhigh⟩ := hpos hr
    have hr' : (0 : ℚ) < r := by exact_mod_cast hr
    have hlow : (0 : ℚ) ≤ m := by exact_mod_cast hlow
    have hhigh : (m : ℚ) < r := by exact_mod_cast hhigh
    rw [le_div_iff₀ hr', div_lt_iff₀ hr']
    constructor <;> linarith

theorem ceil_div_eq (hr : r ≠ 0) (h : q * r + m = l) (hpos : 0 < r → -r < m ∧ m ≤ 0)
    (hneg : r < 0 → 0 ≤ m ∧ m < -r) : ⌈(l / r : ℚ)⌉ = q := by
  have hfloor : ⌊((-l : Int) / r : ℚ)⌋ = -q := by
    refine floor_div_eq (m := -m) hr ?_ (fun hr => ?_) fun hr => ?_
    · rw [← h, Int.neg_add, Int.neg_mul]
    · have := hpos hr
      omega
    · have := hneg hr
      omega
  rw [Int.cast_neg, neg_div, Int.floor_neg] at hfloor
  exact neg_injective hfloor

/-! ### Cutting off -/

/-- What the quotient cut off toward zero leaves of `l` is smaller than `r` and has the sign of `l`. -/
theorem tmod_bounds (l : Int) (hr : r ≠ 0) :
    (l.tmod r).natAbs < r.natAbs ∧ (0 ≤ l → 0 ≤ l.tmod r) ∧ (l ≤ 0 → l.tmod r ≤ 0) := by
  refine ⟨?_, Int.tmod_nonneg r, fun hl => ?_⟩
  · rw [Int.natAbs_tmod]
    exact Nat.mod_lt _ (Int.natAbs_pos.2 hr)
  · have hneg := Int.tmod_nonneg r (Int.neg_nonneg_of_nonpos hl)
    rw [Int.neg_tmod] at hneg
    omega

theorem tdiv_eq_truncate (l : Int) (hr : r ≠ 0) : l.tdiv r = truncate (l / r) := by
  obtain ⟨hlt, hpos, hneg⟩ := tmod_bounds l hr
  have hid := Int.tdiv_mul_add_tmod l r
  have hsign : 0 ≤ (l / r : ℚ) ↔ 0 ≤ l ∧ 0 ≤ r ∨ l ≤ 0 ∧ r ≤ 0 := by
    rw [div_nonneg_iff]
    norm_cast
  unfold truncate
  split
  · rename_i h
    rcases hsign.1 h with ⟨hl, hr'⟩ | ⟨hl, hr'⟩ <;>
      exact (floor_div_eq hr hid (by omega) (by omega)).symm
  · rename_i h
    rw [hsign] at h
    exact (ceil_div_eq hr hid (by omega) (by omega)).symm

/-! ### Rounding down -/

/-- The quotient and the remainder are corrected in the same cases. -/
theorem corrects_iff (l : Int) (hr : r ≠ 0) : l.tdiv r * r ≠ l ∧ decide (l < 0) ≠ decide (r < 0) ↔
    l.tmod r ≠ 0 ∧ decide (l.tmod r < 0) ≠ decide (r < 0) := by
  obtain ⟨-, hpos, hneg⟩ := tmod_bounds l hr
  have hid := Int.tdiv_mul_add_tmod l r
  simp only [ne_eq, decide_eq_decide]
  omega

theorem floorQuotient_mul_add (l : Int) (hr : r ≠ 0) :
    floorQuotient l r * r + floorRemainder l r = l := by
  have hid := Int.tdiv_mul_add_tmod l r
  unfold floorQuotient floorRemainder
  simp only [corrects_iff l hr]
  split
  · rw [Int.sub_mul, Int.one_mul]
    omega
  · exact hid

/-- What the quotient rounded down leaves of `l` lies between zero and `r`. -/
theorem floorRemainder_bounds (l : Int) (hr : r ≠ 0) :
    (0 < r → 0 ≤ floorRemainder l r ∧ floorRemainder l r < r) ∧
      (r < 0 → r < floorRemainder l r ∧ floorRemainder l r ≤ 0) := by
  obtain ⟨hlt, -, -⟩ := tmod_bounds l hr
  unfold floorRemainder
  simp only [ne_eq, decide_eq_decide]
  split <;> omega

theorem floorQuotient_eq_floor (l : Int) (hr : r ≠ 0) : floorQuotient l r = ⌊(l / r : ℚ)⌋ := by
  obtain ⟨hpos, hneg⟩ := floorRemainder_bounds l hr
  exact (floor_div_eq hr (floorQuotient_mul_add l hr) hpos hneg).symm

theorem floorRemainder_eq_sub (l : Int) (hr : r ≠ 0) :
    floorRemainder l r = l - r * ⌊(l / r : ℚ)⌋ := by
  have hid := floorQuotient_mul_add l hr
  rw [← floorQuotient_eq_floor l hr, Int.mul_comm]
  omega

/-! ### The range of integers -/

theorem two_mul_natAbs_tdiv_le (h : 2 ≤ r.natAbs) : 2 * (l.tdiv r).natAbs ≤ l.natAbs :=
  calc 2 * (l.tdiv r).natAbs
      = 2 * (l.natAbs / r.natAbs) := congrArg (2 * ·) (Int.natAbs_tdiv l r)
    _ ≤ r.natAbs * (l.natAbs / r.natAbs) := Nat.mul_le_mul_right _ h
    _ ≤ l.natAbs := Nat.mul_div_le _ _

/-- A quotient that is not exact is at most half of `l`. -/
theorem natAbs_tdiv_le_half (hr : r ≠ 0) (h : l.tdiv r * r ≠ l) : 2 * (l.tdiv r).natAbs ≤ l.natAbs := by
  obtain ⟨hlt, -, -⟩ := tmod_bounds l hr
  have hid := Int.tdiv_mul_add_tmod l r
  exact two_mul_natAbs_tdiv_le (by omega)

theorem fits_tdiv_mul (hl : FitsInt64 l) (hr : FitsInt64 r) (hne : r ≠ 0) :
    FitsInt64 (l.tdiv r * r) := by
  obtain ⟨hlt, hpos, hneg⟩ := tmod_bounds l hne
  have hid := Int.tdiv_mul_add_tmod l r
  unfold FitsInt64 at *
  omega

theorem fits_tdiv_sub_one (hl : FitsInt64 l) (hne : r ≠ 0) (h : l.tdiv r * r ≠ l) :
    FitsInt64 (l.tdiv r - 1) := by
  have hhalf := natAbs_tdiv_le_half hne h
  unfold FitsInt64 at *
  omega

theorem fits_tmod_add (hr : FitsInt64 r) (hne : r ≠ 0)
    (h : decide (l.tmod r < 0) ≠ decide (r < 0)) : FitsInt64 (l.tmod r + r) := by
  obtain ⟨hlt, -, -⟩ := tmod_bounds l hne
  rw [ne_eq, decide_eq_decide] at h
  unfold FitsInt64 at *
  omega

theorem fits_floorQuotient (hl : FitsInt64 l) (hne : r ≠ 0) (hq : FitsInt64 (l.tdiv r)) :
    FitsInt64 (floorQuotient l r) := by
  unfold floorQuotient
  dsimp only
  split
  · rename_i h
    exact fits_tdiv_sub_one hl hne h.1
  · exact hq

theorem fits_floorRemainder (hr : FitsInt64 r) (hne : r ≠ 0) : FitsInt64 (floorRemainder l r) := by
  obtain ⟨hpos, hneg⟩ := floorRemainder_bounds l hne
  unfold FitsInt64 at *
  omega

/-! ### Values of operators -/

theorem checkInt64_eq_ok_iff {n : Int} : checkInt64 n = .ok v ↔ FitsInt64 n ∧ n = v := by
  unfold checkInt64
  split <;> simp_all

theorem divided_eq_ok_iff {n : Int} :
    divided l r n = .ok v ↔ r ≠ 0 ∧ FitsInt64 (l.tdiv r) ∧ n = v := by
  unfold divided
  split
  · simp_all
  · split <;> simp_all

theorem fits_truth (b : Bool) : FitsInt64 (truth b) := by cases b <;> decide

theorem BinaryOp.apply_eq_exactValue (hl : FitsInt64 l) (hr : FitsInt64 r) {op : BinaryOp}
    (h : op.apply l r = .ok v) : v = op.exactValue l r ∧ FitsInt64 v := by
  cases op with
  | and | or | eq | ne | lt | le | gt | ge =>
    obtain rfl := Except.ok.inj h
    exact ⟨by simp [truth, exactValue], fits_truth _⟩
  | add | sub | mul =>
    obtain ⟨hfits, rfl⟩ := checkInt64_eq_ok_iff.1 h
    exact ⟨rfl, hfits⟩
  | div =>
    obtain ⟨hne, hq, rfl⟩ := divided_eq_ok_iff.1 h
    exact ⟨tdiv_eq_truncate l hne, hq⟩
  | floorDiv =>
    obtain ⟨hne, hq, rfl⟩ := divided_eq_ok_iff.1 h
    exact ⟨floorQuotient_eq_floor l hne, fits_floorQuotient hl hne hq⟩
  | mod =>
    obtain ⟨hne, -, rfl⟩ := divided_eq_ok_iff.1 h
    exact ⟨floorRemainder_eq_sub l hne, fits_floorRemainder hr hne⟩

/-- An operator that has a value has the exact one. So `//` and `%` divide with a remainder that is zero
or has the sign of the divisor and is smaller. What is worked out on the way there, the product to compare
with and the corrected quotient and remainder, does not leave the range of integers. -/
theorem BinaryOp.apply_exact (hl : FitsInt64 l) (hr : FitsInt64 r) :
    (∀ (op : BinaryOp) (v : Int), op.apply l r = .ok v → v = op.exactValue l r ∧ FitsInt64 v) ∧
    (∀ q m : Int, BinaryOp.floorDiv.apply l r = .ok q → BinaryOp.mod.apply l r = .ok m →
      l = r * q + m ∧ (m = 0 ∨ m.sign = r.sign) ∧ |m| < |r|) ∧
    (r ≠ 0 → FitsInt64 (l.tdiv r * r) ∧
      (l.tdiv r * r ≠ l ∧ decide (l < 0) ≠ decide (r < 0) → FitsInt64 (l.tdiv r - 1)) ∧
      (l.tmod r ≠ 0 ∧ decide (l.tmod r < 0) ≠ decide (r < 0) → FitsInt64 (l.tmod r + r))) := by
  refine ⟨fun op v h => apply_eq_exactValue hl hr h, fun q m hq hm => ?_, fun hne => ?_⟩
  · obtain ⟨hne, -, rfl⟩ := divided_eq_ok_iff.1 hq
    obtain ⟨-, -, rfl⟩ := divided_eq_ok_iff.1 hm
    obtain ⟨hpos, hneg⟩ := floorRemainder_bounds l hne
    have hid := floorQuotient_mul_add l hne
    refine ⟨by rw [Int.mul_comm, hid], ?_, by rw [Int.abs_eq_natAbs, Int.abs_eq_natAbs]; omega⟩
    rcases lt_trichotomy (floorRemainder l r) 0 with h | h | h
    · exact .inr (by rw [Int.sign_eq_neg_one_of_neg h, Int.sign_eq_neg_one_of_neg (by omega)])
    · exact .inl h
    · exact .inr (by rw [Int.sign_eq_one_of_pos h, Int.sign_eq_one_of_pos (by omega)])
  · exact ⟨fits_tdiv_mul hl hr hne, fun h => fits_tdiv_sub_one hl hne h.1, fun h =>
      fits_tmod_add hr hne h.2⟩

/-- `-7 // 2` is -4 and leaves 1, although -7 / 2 is cut off to -3 and leaves -1. -/
theorem BinaryOp.apply_exact_seven_halves : FitsInt64 (-7) ∧ FitsInt64 2 ∧
    BinaryOp.floorDiv.apply (-7) 2 = .ok (-4) ∧ BinaryOp.mod.apply (-7) 2 = .ok 1 ∧
    -4 = BinaryOp.floorDiv.exactValue (-7) 2 ∧ (-7 : Int) = 2 * -4 + 1 ∧
    FitsInt64 ((-7 : Int).tdiv 2 - 1) ∧ FitsInt64 ((-7 : Int).tmod 2 + 2) := by
  have hl : FitsInt64 (-7) := by decide
  have hr : FitsInt64 2 := by decide
  have hq : BinaryOp.floorDiv.apply (-7) 2 = .ok (-4) := rfl
  have hm : BinaryOp.mod.apply (-7) 2 = .ok 1 := rfl
  obtain ⟨hexact, hdivide, hfits⟩ := apply_exact hl hr
  obtain ⟨-, hquotient, hremainder⟩ := hfits (by decide)
  exact ⟨hl, hr, hq, hm, (hexact _ _ hq).1, (hdivide _ _ hq hm).1, hquotient (by decide),
    hremainder (by decide)⟩

end BoardGame
