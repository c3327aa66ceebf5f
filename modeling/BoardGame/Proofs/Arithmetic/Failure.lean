import BoardGame.Proofs.Arithmetic

/-!
# When operators fail

An operator fails of a division by zero, and of an exact value that is no 64-bit integer. One more
failure comes from `%`, which looks at the quotient although it does not need it: that of the least
integer by -1 does not fit (`not_fits_tdiv_iff`), but leaves 0 (`BinaryOp.mod_overflows_at_zero`).
Otherwise operators fail only when they must (`BinaryOp.apply_fails_only`).
-/

namespace BoardGame
variable {l r n v : Int} {e : EvalError}

/-- The operator has no value for 0 on the right. -/
def BinaryOp.Divides (op : BinaryOp) : Prop := op = .div ∨ op = .floorDiv ∨ op = .mod

/-! ### Quotients outside the range -/

theorem not_fits_tdiv_iff (hl : FitsInt64 l) (hr : r ≠ 0) :
    ¬ FitsInt64 (l.tdiv r) ↔ l = -0x8000000000000000 ∧ r = -1 := by
  constructor
  · intro h
    by_cases hone : r.natAbs = 1
    · rcases Int.natAbs_eq_iff.1 hone with rfl | rfl
      · rw [Int.natCast_one, Int.tdiv_one] at h
        exact absurd hl h
      · rw [Int.natCast_one, Int.tdiv_neg, Int.tdiv_one] at h
        unfold FitsInt64 at hl h
        omega
    · have hhalf : 2 * (l.tdiv r).natAbs ≤ l.natAbs := two_mul_natAbs_tdiv_le (by omega)
      unfold FitsInt64 at hl h
      omega
  · rintro ⟨rfl, rfl⟩
    decide

/-- Rounding a quotient down brings it neither into the range nor out of it. -/
theorem fits_floorQuotient_iff (hl : FitsInt64 l) (hr : r ≠ 0) :
    FitsInt64 (floorQuotient l r) ↔ FitsInt64 (l.tdiv r) := by
  refine ⟨fun h => ?_, fits_floorQuotient hl hr⟩
  by_contra hnot
  obtain ⟨rfl, rfl⟩ := (not_fits_tdiv_iff hl hr).1 hnot
  revert h
  decide

/-! ### Failures -/

theorem checkInt64_eq_error_iff : checkInt64 n = .error e ↔ e = .overflow ∧ ¬ FitsInt64 n := by
  unfold checkInt64
  split <;> simp_all [eq_comm]

theorem divided_eq_error_iff : divided l r v = .error e ↔
    e = .divisionByZero ∧ r = 0 ∨ e = .overflow ∧ r ≠ 0 ∧ ¬ FitsInt64 (l.tdiv r) := by
  unfold divided
  split
  · simp_all [eq_comm]
  · split <;> simp_all [eq_comm]

theorem UnaryOp.apply_eq_error_iff {op : UnaryOp} :
    op.apply n = .error e ↔ e = .overflow ∧ op = .neg ∧ ¬ FitsInt64 (-n) := by
  cases op with
  | not => simp [apply]
  | neg => simp [apply, checkInt64_eq_error_iff]

namespace BinaryOp

/-- The value of `l op r` is no 64-bit integer, or it is the remainder of a quotient that is none. -/
def Overflows (op : BinaryOp) (l r : Int) : Prop :=
  ¬ (op.Divides ∧ r = 0) ∧ ¬ FitsInt64 (op.exactValue l r) ∨
    op = .mod ∧ l = -0x8000000000000000 ∧ r = -1

theorem not_overflows_zero {op : BinaryOp} (hop : op.Divides) : ¬ op.Overflows l 0 := by
  rintro (⟨hdefined, -⟩ | ⟨-, -, hzero⟩)
  · exact hdefined ⟨hop, rfl⟩
  · cases hzero

theorem overflows_div_iff (hr : r ≠ 0) : div.Overflows l r ↔ ¬ FitsInt64 (l.tdiv r) := by
  simp [Overflows, Divides, hr, exactValue, tdiv_eq_truncate l hr]

theorem overflows_floorDiv_iff (hl : FitsInt64 l) (hr : r ≠ 0) :
    floorDiv.Overflows l r ↔ ¬ FitsInt64 (l.tdiv r) := by
  rw [← fits_floorQuotient_iff hl hr]
  simp [Overflows, Divides, hr, exactValue, floorQuotient_eq_floor l hr]

theorem overflows_mod_iff (hl : FitsInt64 l) (hr : FitsInt64 r) (hne : r ≠ 0) :
    mod.Overflows l r ↔ ¬ FitsInt64 (l.tdiv r) := by
  have hfits : FitsInt64 (mod.exactValue l r) := by
    rw [exactValue, ← floorRemainder_eq_sub l hne]
    exact fits_floorRemainder hr hne
  rw [not_fits_tdiv_iff hl hne]
  simp [Overflows, hfits]

/-- A quotient fails for 0 on the right, and where the quotient cut off toward zero does not fit. -/
theorem divided_eq_error_iff_overflows {op : BinaryOp} (hop : op.Divides)
    (hfits : r ≠ 0 → (op.Overflows l r ↔ ¬ FitsInt64 (l.tdiv r))) :
    divided l r v = .error e ↔
      e = .divisionByZero ∧ op.Divides ∧ r = 0 ∨ e = .overflow ∧ op.Overflows l r := by
  rw [divided_eq_error_iff]
  by_cases hr : r = 0
  · subst hr
    simp [hop, not_overflows_zero hop]
  · simp [hr, hfits hr]

theorem fits_ite {c : Prop} [Decidable c] (hl : FitsInt64 l) (hr : FitsInt64 r) :
    FitsInt64 (if c then l else r) := by
  split
  · exact hl
  · exact hr

theorem apply_eq_error_iff (hl : FitsInt64 l) (hr : FitsInt64 r) {op : BinaryOp} :
    op.apply l r = .error e ↔
      e = .divisionByZero ∧ op.Divides ∧ r = 0 ∨ e = .overflow ∧ op.Overflows l r := by
  cases op with
  | and | or | eq | ne | lt | le | gt | ge =>
    have hfalse : FitsInt64 0 := by decide
    have htrue : FitsInt64 1 := by decide
    simp [apply, Divides, Overflows, exactValue, fits_ite hfalse htrue, fits_ite htrue hfalse]
  | add | sub | mul => simp [apply, checkInt64_eq_error_iff, Divides, Overflows, exactValue]
  | div => exact divided_eq_error_iff_overflows (.inl rfl) overflows_div_iff
  | floorDiv => exact divided_eq_error_iff_overflows (.inr (.inl rfl)) (overflows_floorDiv_iff hl)
  | mod => exact divided_eq_error_iff_overflows (.inr (.inr rfl)) (overflows_mod_iff hl hr)

/-- Between 64-bit integers, an operator fails of a division by zero or of an overflow, and of nothing
else. The first is exactly a quotient or remainder by 0. The second is exactly an exact value that does
not fit, but for the remainder of the least integer by -1, which is lost with the quotient. A negation
fails exactly if its exact value does not fit, and `!` never. -/
theorem apply_fails_only (hl : FitsInt64 l) (hr : FitsInt64 r) :
    (∀ op : BinaryOp, op.apply l r = .error .divisionByZero ↔ op.Divides ∧ r = 0) ∧
    (∀ op : BinaryOp, op.apply l r = .error .overflow ↔
      ¬ (op.Divides ∧ r = 0) ∧ ¬ FitsInt64 (op.exactValue l r) ∨
        op = .mod ∧ l = -0x8000000000000000 ∧ r = -1) ∧
    (∀ (op : BinaryOp) (e : EvalError), op.apply l r = .error e → e = .divisionByZero ∨ e = .overflow) ∧
    (UnaryOp.neg.apply l = .error .overflow ↔ ¬ FitsInt64 (-l)) ∧
    ∀ (op : UnaryOp) (e : EvalError), op.apply l = .error e → op = .neg ∧ e = .overflow := by
  refine ⟨fun op => ?_, fun op => ?_, fun op e h => ?_, ?_, fun op e h => ?_⟩
  · simp [apply_eq_error_iff hl hr]
  · simp [apply_eq_error_iff hl hr, Overflows]
  · exact ((apply_eq_error_iff hl hr).1 h).imp And.left And.left
  · simp [UnaryOp.apply_eq_error_iff]
  · obtain ⟨he, hop, -⟩ := UnaryOp.apply_eq_error_iff.1 h
    exact ⟨hop, he⟩

/-- The quotient of the least integer by -1 does not fit, however it is rounded. -/
theorem apply_fails_only_least : FitsInt64 (-0x8000000000000000) ∧ FitsInt64 (-1) ∧
    floorDiv.apply (-0x8000000000000000) (-1) = .error .overflow ∧
    ¬ FitsInt64 (floorDiv.exactValue (-0x8000000000000000) (-1)) ∧
    UnaryOp.neg.apply (-0x8000000000000000) = .error .overflow ∧
    ¬ FitsInt64 (- -0x8000000000000000) := by
  have hl : FitsInt64 (-0x8000000000000000) := by decide
  have hr : FitsInt64 (-1) := by decide
  have hquotient : floorDiv.apply (-0x8000000000000000) (-1) = .error .overflow := rfl
  have hneg : UnaryOp.neg.apply (-0x8000000000000000) = .error .overflow := rfl
  obtain ⟨-, hoverflow, -, hneg', -⟩ := apply_fails_only hl hr
  obtain ⟨-, hexact⟩ := ((hoverflow .floorDiv).1 hquotient).resolve_right nofun
  exact ⟨hl, hr, hquotient, hexact, hneg, hneg'.1 hneg⟩

/-- The remainder of the least integer by -1 is 0, which fits, and still `%` overflows. -/
theorem mod_overflows_at_zero : FitsInt64 (-0x8000000000000000) ∧ FitsInt64 (-1) ∧
    mod.apply (-0x8000000000000000) (-1) = .error .overflow ∧
    mod.exactValue (-0x8000000000000000) (-1) = 0 ∧ FitsInt64 0 := by
  refine ⟨by decide, by decide, rfl, ?_, by decide⟩
  rw [exactValue, ← floorRemainder_eq_sub _ (by decide)]
  rfl

end BinaryOp
end BoardGame
