import Mathlib.Data.List.Forall2
import BoardGame.EvalError

/-!
# Results of what may fail

A computation in steps has a result if each step has one (`bind_eq_ok_iff`), and fails if the first one
does or what follows it (`Fails.of_bind`). A pass over a list has one for each item (`forall₂_of_mapM`), or
fails of one of them (`mapM_eq_error`). A fold that has one keeps what its steps keep
(`foldlM_induction`).
-/

namespace BoardGame
variable {ε α β : Type}

theorem bind_eq_ok_iff {x : Except ε α} {f : α → Except ε β} {b : β} :
    x >>= f = .ok b ↔ ∃ a, x = .ok a ∧ f a = .ok b := by
  cases x <;> simp [bind, Except.bind]

theorem pure_eq_ok_iff {a b : α} : (pure a : Except ε α) = .ok b ↔ b = a := by
  simp [pure, Except.pure, eq_comm]

/-! ### Failures -/

/-- The result is an error. -/
def Fails (x : Except ε α) : Prop := ∃ e, x = .error e

namespace Fails
variable {x : Except ε α} {f : α → Except ε β}

theorem not_ok {a : α} : ¬ Fails (.ok a : Except ε α) := fun ⟨_, h⟩ => nomatch h

theorem elim {P : α → Prop} (h : Fails x) : ∀ a, x = .ok a → P a := by
  rintro a rfl
  exact absurd h not_ok

theorem bind (h : ∀ a, x = .ok a → Fails (f a)) : Fails (x >>= f) := by
  cases hx : x with
  | error e => exact ⟨e, rfl⟩
  | ok a => exact h a hx

/-- A failure is that of the first step or of what follows it. -/
theorem of_bind (h : Fails (x >>= f)) : Fails x ∨ ∃ a, x = .ok a ∧ Fails (f a) := by
  cases hx : x with
  | error e => exact .inl ⟨e, rfl⟩
  | ok a => exact .inr ⟨a, rfl, by rwa [hx] at h⟩

end Fails

theorem bind_eq_error_iff {x : Except ε α} {f : α → Except ε β} {e : ε} :
    x >>= f = .error e ↔ x = .error e ∨ ∃ a, x = .ok a ∧ f a = .error e := by
  cases x <;> simp [bind, Except.bind]

/-! ### Passes over a list -/

theorem forall₂_of_mapM {f : α → Except ε β} {as : List α} {bs : List β} (h : as.mapM f = .ok bs) :
    List.Forall₂ (fun a b => f a = .ok b) as bs := by
  induction as generalizing bs with
  | nil =>
    cases h
    exact .nil
  | cons a as ih =>
    simp only [List.mapM_cons, bind_eq_ok_iff, pure_eq_ok_iff] at h
    obtain ⟨b, hb, bs, hbs, rfl⟩ := h
    exact .cons hb (ih hbs)

theorem exists_of_mem_mapM {f : α → Except ε β} {as : List α} {bs : List β} (h : as.mapM f = .ok bs)
    {b : β} (hb : b ∈ bs) : ∃ a ∈ as, f a = .ok b := by
  obtain ⟨i, hi, rfl⟩ := List.getElem_of_mem hb
  have hall := forall₂_of_mapM h
  exact ⟨_, List.getElem_mem (hall.length_eq ▸ hi), hall.get (hall.length_eq ▸ hi) hi⟩

theorem mapM_eq_error {f : α → Except ε β} {as : List α} {e : ε} (h : as.mapM f = .error e) :
    ∃ a ∈ as, f a = .error e := by
  induction as with
  | nil => cases h
  | cons a as ih =>
    simp only [List.mapM_cons, bind_eq_error_iff] at h
    rcases h with h | ⟨b, -, h | ⟨bs, -, h⟩⟩
    · exact ⟨a, List.mem_cons_self .., h⟩
    · obtain ⟨a', ha', h'⟩ := ih h
      exact ⟨a', List.mem_cons_of_mem _ ha', h'⟩
    · cases h

/-- What every step keeps, a fold that succeeds keeps. -/
theorem foldlM_induction {P : β → Prop} {f : β → α → Except ε β} {as : List α} {b b' : β}
    (h : as.foldlM f b = .ok b') (hf : ∀ b a b', P b → f b a = .ok b' → P b') (hb : P b) : P b' := by
  induction as generalizing b with
  | nil => exact Except.ok.inj h ▸ hb
  | cons a as ih =>
    rw [List.foldlM_cons, bind_eq_ok_iff] at h
    obtain ⟨b₁, h₁, h⟩ := h
    exact ih h (hf b a b₁ hb h₁)

end BoardGame
