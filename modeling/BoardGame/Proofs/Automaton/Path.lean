import BoardGame.Automaton.Dfa
import Mathlib.Computability.Language

/-!
# Paths of automata

`Nfa.Path out p w q`: the edges that `out` gives lead from `p` to `q` and read `w`, empty edges
reading nothing. What a path reads is bounded from above by a family of languages that absorbs
the edges (`Path.mem`): a path into `q` followed by a word of `K q` is a word of `K p`.
-/

namespace BoardGame

namespace Nfa

/-- The edges of `out` lead from a state to another one and read these steps. -/
inductive Path (out : StateId → List Edge) : StateId → List Step → StateId → Prop
  | nil (p : StateId) : Path out p [] p
  | silent {p q r : StateId} {w : List Step} (he : (q, none) ∈ out p) (h : Path out q w r) :
      Path out p w r
  | step {p q r : StateId} {s : Step} {w : List Step} (he : (q, some s) ∈ out p)
      (h : Path out q w r) : Path out p (s :: w) r

/-- The automaton reads `w` from its start to its accepting state. -/
def Accepts (n : Nfa) (w : List Step) : Prop := Path n.outgoing n.start w n.accept

/-- What `K` gives for the end of an edge and what the edge reads before it, `K` gives for its
source. -/
def Absorbs (out : StateId → List Edge) (K : StateId → Language Step) : Prop :=
  ∀ p q l, (q, l) ∈ out p → ∀ w ∈ K q, l.toList ++ w ∈ K p

/-- What is read from `p` to `t`. -/
def residual (out : StateId → List Edge) (t p : StateId) : Language Step := {w | Path out p w t}

namespace Path
variable {out out' : StateId → List Edge} {p q r : StateId} {u v w : List Step}

theorem cons {l : Label} (he : (q, l) ∈ out p) (h : Path out q w r) :
    Path out p (l.toList ++ w) r := by
  cases l with
  | none => exact .silent he h
  | some s => exact .step he h

theorem single {l : Label} (he : (q, l) ∈ out p) : Path out p l.toList q := by
  have := cons he (.nil q)
  rwa [List.append_nil] at this

theorem append (h₁ : Path out p u q) (h₂ : Path out q v r) : Path out p (u ++ v) r := by
  induction h₁ with
  | nil => exact h₂
  | silent he _ ih => exact .silent he (ih h₂)
  | step he _ ih => exact .step he (ih h₂)

theorem map (f : StateId → StateId) (hf : ∀ p q l, (q, l) ∈ out p → (f q, l) ∈ out' (f p))
    (h : Path out p w q) : Path out' (f p) w (f q) := by
  induction h with
  | nil => exact .nil _
  | silent he _ ih => exact .silent (hf _ _ _ he) ih
  | step he _ ih => exact .step (hf _ _ _ he) ih

theorem mono (hf : ∀ p q l, (q, l) ∈ out p → (q, l) ∈ out' p) (h : Path out p w q) :
    Path out' p w q :=
  h.map id hf

/-- Paths that begin in `P` stay the same when the edges that leave `P` do and lead into `P`. -/
theorem congr_on {P : StateId → Prop} (heq : ∀ p, P p → out' p = out p)
    (hP : ∀ p q l, P p → (q, l) ∈ out p → P q) (hp : P p) (h : Path out p w q) :
    Path out' p w q ∧ P q := by
  induction h with
  | nil => exact ⟨.nil _, hp⟩
  | silent he _ ih =>
    obtain ⟨h, hq⟩ := ih (hP _ _ _ hp he)
    exact ⟨.silent (by rw [heq _ hp]; exact he) h, hq⟩
  | step he _ ih =>
    obtain ⟨h, hq⟩ := ih (hP _ _ _ hp he)
    exact ⟨.step (by rw [heq _ hp]; exact he) h, hq⟩

theorem split (h : Path out p (u ++ v) r) : ∃ q, Path out p u q ∧ Path out q v r := by
  generalize hw : u ++ v = w at h
  induction h generalizing u with
  | nil p =>
    obtain ⟨rfl, rfl⟩ := List.append_eq_nil_iff.1 hw
    exact ⟨p, .nil p, .nil p⟩
  | silent he _ ih =>
    obtain ⟨q, h₁, h₂⟩ := ih hw
    exact ⟨q, .silent he h₁, h₂⟩
  | @step p _ _ s w he h ih =>
    cases u with
    | nil =>
      rw [List.nil_append] at hw
      exact ⟨p, .nil p, hw ▸ .step he h⟩
    | cons s' u =>
      simp only [List.cons_append, List.cons.injEq] at hw
      obtain ⟨rfl, hw⟩ := hw
      obtain ⟨q, h₁, h₂⟩ := ih hw
      exact ⟨q, .step he h₁, h₂⟩

theorem head_cases (h : Path out p w r) :
    r = p ∧ w = [] ∨ ∃ q l v, (q, l) ∈ out p ∧ w = l.toList ++ v ∧ Path out q v r := by
  cases h with
  | nil => exact .inl ⟨rfl, rfl⟩
  | silent he h => exact .inr ⟨_, none, _, he, rfl, h⟩
  | step he h => exact .inr ⟨_, some _, _, he, rfl, h⟩

theorem step_cases {s : Step} (h : Path out p (s :: w) r) :
    ∃ i k, Path out p [] i ∧ (k, some s) ∈ out i ∧ Path out k w r := by
  generalize hv : s :: w = v at h
  induction h with
  | nil => cases hv
  | silent he _ ih =>
    obtain ⟨i, k, hp, he', hw⟩ := ih hv
    exact ⟨i, k, .silent he hp, he', hw⟩
  | @step p q _ _ _ he h =>
    cases hv
    exact ⟨p, q, .nil p, he, h⟩

theorem eq_of_outgoing_nil (hp : out p = []) (h : Path out p w q) : q = p ∧ w = [] := by
  rcases h.head_cases with h | ⟨q, l, v, he, -, -⟩
  · exact h
  · rw [hp] at he; cases he

theorem mem {K : StateId → Language Step} (h : Path out p w q) (hK : Absorbs out K)
    (hv : v ∈ K q) : w ++ v ∈ K p := by
  induction h with
  | nil => exact hv
  | silent he _ ih => exact hK _ _ _ he _ (ih hv)
  | step he _ ih => exact hK _ _ _ he _ (ih hv)

end Path

theorem absorbs_residual (out : StateId → List Edge) (t : StateId) : Absorbs out (residual out t) :=
  fun _ _ _ he _ hw => Path.cons he hw

theorem residual_self {out : StateId → List Edge} {t : StateId} (ht : out t = []) :
    residual out t t = 1 := by
  ext w
  constructor
  · exact fun h => (Path.eq_of_outgoing_nil ht h).2
  · rintro rfl
    exact .nil t

end Nfa

namespace Dfa

/-- Transitions lead from a state to another one and read these steps. -/
inductive Path (d : Dfa) : StateId → List Step → StateId → Prop
  | nil (p : StateId) : Path d p [] p
  | cons {p q r : StateId} {s : Step} {w : List Step} (he : (s, q) ∈ d.transitions p)
      (h : Path d q w r) : Path d p (s :: w) r

theorem Path.snoc {d : Dfa} {p q r : StateId} {s : Step} {w : List Step} (h : d.Path p w q)
    (he : (s, r) ∈ d.transitions q) : d.Path p (w ++ [s]) r := by
  induction h with
  | nil => exact .cons he (.nil r)
  | cons he' _ ih => exact .cons he' (ih he)

/-- The automaton reads `w` from its start to an accepting state. -/
def Accepts (d : Dfa) (w : List Step) : Prop := ∃ q, d.Path d.start w q ∧ d.isAccepting q = true

/-- No state has two transitions with equal steps. -/
def Deterministic (d : Dfa) : Prop := ∀ p, ((d.transitions p).map Prod.fst).Nodup

end Dfa
end BoardGame
