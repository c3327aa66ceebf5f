import BoardGame.Proofs.Automaton.Determinization
import BoardGame.Proofs.Automaton.Fragment

/-!
# The steps of an automaton

The transitions of an automaton that is built from a pattern are steps of the pattern
(`Dfa.mem_steps_of_mem_transitions`): each lies on a path from the start, and what is read on such a
path begins a word of the pattern.
-/

namespace BoardGame

/-- The steps of a pattern from left to right. -/
def Pattern.steps : Pattern → List Step
  | step s => [s]
  | concat left right | union left right => left.steps ++ right.steps
  | star inner | plus inner | optional inner => inner.steps

theorem Pattern.mem_steps_of_mem_language {p : Pattern} {w : List Step} {s : Step}
    (hw : w ∈ p.language) (hs : s ∈ w) : s ∈ p.steps := by
  induction p generalizing w with
  | step s' =>
    obtain rfl : w = [s'] := hw
    exact hs
  | concat l r ihl ihr =>
    obtain ⟨u, hu, v, hv, rfl⟩ := hw
    exact List.mem_append.2 ((List.mem_append.1 hs).imp (ihl hu) (ihr hv))
  | union l r ihl ihr => exact List.mem_append.2 (hw.imp (ihl · hs) (ihr · hs))
  | star i ih =>
    obtain ⟨ws, rfl, hws⟩ := hw
    obtain ⟨u, hu, hs⟩ := List.mem_flatten.1 hs
    exact ih (hws u hu) hs
  | plus i ih =>
    obtain ⟨u, hu, v, ⟨ws, rfl, hws⟩, rfl⟩ := hw
    rcases List.mem_append.1 hs with hs | hs
    · exact ih hu hs
    · obtain ⟨u', hu', hs⟩ := List.mem_flatten.1 hs
      exact ih (hws u' hu') hs
  | optional i ih =>
    rcases hw with hw | hw
    · exact ih hw hs
    · obtain rfl : w = [] := hw
      cases hs

/-- Every step on a path is that of a transition. -/
theorem Dfa.Path.exists_mem_transitions {d : Dfa} {q q' : StateId} {w : List Step} {s : Step}
    (h : d.Path q w q') (hs : s ∈ w) : ∃ p r, (s, r) ∈ d.transitions p := by
  induction h with
  | nil => cases hs
  | cons he _ ih =>
    rcases List.mem_cons.1 hs with rfl | hs
    · exact ⟨_, _, he⟩
    · exact ih hs

theorem Dfa.mem_steps_of_mem_transitions {p : Pattern} {q r : StateId} {s : Step}
    (h : (s, r) ∈ (Dfa.ofPattern p).transitions q) : s ∈ p.steps := by
  obtain ⟨b, hb⟩ := Dfa.exists_determinizes (.ofPattern p)
  have hq : q < (Dfa.ofPattern p).size := by
    by_contra hq
    rw [transitions, Array.getElem?_eq_none (Nat.not_lt.1 hq)] at h
    cases h
  obtain ⟨w, hw⟩ := hb.reached q hq
  obtain ⟨x, hx⟩ := (Dfa.exists_path_ofNfa_iff _ _).1 ⟨r, hw.snoc h⟩
  obtain ⟨v, hv⟩ := (Nfa.exists_path_ofPattern_iff p _).1 ⟨x, hx⟩
  exact Pattern.mem_steps_of_mem_language hv (by simp)

end BoardGame
