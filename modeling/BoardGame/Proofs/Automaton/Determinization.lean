import BoardGame.Proofs.Automaton.Subsets

/-!
# What the deterministic automaton reads

A transition of the deterministic automaton leads from the set of its source to all that an edge
with its step and empty edges lead to from there, so the state that a word leads to stands for all
that the word leads to in the nondeterministic automaton (`Determinizes.path_start`).
-/

namespace BoardGame.Dfa
open Subsets (Builds Table Finished)
variable {n : Nfa} {m : Numbered} {accept : Nat} {b : Subsets m.size} {d : Dfa}
  {set : StateSet m.size} {p q : StateId} {w : List Step} {ts : List (Step × StateId)}

/-- Every state of `d` stands for a set of the table, and the start for what empty edges lead to
from number `0`. -/
structure Determinizes (m : Numbered) (accept : Nat) (b : Subsets m.size) (d : Dfa) : Prop where
  table : Table m b
  states_eq : d.states = b.states
  start : ∃ set, (set, d.start) ∈ b.known ∧
    ∀ j, set.contains j = true ↔ Nfa.Path m.outgoing 0 [] j
  finished : ∀ id < d.size, ∃ set ts, Finished m accept b set id ts
  reached : ∀ id < d.size, ∃ w, d.Path d.start w id

/-- The subset construction for `n` ends with `d`, without a bound on its steps. -/
def Constructs (n : Nfa) (d : Dfa) : Prop :=
  n.Walks [] [n.start] n.walk ∧ ∃ b, d.states = b.states ∧
    Builds (.ofNfa n) ((Numbered.ofNfa n).number n.accept) ⟨[], #[]⟩ [[0]] [d.start] b

theorem table_empty (m : Numbered) : Table m ⟨[], #[]⟩ :=
  ⟨List.nodup_nil, rfl, fun _ h => absurd h List.not_mem_nil⟩

theorem constructs_make {fuel : Nat} (hf : 2 ^ (Numbered.ofNfa n).size < fuel) :
    let r := Subsets.make (.ofNfa n) ((Numbered.ofNfa n).number n.accept) fuel ⟨[], #[]⟩ [0]
    Constructs n ⟨r.2.states, r.1⟩ := by
  have hs : ∀ i ∈ [0], i < (Numbered.ofNfa n).size := by simpa using Numbered.size_pos n
  exact ⟨n.walks_walk, _, rfl,
    Subsets.builds_make (Numbered.bounded_ofNfa n) (table_empty _) hf hs⟩

theorem constructs_ofNfa (n : Nfa) : Constructs n (ofNfa n) := by
  have hf : 2 ^ (Numbered.ofNfa n).size < 1 <<< (Numbered.ofNfa n).size + 1 := by
    rw [Nat.one_shiftLeft]
    exact Nat.lt_succ_self _
  unfold ofNfa
  dsimp only
  exact constructs_make hf

theorem exists_determinizes (n : Nfa) :
    ∃ b, Determinizes (.ofNfa n) ((Numbered.ofNfa n).number n.accept) b (ofNfa n) := by
  obtain ⟨-, b, hb, h⟩ := constructs_ofNfa n
  refine ⟨b, ?_, hb, ?_, ?_, ?_⟩
  · exact h.table (Numbered.bounded_ofNfa n) (table_empty _)
  · obtain ⟨⟨c, hc, hknown⟩, -⟩ := List.forall₂_cons.1 h.forall₂
    refine ⟨c.1, hknown, fun j => ?_⟩
    rw [hc.contains_iff]
    simp
  · intro id hid
    rw [size, hb] at hid
    exact h.finished id (Nat.zero_le _) hid
  · intro id hid
    rw [size, hb] at hid
    refine h.reached (P := fun id => ∃ w, (ofNfa n).Path (ofNfa n).start w id)
      (fun id _ _ => by rw [hb]) (fun p s q ⟨w, hw⟩ he => ⟨w ++ [s], hw.snoc he⟩) ?_ id
      (Nat.zero_le _) hid
    intro id hid
    exact ⟨[], List.mem_singleton.1 hid ▸ .nil _⟩

namespace Determinizes

theorem transitions_eq (h : Determinizes m accept b d) (hf : Finished m accept b set p ts) :
    d.transitions p = ts := by
  rw [transitions, h.states_eq, hf.state]
  rfl

theorem isAccepting_eq (h : Determinizes m accept b d) (hf : Finished m accept b set p ts) :
    d.isAccepting p = set.contains accept := by
  rw [isAccepting, h.states_eq, hf.state]
  rfl

theorem lt_size_iff (h : Determinizes m accept b d) :
    p < d.size ↔ p ∈ b.known.map Prod.snd := by
  rw [h.table.mem_ids, size, h.states_eq]

theorem lt_size (h : Determinizes m accept b d) (hp : (set, p) ∈ b.known) : p < d.size :=
  h.lt_size_iff.2 (List.mem_map_of_mem (f := Prod.snd) hp)

theorem finished_of_known (h : Determinizes m accept b d) (hp : (set, p) ∈ b.known) :
    ∃ ts, Finished m accept b set p ts := by
  obtain ⟨set', ts, hf⟩ := h.finished p (h.lt_size hp)
  obtain rfl := h.table.eq_of_ids hp hf.known
  exact ⟨ts, hf⟩

/-- The state at the end of a path stands for what the word leads to from the set of the first
one. -/
theorem path (h : Determinizes m accept b d) (hp : (set, p) ∈ b.known) (hw : d.Path p w q) :
    ∃ set', (set', q) ∈ b.known ∧ ∀ j, set'.contains j = true ↔
      ∃ i, set.contains i = true ∧ Nfa.Path m.outgoing i w j := by
  induction hw generalizing set with
  | nil p =>
    obtain ⟨ts, hf⟩ := h.finished_of_known hp
    exact ⟨set, hp, fun j =>
      ⟨fun hj => ⟨j, hj, .nil j⟩, fun ⟨i, hi, hpath⟩ => hf.closed.path hi hpath⟩⟩
  | @cons p q r s w he _ ih =>
    obtain ⟨ts, hf⟩ := h.finished_of_known hp
    rw [h.transitions_eq hf] at he
    obtain ⟨set₁, hq, h₁⟩ := hf.target s q he
    obtain ⟨set', hr, h'⟩ := ih hq
    refine ⟨set', hr, fun j => (h' j).trans ?_⟩
    constructor
    · rintro ⟨k', hk', hw⟩
      obtain ⟨i, k, hi, he, hk⟩ := (h₁ k').1 hk'
      exact ⟨i, hi, .step he (hk.append hw)⟩
    · rintro ⟨i, hi, hw⟩
      obtain ⟨i', k, hi', he, hw⟩ := hw.step_cases
      exact ⟨k, (h₁ k).2 ⟨i', k, hf.closed.path hi hi', he, .nil k⟩, hw⟩

/-- A word that leads anywhere has a path here. -/
theorem exists_path (h : Determinizes m accept b d) (hp : (set, p) ∈ b.known) {i j : Nat}
    (hi : set.contains i = true) (hw : Nfa.Path m.outgoing i w j) : ∃ q, d.Path p w q := by
  induction w generalizing set p i with
  | nil => exact ⟨p, .nil p⟩
  | cons s w ih =>
    obtain ⟨ts, hf⟩ := h.finished_of_known hp
    obtain ⟨i', k, hi', he, hw⟩ := hw.step_cases
    obtain ⟨q, hq⟩ := hf.moved i' k s (hf.closed.path hi hi') he
    obtain ⟨set₁, hknown, h₁⟩ := hf.target s q hq
    obtain ⟨r, hr⟩ := ih hknown ((h₁ k).2 ⟨i', k, hf.closed.path hi hi', he, .nil k⟩) hw
    exact ⟨r, .cons (by rwa [h.transitions_eq hf]) hr⟩

theorem path_start (h : Determinizes m accept b d) (hw : d.Path d.start w q) :
    ∃ set, (set, q) ∈ b.known ∧ ∀ j, set.contains j = true ↔ Nfa.Path m.outgoing 0 w j := by
  obtain ⟨set₀, hs, h₀⟩ := h.start
  obtain ⟨set, hq, hset⟩ := h.path hs hw
  refine ⟨set, hq, fun j => (hset j).trans ⟨?_, ?_⟩⟩
  · rintro ⟨i, hi, hw⟩
    exact ((h₀ i).1 hi).append hw
  · exact fun hw => ⟨0, (h₀ 0).2 (.nil 0), hw⟩

theorem exists_path_start (h : Determinizes m accept b d) {j : Nat}
    (hw : Nfa.Path m.outgoing 0 w j) : ∃ q, d.Path d.start w q := by
  obtain ⟨set₀, hs, h₀⟩ := h.start
  exact h.exists_path hs ((h₀ 0).2 (.nil 0)) hw

/-- A path here reads what some path there does. -/
theorem exists_of_path (h : Determinizes m accept b d) (hp : (set, p) ∈ b.known)
    (hne : ∃ i, set.contains i = true) (hw : d.Path p w q) :
    ∃ i j, set.contains i = true ∧ Nfa.Path m.outgoing i w j := by
  induction hw generalizing set with
  | nil =>
    obtain ⟨i, hi⟩ := hne
    exact ⟨i, i, hi, .nil i⟩
  | cons he _ ih =>
    obtain ⟨ts, hf⟩ := h.finished_of_known hp
    rw [h.transitions_eq hf] at he
    obtain ⟨set₁, hq, h₁⟩ := hf.target _ _ he
    obtain ⟨i, k, hi, he⟩ := hf.occurs _ _ he
    obtain ⟨i', j, hi', hj⟩ := ih hq ⟨k, (h₁ k).2 ⟨i, k, hi, he, .nil k⟩⟩
    obtain ⟨i, k, hi, he, hk⟩ := (h₁ i').1 hi'
    exact ⟨i, j, hi, .step he (hk.append hj)⟩

theorem exists_path_iff (h : Determinizes m accept b d) :
    (∃ q, d.Path d.start w q) ↔ ∃ j, Nfa.Path m.outgoing 0 w j := by
  obtain ⟨set, hs, hset⟩ := h.start
  constructor
  · rintro ⟨q, hq⟩
    obtain ⟨i, j, hi, hj⟩ := h.exists_of_path hs ⟨0, (hset 0).2 (.nil 0)⟩ hq
    exact ⟨j, ((hset i).1 hi).append hj⟩
  · rintro ⟨j, hj⟩
    exact h.exists_path_start hj

theorem accepts_iff (h : Determinizes m accept b d) :
    d.Accepts w ↔ Nfa.Path m.outgoing 0 w accept := by
  constructor
  · rintro ⟨q, hw, hq⟩
    obtain ⟨set, hknown, hset⟩ := h.path_start hw
    obtain ⟨ts, hf⟩ := h.finished_of_known hknown
    rw [h.isAccepting_eq hf] at hq
    exact (hset accept).1 hq
  · intro hw
    obtain ⟨q, hq⟩ := h.exists_path_start hw
    obtain ⟨set, hknown, hset⟩ := h.path_start hq
    obtain ⟨ts, hf⟩ := h.finished_of_known hknown
    refine ⟨q, hq, ?_⟩
    rw [h.isAccepting_eq hf]
    exact (hset accept).2 hw

theorem deterministic (h : Determinizes m accept b d) : d.Deterministic := by
  intro p
  by_cases hp : p < d.size
  · obtain ⟨set, ts, hf⟩ := h.finished p hp
    rw [h.transitions_eq hf]
    exact hf.nodup
  · rw [transitions, Array.getElem?_eq_none (Nat.not_lt.1 hp)]
    exact List.nodup_nil

theorem target_lt (h : Determinizes m accept b d) {s : Step} (he : (s, q) ∈ d.transitions p) :
    q < d.size := by
  by_cases hp : p < d.size
  · obtain ⟨set, ts, hf⟩ := h.finished p hp
    rw [h.transitions_eq hf] at he
    obtain ⟨set', hq, -⟩ := hf.target s q he
    exact h.lt_size hq
  · rw [transitions, Array.getElem?_eq_none (Nat.not_lt.1 hp)] at he
    cases he

theorem eq_iff (h : Determinizes m accept b d) {u v : List Step} (hp : d.Path d.start u p)
    (hq : d.Path d.start v q) :
    p = q ↔ ∀ j < m.size, Nfa.Path m.outgoing 0 u j ↔ Nfa.Path m.outgoing 0 v j := by
  obtain ⟨set, hp, hset⟩ := h.path_start hp
  obtain ⟨set', hq, hset'⟩ := h.path_start hq
  constructor
  · rintro rfl j -
    obtain rfl := h.table.eq_of_ids hp hq
    rw [← hset, ← hset']
  · intro huv
    have hsets : set = set' := h.table.eq_of_contains_iff
      (List.mem_map_of_mem (f := Prod.fst) hp) (List.mem_map_of_mem (f := Prod.fst) hq)
      fun j hj => by rw [hset, hset', huv j hj]
    exact h.table.eq_of_sets hp (hsets ▸ hq)

end Determinizes

theorem accepts_ofNfa (n : Nfa) (w : List Step) : (ofNfa n).Accepts w ↔ n.Accepts w := by
  obtain ⟨b, h⟩ := exists_determinizes n
  exact h.accepts_iff.trans (Numbered.path_number_iff n w n.accept)

theorem exists_path_ofNfa_iff (n : Nfa) (w : List Step) :
    (∃ q, (ofNfa n).Path (ofNfa n).start w q) ↔ ∃ x, Nfa.Path n.outgoing n.start w x := by
  obtain ⟨b, h⟩ := exists_determinizes n
  exact h.exists_path_iff.trans (Numbered.exists_path_iff n w)

/-- The construction ends. The automaton it gives accepts the same words, has at most one transition
for a step and none that leads outside, has no state that is not reached, and has one state for each
set of states that a word can lead to. -/
theorem ofNfa_correct (n : Nfa) : Constructs n (ofNfa n) ∧
    (∀ w, (ofNfa n).Accepts w ↔ n.Accepts w) ∧
    (ofNfa n).Deterministic ∧
    ((ofNfa n).start < (ofNfa n).size ∧
      ∀ p s q, (s, q) ∈ (ofNfa n).transitions p → q < (ofNfa n).size) ∧
    (∀ p < (ofNfa n).size, ∃ w, (ofNfa n).Path (ofNfa n).start w p) ∧
    ∀ u v p q, (ofNfa n).Path (ofNfa n).start u p → (ofNfa n).Path (ofNfa n).start v q →
      (p = q ↔ ∀ x, Nfa.Path n.outgoing n.start u x ↔ Nfa.Path n.outgoing n.start v x) := by
  obtain ⟨b, h⟩ := exists_determinizes n
  refine ⟨constructs_ofNfa n, accepts_ofNfa n, h.deterministic, ⟨?_, fun p s q => h.target_lt⟩,
    h.reached, ?_⟩
  · obtain ⟨set, hs, -⟩ := h.start
    exact h.lt_size hs
  · intro u v p q hp hq
    exact (h.eq_iff hp hq).trans (Numbered.path_congr_iff n u v)

end BoardGame.Dfa
