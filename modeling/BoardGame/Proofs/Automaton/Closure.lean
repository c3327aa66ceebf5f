import BoardGame.Proofs.Automaton.Numbering

/-!
# What a closure lists and what its bits say

A closure is kept twice, as a list of numbers and as the bits of a set. `Numbered.ExactClosure` says that both
are what empty edges lead to from the seeds, the list without repetition and the bits without a bit
too many. So the bits are the same for two lists of seeds if these lead to the same states
(`ClosureOf.set_eq_iff`), and a set of numbers can stand for a state of the deterministic automaton.
-/

namespace BoardGame

/-! ### What is numbered -/

namespace Nfa
variable {n : Nfa} {order stack result : List StateId} {p q : StateId} {w : List Step}

/-- What holds of the states met and to be visited, and with a state of those its edges lead to,
holds of all that the walk meets. -/
theorem Walks.forall_mem {P : StateId → Prop} (h : n.Walks order stack result)
    (hP : ∀ p, P p → ∀ e ∈ n.outgoing p, P e.1) (horder : ∀ p ∈ order, P p)
    (hstack : ∀ p ∈ stack, P p) : ∀ p ∈ result, P p := by
  induction h with
  | done => exact horder
  | seen _ _ ih => exact ih horder fun p hp => hstack p (List.mem_cons_of_mem _ hp)
  | @fresh order stack _ id _ _ ih =>
    have hid : P id := hstack id (List.mem_cons_self ..)
    refine ih (fun p hp => ?_) fun p hp => ?_
    · rcases List.mem_append.1 hp with hp | hp
      · exact horder p hp
      · exact List.mem_singleton.1 hp ▸ hid
    · rcases List.mem_append.1 hp with hp | hp
      · obtain ⟨e, he, rfl⟩ := List.mem_map.1 (List.mem_of_mem_filter hp)
        exact hP id hid e he
      · exact hstack p (List.mem_cons_of_mem _ hp)

/-- A walk meets what a path leads to from the start. -/
theorem mem_walk_iff : p ∈ n.walk ↔ ∃ w, Path n.outgoing n.start w p := by
  constructor
  · refine n.walks_walk.forall_mem (P := fun p => ∃ w, Path n.outgoing n.start w p) ?_ ?_ ?_ p
    · rintro p ⟨w, hw⟩ e he
      exact ⟨w ++ e.2.toList, hw.append (.single he)⟩
    · exact fun _ h => absurd h List.not_mem_nil
    · intro p hp
      exact ⟨[], List.mem_singleton.1 hp ▸ .nil _⟩
  · rintro ⟨w, hw⟩
    exact n.mem_walk_of_path n.start_mem_walk hw

/-- The states that empty edges lead to from those numbered `seeds`. -/
def silentClosure (n : Nfa) (seeds : List Nat) : Set StateId :=
  {q | ∃ i ∈ seeds, ∃ p, (Numbered.ofNfa n).order[i]? = some p ∧ Path n.outgoing p [] q}

end Nfa

namespace Numbered
open Nfa (Path)

section
variable {m : Numbered} {set : StateSet m.size} {is members stack seeds : List Nat}
  {r : StateSet m.size × List Nat}

/-! ### Nothing is listed twice -/

theorem nodup_addFresh (h : ∀ i ∈ is, i < m.size) : (addFresh set is).2.Nodup := by
  induction is generalizing set with
  | nil => exact List.nodup_nil
  | cons i is ih =>
    have his := fun j hj => h j (List.mem_cons_of_mem i hj)
    rw [addFresh]
    split
    · exact ih his
    · refine List.nodup_cons.2 ⟨fun hi => ?_, ih his⟩
      have hbit := (mem_addFresh.1 hi).2
      rw [set.contains_insert_self (h i (List.mem_cons_self ..))] at hbit
      cases hbit

/-- The set tells what is in the list, so what is added to the list is new to it. -/
theorem Closes.nodup (h : m.Closes set members stack r)
    (hmem : ∀ i, i ∈ members ↔ set.contains i = true) (hn : members.Nodup) : r.2.Nodup := by
  induction h with
  | done => exact hn
  | expand hk _ ih =>
    refine ih (mem_append_addFresh hk hmem) (List.nodup_append.2 ⟨hn, nodup_addFresh hk, ?_⟩)
    rintro x hx y hy rfl
    have hfresh := (mem_addFresh.1 hy).2
    rw [(hmem x).1 hx] at hfresh
    cases hfresh

theorem ClosureOf.nodup (h : m.ClosureOf seeds r) : r.2.Nodup :=
  h.closes.nodup (fun _ => mem_gather.trans (contains_gather h.seeds_lt).symm)
    (nodup_addFresh h.seeds_lt)

end

/-! ### Closures of states -/

section
variable {n : Nfa} {seeds seeds' : List Nat} {c c' : StateSet (ofNfa n).size × List Nat}
  {i j : Nat} {p q : StateId}

theorem getElem?_order (n : Nfa) (i : Nat) : (ofNfa n).order[i]? = n.walk[i]? :=
  List.getElem?_toArray ..

theorem exists_getElem?_order (hi : i < (ofNfa n).size) : ∃ p, (ofNfa n).order[i]? = some p :=
  ⟨_, Array.getElem?_eq_getElem hi⟩

theorem getElem?_order_number (hp : p ∈ n.walk) :
    (ofNfa n).order[(ofNfa n).number p]? = some p := by
  rw [getElem?_order]
  exact List.getElem?_idxOf hp

/-- The members are the numbers of the states that empty edges lead to from those of the seeds. -/
theorem ClosureOf.mem_iff_silentClosure (h : (ofNfa n).ClosureOf seeds c) :
    j ∈ c.2 ↔ ∃ q ∈ n.silentClosure seeds, (ofNfa n).order[j]? = some q := by
  rw [h.mem_iff, h.contains_iff]
  constructor
  · rintro ⟨i, hi, hpath⟩
    have hlt := h.seeds_lt i hi
    obtain ⟨p, hp⟩ := exists_getElem?_order hlt
    obtain ⟨q, hq⟩ := exists_getElem?_order ((bounded_ofNfa n).path_lt hlt hpath)
    rw [getElem?_order] at hp hq
    refine ⟨q, ⟨i, hi, p, ?_, (path_ofNfa_iff hp hq).1 hpath⟩, ?_⟩
    all_goals rwa [getElem?_order]
  · rintro ⟨q, ⟨i, hi, p, hp, hpath⟩, hq⟩
    rw [getElem?_order] at hp hq
    exact ⟨i, hi, (path_ofNfa_iff hp hq).2 hpath⟩

/-- Every state of the closure of some seeds has a number. -/
theorem mem_walk_of_silentClosure (hq : q ∈ n.silentClosure seeds) : q ∈ n.walk := by
  obtain ⟨i, -, p, hp, hpath⟩ := hq
  rw [getElem?_order] at hp
  exact n.mem_walk_of_path (List.mem_of_getElem? hp) hpath

theorem ClosureOf.silentClosure_iff (h : (ofNfa n).ClosureOf seeds c) :
    q ∈ n.silentClosure seeds ↔ q ∈ n.walk ∧ c.1.contains ((ofNfa n).number q) = true := by
  rw [← h.mem_iff, h.mem_iff_silentClosure]
  constructor
  · intro hq
    have hwalk := mem_walk_of_silentClosure hq
    exact ⟨hwalk, q, hq, getElem?_order_number hwalk⟩
  · rintro ⟨hwalk, q', hq', heq⟩
    rw [getElem?_order_number hwalk] at heq
    exact Option.some.inj heq ▸ hq'

/-- Two closures have the same bits if they hold the same states. -/
theorem ClosureOf.set_eq_iff (h : (ofNfa n).ClosureOf seeds c)
    (h' : (ofNfa n).ClosureOf seeds' c') :
    c.1 = c'.1 ↔ n.silentClosure seeds = n.silentClosure seeds' := by
  constructor
  · intro heq
    ext q
    rw [h.silentClosure_iff, h'.silentClosure_iff, heq]
  · intro heq
    refine StateSet.ext fun j => Bool.eq_iff_iff.2 ?_
    rw [← h.mem_iff, ← h'.mem_iff, h.mem_iff_silentClosure, h'.mem_iff_silentClosure, heq]

/-- `c` holds the closure of `seeds`: its list has the number of each state once, and the bits of its
set are those of the list, none being set for the first number that is not a state's. -/
structure ExactClosure (n : Nfa) (seeds : List Nat) (c : StateSet (ofNfa n).size × List Nat) :
    Prop where
  nodup : c.2.Nodup
  mem_iff : ∀ j, j ∈ c.2 ↔ ∃ q ∈ n.silentClosure seeds, (ofNfa n).order[j]? = some q
  contains_iff : ∀ j, c.1.contains j = true ↔ j ∈ c.2
  not_contains_size : c.1.contains (ofNfa n).size = false

theorem ClosureOf.exactClosure (h : (ofNfa n).ClosureOf seeds c) : ExactClosure n seeds c where
  nodup := h.nodup
  mem_iff _ := h.mem_iff_silentClosure
  contains_iff _ := h.mem_iff.symm
  not_contains_size := Bool.eq_false_of_not_eq_true fun hc =>
    Nat.lt_irrefl _ (h.lt_size (bounded_ofNfa n) hc)

/-- A state that is not reachable has the first number that is not a state's. -/
theorem number_eq_size_iff : (ofNfa n).number p = (ofNfa n).size ↔ p ∉ n.walk := by
  rw [number_ofNfa, size_ofNfa, List.idxOf_eq_length_iff]

/-- The walk ends and numbers each reachable state once. Closing some of the numbers ends and gives
exactly what empty edges lead to, as a list without repetition and as bits, and the bits are the same
for two lists of numbers if the same states are. -/
theorem closure_exact (n : Nfa) :
    n.Walks [] [n.start] (ofNfa n).order.toList ∧ (ofNfa n).order.toList.Nodup ∧
    (∀ p, p ∈ (ofNfa n).order ↔ ∃ w, Path n.outgoing n.start w p) ∧
    (∀ p, p ∈ (ofNfa n).order → (ofNfa n).order[(ofNfa n).number p]? = some p) ∧
    (∀ p, p ∉ (ofNfa n).order → (ofNfa n).number p = (ofNfa n).size) ∧
    (∀ seeds, (∀ i ∈ seeds, i < (ofNfa n).size) →
      (ofNfa n).ClosureOf seeds ((ofNfa n).closure seeds) ∧
      ExactClosure n seeds ((ofNfa n).closure seeds)) ∧
    ∀ seeds seeds', (∀ i ∈ seeds, i < (ofNfa n).size) → (∀ i ∈ seeds', i < (ofNfa n).size) →
      (((ofNfa n).closure seeds).1 = ((ofNfa n).closure seeds').1 ↔
        n.silentClosure seeds = n.silentClosure seeds') := by
  have hmem : ∀ p, p ∈ (ofNfa n).order ↔ p ∈ n.walk := fun p => Array.mem_toList_iff.symm
  have hclosure : ∀ seeds, (∀ i ∈ seeds, i < (ofNfa n).size) →
      (ofNfa n).ClosureOf seeds ((ofNfa n).closure seeds) :=
    fun _ => closureOf_closure (bounded_ofNfa n)
  refine ⟨n.walks_walk, n.nodup_walk, fun p => (hmem p).trans Nfa.mem_walk_iff,
    fun p hp => getElem?_order_number ((hmem p).1 hp), fun p hp => ?_,
    fun seeds hs => ⟨hclosure seeds hs, (hclosure seeds hs).exactClosure⟩,
    fun seeds seeds' hs hs' => (hclosure seeds hs).set_eq_iff (hclosure seeds' hs')⟩
  rw [hmem] at hp
  exact number_eq_size_iff.2 hp

end

/-- Sixty-six states in a row of empty edges, the last of which leads back to the one before it. -/
def trail : Nfa :=
  let states : Nfa := (List.range 66).foldl (fun n _ => n.addState.2) .empty
  ((List.range 65).foldl (fun n i => n.addEdge i (i + 1) none) states).addEdge 65 64 none

/-- The closure of the last state but one begins a second word. -/
theorem closure_exact_trail :
    (∀ i ∈ [64], i < (ofNfa trail).size) ∧ (∀ i ∈ [65], i < (ofNfa trail).size) ∧
    ExactClosure trail [64] ((ofNfa trail).closure [64]) ∧
    ((ofNfa trail).closure [64]).2 = [64, 65] ∧
    ((ofNfa trail).closure [64]).1.words.toList = [0, 3] ∧
    trail.silentClosure [64] = trail.silentClosure [65] := by
  have hvalues : (ofNfa trail).size = 66 ∧ ((ofNfa trail).closure [64]).2 = [64, 65] ∧
      ((ofNfa trail).closure [64]).1.words.toList = [0, 3] ∧
      ((ofNfa trail).closure [64]).1 = ((ofNfa trail).closure [65]).1 := by decide +kernel
  obtain ⟨hsize, hmembers, hwords, hsets⟩ := hvalues
  have h64 : ∀ i ∈ [64], i < (ofNfa trail).size := by simp [hsize]
  have h65 : ∀ i ∈ [65], i < (ofNfa trail).size := by simp [hsize]
  obtain ⟨-, -, -, -, -, hexact, heq⟩ := closure_exact trail
  exact ⟨h64, h65, (hexact [64] h64).2, hmembers, hwords, (heq [64] [65] h64 h65).1 hsets⟩

end Numbered
end BoardGame
