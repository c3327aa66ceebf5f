import BoardGame.Proofs.Automaton.Edges
import Mathlib.Algebra.BigOperators.Group.Finset.Basic
import Mathlib.Algebra.Order.BigOperators.Group.Finset

/-!
# Numbered automata and closures under empty edges

`Nfa.Walks` and `Numbered.Closes` are the walk and the closure without a bound on their steps: a
derivation is a run that ends. The bounds that the definitions carry are never reached
(`walks_walk`, `closureOf_closure`). The numbered automaton has the paths of the one it was made
from, up to the numbers (`path_number_iff`), and a closure is what empty edges lead to
(`ClosureOf.contains_iff`).
-/

namespace BoardGame

/-! ### The walk -/

namespace Nfa
variable {n : Nfa} {order stack result : List StateId} {id : StateId}

/-- A walk that has met `order` and is still to visit `stack` ends with `result`. -/
inductive Walks (n : Nfa) : List StateId → List StateId → List StateId → Prop
  | done (order : List StateId) : Walks n order [] order
  | seen {order stack result : List StateId} {id : StateId} (hid : id ∈ order)
      (h : Walks n order stack result) : Walks n order (id :: stack) result
  | fresh {order stack result : List StateId} {id : StateId} (hid : id ∉ order)
      (h : Walks n (order ++ [id])
        (((n.outgoing id).map Prod.fst).filter (· ∉ order ++ [id]) ++ stack) result) :
      Walks n order (id :: stack) result

/-- The number of edges that leave states not met yet. -/
def unread (n : Nfa) (order : List StateId) : Nat :=
  ∑ id ∈ Finset.range n.arena.size \ order.toFinset, (n.outgoing id).length

theorem unread_append (h : id ∉ order) :
    n.unread (order ++ [id]) + (n.outgoing id).length ≤ n.unread order := by
  have herase : Finset.range n.arena.size \ (order ++ [id]).toFinset =
      (Finset.range n.arena.size \ order.toFinset).erase id := by
    ext x
    simp only [Finset.mem_sdiff, Finset.mem_erase, List.mem_toFinset, List.mem_append,
      List.mem_singleton, not_or]
    exact ⟨fun ⟨h₁, h₂, h₃⟩ => ⟨h₃, h₁, h₂⟩, fun ⟨h₁, h₂, h₃⟩ => ⟨h₂, h₃, h₁⟩⟩
  rw [unread, unread, herase]
  by_cases hid : id < n.arena.size
  · have hmem : id ∈ Finset.range n.arena.size \ order.toFinset :=
      Finset.mem_sdiff.2 ⟨Finset.mem_range.2 hid, mt List.mem_toFinset.1 h⟩
    rw [Finset.sum_erase_add _ _ hmem]
  · rw [outgoing_of_size_le (Nat.not_lt.1 hid), List.length_nil, Nat.add_zero]
    exact Finset.sum_le_sum_of_subset (Finset.erase_subset _ _)

theorem walks_walkFrom {fuel : Nat} (h : stack.length + n.unread order ≤ fuel) :
    n.Walks order stack (n.walkFrom fuel order stack) := by
  induction fuel generalizing order stack with
  | zero =>
    obtain rfl : stack = [] := List.length_eq_zero_iff.1 (by omega)
    exact .done order
  | succ fuel ih =>
    cases stack with
    | nil => exact .done order
    | cons id stack =>
      rw [List.length_cons] at h
      rw [walkFrom]
      split
      · rename_i hid
        exact .seen hid (ih (by omega))
      · rename_i hid
        refine .fresh hid (ih ?_)
        have hu := unread_append (n := n) hid
        have hf := List.length_filter_le (· ∉ order ++ [id]) ((n.outgoing id).map Prod.fst)
        rw [List.length_map] at hf
        rw [List.length_append]
        omega

theorem walks_walk (n : Nfa) : n.Walks [] [n.start] n.walk := by
  refine walks_walkFrom ?_
  have h : n.unread [] =
      ((List.range n.arena.size).map fun id => (n.outgoing id).length).foldr (· + ·) 0 := by
    rw [unread, List.toFinset_nil, Finset.sdiff_empty]
    rfl
  rw [h, walkBound, List.length_singleton]
  omega

namespace Walks

theorem nodup (h : n.Walks order stack result) (ho : order.Nodup) : result.Nodup := by
  induction h with
  | done => exact ho
  | seen _ _ ih => exact ih ho
  | fresh hid _ ih =>
    refine ih (List.nodup_append.2 ⟨ho, List.nodup_singleton _, fun x hx y hy => ?_⟩)
    obtain rfl := List.mem_singleton.1 hy
    exact ne_of_mem_of_not_mem hx hid

theorem order_prefix (h : n.Walks order stack result) : order <+: result := by
  induction h with
  | done => exact List.prefix_rfl
  | seen _ _ ih => exact ih
  | fresh _ _ ih => exact (List.prefix_append _ _).trans ih

theorem mem_of_mem_stack (h : n.Walks order stack result) (hid : id ∈ stack) : id ∈ result := by
  induction h with
  | done => cases hid
  | seen hmem h ih =>
    rcases List.mem_cons.1 hid with rfl | hid
    · exact h.order_prefix.subset hmem
    · exact ih hid
  | fresh _ h ih =>
    rcases List.mem_cons.1 hid with rfl | hid
    · exact h.order_prefix.subset (by simp)
    · exact ih (List.mem_append_right _ hid)

/-- Where every edge from `order` leads to `order` or to `stack`, every edge from the result leads
to the result. -/
theorem closed (h : n.Walks order stack result)
    (ho : ∀ p ∈ order, ∀ e ∈ n.outgoing p, e.1 ∈ order ∨ e.1 ∈ stack) :
    ∀ p ∈ result, ∀ e ∈ n.outgoing p, e.1 ∈ result := by
  induction h with
  | done => exact fun p hp e he => (ho p hp e he).resolve_right List.not_mem_nil
  | seen hid _ ih =>
    refine ih fun p hp e he => ?_
    rcases ho p hp e he with h | h
    · exact .inl h
    · rcases List.mem_cons.1 h with h | h
      · exact .inl (h ▸ hid)
      · exact .inr h
  | @fresh order stack _ id _ _ ih =>
    refine ih fun p hp e he => ?_
    by_cases hmem : e.1 ∈ order ++ [id]
    · exact .inl hmem
    refine .inr ?_
    rcases List.mem_append.1 hp with hp | hp
    · rcases ho p hp e he with h | h
      · exact absurd (List.mem_append_left _ h) hmem
      · rcases List.mem_cons.1 h with h | h
        · exact absurd (by simp [h]) hmem
        · exact List.mem_append_right _ h
    · obtain rfl := List.mem_singleton.1 hp
      exact List.mem_append_left _
        (List.mem_filter.2 ⟨List.mem_map_of_mem he, decide_eq_true hmem⟩)

end Walks

theorem nodup_walk (n : Nfa) : n.walk.Nodup := n.walks_walk.nodup List.nodup_nil

theorem start_mem_walk (n : Nfa) : n.start ∈ n.walk :=
  n.walks_walk.mem_of_mem_stack (List.mem_singleton_self _)

theorem mem_walk_of_edge {p : StateId} {e : Edge} (hp : p ∈ n.walk) (he : e ∈ n.outgoing p) :
    e.1 ∈ n.walk :=
  n.walks_walk.closed (fun _ h => absurd h List.not_mem_nil) p hp e he

theorem mem_walk_of_path {p q : StateId} {w : List Step} (hp : p ∈ n.walk)
    (h : Path n.outgoing p w q) : q ∈ n.walk := by
  induction h with
  | nil => exact hp
  | silent he _ ih => exact ih (n.mem_walk_of_edge hp he)
  | step he _ ih => exact ih (n.mem_walk_of_edge hp he)

theorem idxOf_start (n : Nfa) : n.walk.idxOf n.start = 0 := by
  have h : [n.start] <+: n.walk := by
    cases n.walks_walk with
    | seen h _ => cases h
    | fresh _ h => exact h.order_prefix
  obtain ⟨rest, h⟩ := h
  rw [← h]
  simp

end Nfa

/-! ### Numbers -/

namespace Numbered
open Nfa (Edge Path)
variable {n : Nfa} {m : Numbered} {p q : StateId} {i j : Nat} {w : List Step}

/-- Every edge leads to a number of a state. -/
def Bounded (m : Numbered) : Prop := ∀ i, ∀ e ∈ m.outgoing i, e.1 < m.size

theorem size_ofNfa (n : Nfa) : (ofNfa n).size = n.walk.length := by
  rw [size, ofNfa, List.size_toArray]

/-- The start has a number. -/
theorem size_pos (n : Nfa) : 0 < (ofNfa n).size := by
  rw [size_ofNfa]
  exact List.length_pos_of_mem n.start_mem_walk

theorem number_ofNfa (n : Nfa) (p : StateId) : (ofNfa n).number p = n.walk.idxOf p := rfl

theorem outgoing_ofNfa (n : Nfa) (i : Nat) : (ofNfa n).outgoing i =
    ((n.walk[i]?).map fun p => (n.outgoing p).map fun e => (n.walk.idxOf e.1, e.2)).getD [] := by
  rw [outgoing, ofNfa, Array.getD_eq_getD_getElem?, List.getElem?_toArray, List.getElem?_map]

/-- An edge between numbers is the image of an edge between the states that have them. -/
theorem mem_outgoing_ofNfa {l : Nfa.Label} : (j, l) ∈ (ofNfa n).outgoing i ↔
    ∃ p q, n.walk[i]? = some p ∧ (q, l) ∈ n.outgoing p ∧ n.walk[j]? = some q := by
  rw [outgoing_ofNfa]
  cases hp : n.walk[i]? with
  | none => simp
  | some p =>
    have hmem := List.mem_of_getElem? hp
    simp only [Option.map_some, Option.getD_some, List.mem_map, Prod.mk.injEq, Option.some.injEq]
    constructor
    · rintro ⟨⟨q, l⟩, he, rfl, rfl⟩
      exact ⟨p, q, rfl, he, List.getElem?_idxOf (n.mem_walk_of_edge hmem he)⟩
    · rintro ⟨_, q, rfl, he, hq⟩
      obtain ⟨hlt, rfl⟩ := List.getElem?_eq_some_iff.1 hq
      exact ⟨_, he, n.nodup_walk.idxOf_getElem j hlt, rfl⟩

theorem bounded_ofNfa (n : Nfa) : (ofNfa n).Bounded := by
  intro i ⟨j, l⟩ he
  obtain ⟨-, q, -, -, hq⟩ := mem_outgoing_ofNfa.1 he
  rw [size_ofNfa]
  exact (List.getElem?_eq_some_iff.1 hq).1

theorem Bounded.path_lt (hm : m.Bounded) (hi : i < m.size) (h : Path m.outgoing i w j) :
    j < m.size := by
  induction h with
  | nil => exact hi
  | silent he _ ih => exact ih (hm _ _ he)
  | step he _ ih => exact ih (hm _ _ he)

theorem path_ofNfa_iff (hp : n.walk[i]? = some p) (hq : n.walk[j]? = some q) :
    Path (ofNfa n).outgoing i w j ↔ Path n.outgoing p w q := by
  have hi := (List.getElem?_eq_some_iff.1 hp).1
  constructor
  · intro h
    have he : ∀ i j l, (j, l) ∈ (ofNfa n).outgoing i →
        ((n.walk[j]?).getD 0, l) ∈ n.outgoing ((n.walk[i]?).getD 0) := by
      intro i j l he
      obtain ⟨p, q, hp, he, hq⟩ := mem_outgoing_ofNfa.1 he
      rwa [hp, hq]
    have := h.map _ he
    rwa [hp, hq] at this
  · intro h
    induction h generalizing i with
    | nil =>
      have := (List.getElem?_inj hi n.nodup_walk).1 (hp.trans hq.symm)
      rw [this]
      exact .nil j
    | @silent _ r _ _ he _ ih =>
      have hr := List.getElem?_idxOf (n.mem_walk_of_edge (List.mem_of_getElem? hp) he)
      exact .silent (mem_outgoing_ofNfa.2 ⟨_, r, hp, he, hr⟩)
        (ih hr hq (List.getElem?_eq_some_iff.1 hr).1)
    | @step _ r _ _ _ he _ ih =>
      have hr := List.getElem?_idxOf (n.mem_walk_of_edge (List.mem_of_getElem? hp) he)
      exact .step (mem_outgoing_ofNfa.2 ⟨_, r, hp, he, hr⟩)
        (ih hr hq (List.getElem?_eq_some_iff.1 hr).1)

/-- Paths from the start lead to the same states, a state that is not reachable having no number. -/
theorem path_number_iff (n : Nfa) (w : List Step) (q : StateId) :
    Path (ofNfa n).outgoing 0 w ((ofNfa n).number q) ↔ Path n.outgoing n.start w q := by
  have hs : n.walk[0]? = some n.start := by
    rw [← n.idxOf_start]
    exact List.getElem?_idxOf n.start_mem_walk
  by_cases hq : q ∈ n.walk
  · exact path_ofNfa_iff hs (List.getElem?_idxOf hq)
  constructor
  · intro h
    have hlt := (bounded_ofNfa n).path_lt (size_pos n) h
    rw [number_ofNfa, size_ofNfa] at hlt
    exact absurd (List.idxOf_lt_length_iff.1 hlt) hq
  · exact fun h => absurd (n.mem_walk_of_path n.start_mem_walk h) hq

theorem exists_path_iff (n : Nfa) (w : List Step) :
    (∃ j, Path (ofNfa n).outgoing 0 w j) ↔ ∃ x, Path n.outgoing n.start w x := by
  constructor
  · rintro ⟨j, hj⟩
    have hlt := (bounded_ofNfa n).path_lt (size_pos n) hj
    rw [size_ofNfa] at hlt
    have hnum : (ofNfa n).number n.walk[j] = j := n.nodup_walk.idxOf_getElem j hlt
    exact ⟨n.walk[j], (path_number_iff n w _).1 (hnum ▸ hj)⟩
  · rintro ⟨x, hx⟩
    exact ⟨_, (path_number_iff n w x).2 hx⟩

/-- Two words lead to the same numbers from the start if they lead to the same states. -/
theorem path_congr_iff (n : Nfa) (u v : List Step) :
    (∀ j < (ofNfa n).size, Path (ofNfa n).outgoing 0 u j ↔ Path (ofNfa n).outgoing 0 v j) ↔
      ∀ x, Path n.outgoing n.start u x ↔ Path n.outgoing n.start v x := by
  have hlt : ∀ {w j}, Path (ofNfa n).outgoing 0 w j → j < (ofNfa n).size :=
    fun h => (bounded_ofNfa n).path_lt (size_pos n) h
  constructor
  · intro h x
    rw [← path_number_iff, ← path_number_iff]
    exact ⟨fun hu => (h _ (hlt hu)).1 hu, fun hv => (h _ (hlt hv)).2 hv⟩
  · intro h j hj
    rw [size_ofNfa] at hj
    have hnum : (ofNfa n).number n.walk[j] = j := n.nodup_walk.idxOf_getElem j hj
    have := h n.walk[j]
    rwa [← path_number_iff, ← path_number_iff, hnum] at this

/-! ### Closures under empty edges -/

section
variable {set : StateSet m.size} {is members stack seeds : List Nat}
  {r : StateSet m.size × List Nat}

theorem contains_addFresh (h : ∀ i ∈ is, i < m.size) :
    (addFresh set is).1.contains j = true ↔ set.contains j = true ∨ j ∈ is := by
  induction is generalizing set with
  | nil => simp [addFresh]
  | cons i is ih =>
    have his := fun j hj => h j (List.mem_cons_of_mem i hj)
    rw [addFresh]
    split
    · rename_i hi
      rw [ih his, List.mem_cons]
      constructor
      · exact fun h => h.imp_right .inr
      · rintro (h | rfl | h)
        exacts [.inl h, .inl hi, .inr h]
    · simp only [ih his, StateSet.contains_insert _ (h i (List.mem_cons_self ..)), Bool.or_eq_true,
        decide_eq_true_eq, List.mem_cons]
      rw [or_comm (a := i = j), or_assoc, eq_comm (a := i)]

theorem mem_addFresh : j ∈ (addFresh set is).2 ↔ j ∈ is ∧ set.contains j = false := by
  induction is generalizing set with
  | nil => simp [addFresh]
  | cons i is ih =>
    rw [addFresh]
    by_cases hij : j = i
    · subst hij
      split <;> simp_all
    · split <;> simp [ih, hij, StateSet.contains_insert_of_ne _ (Ne.symm hij)]

/-- What is added to the set is added to the list of its members. -/
theorem mem_append_addFresh (h : ∀ i ∈ is, i < m.size)
    (hmem : ∀ i, i ∈ members ↔ set.contains i = true) (i : Nat) :
    i ∈ members ++ (addFresh set is).2 ↔ (addFresh set is).1.contains i = true := by
  rw [List.mem_append, hmem, mem_addFresh, contains_addFresh h]
  cases set.contains i <;> simp

theorem mem_silent : j ∈ m.silent i ↔ (j, none) ∈ m.outgoing i := by
  simp only [silent, List.mem_filterMap, Prod.exists]
  constructor
  · rintro ⟨q, l, he, hj⟩
    cases l with
    | none => cases hj; exact he
    | some s => cases hj
  · exact fun h => ⟨j, none, h, rfl⟩

/-- Closing `set` with `stack` still to be expanded ends with `r`, and what is added has a place in
the set. -/
inductive Closes (m : Numbered) :
    StateSet m.size → List Nat → List Nat → StateSet m.size × List Nat → Prop
  | done (set : StateSet m.size) (members : List Nat) : Closes m set members [] (set, members)
  | expand {set : StateSet m.size} {members stack : List Nat} {i : Nat}
      {r : StateSet m.size × List Nat} (hi : ∀ j ∈ m.silent i, j < m.size)
      (h : Closes m (addFresh set (m.silent i)).1 (members ++ (addFresh set (m.silent i)).2)
        ((addFresh set (m.silent i)).2.reverse ++ stack) r) :
      Closes m set members (i :: stack) r

/-- How many numbers are not in the set. -/
def missing (m : Numbered) (set : StateSet m.size) : Nat :=
  ((Finset.range m.size).filter fun i => set.contains i = false).card

theorem missing_insert (hi : i < m.size) (h : set.contains i = false) :
    m.missing (set.insert i) + 1 = m.missing set := by
  have hmem : i ∈ (Finset.range m.size).filter fun i => set.contains i = false :=
    Finset.mem_filter.2 ⟨Finset.mem_range.2 hi, h⟩
  rw [missing, missing, ← Finset.card_erase_add_one hmem]
  congr 2
  ext j
  simp only [Finset.mem_filter, Finset.mem_erase, StateSet.contains_insert _ hi,
    Bool.or_eq_false_iff, decide_eq_false_iff_not]
  exact ⟨fun ⟨h₁, h₂, h₃⟩ => ⟨Ne.symm h₂, h₁, h₃⟩, fun ⟨h₁, h₂, h₃⟩ => ⟨h₂, Ne.symm h₁, h₃⟩⟩

theorem missing_addFresh (set : StateSet m.size) (h : ∀ i ∈ is, i < m.size) :
    m.missing (addFresh set is).1 + (addFresh set is).2.length = m.missing set := by
  induction is generalizing set with
  | nil => rfl
  | cons i is ih =>
    have his := fun j hj => h j (List.mem_cons_of_mem i hj)
    rw [addFresh]
    split
    · exact ih set his
    · rename_i hi
      rw [← missing_insert (h i (List.mem_cons_self ..)) (Bool.eq_false_of_not_eq_true hi),
        ← ih (set.insert i) his]
      rfl

theorem closes_closeFrom (hm : m.Bounded) {fuel : Nat} (h : stack.length + m.missing set ≤ fuel) :
    m.Closes set members stack (m.closeFrom fuel set members stack) := by
  induction fuel generalizing set members stack with
  | zero =>
    obtain rfl : stack = [] := List.length_eq_zero_iff.1 (by omega)
    exact .done set members
  | succ fuel ih =>
    cases stack with
    | nil => exact .done set members
    | cons i stack =>
      have hsilent : ∀ j ∈ m.silent i, j < m.size := fun j hj => hm i _ (mem_silent.1 hj)
      refine .expand hsilent (ih ?_)
      have hf := missing_addFresh set hsilent
      rw [List.length_append, List.length_reverse]
      rw [List.length_cons] at h
      omega

/-- Empty edges do not leave the set. -/
def Closed (m : Numbered) (set : StateSet m.size) : Prop :=
  ∀ i, set.contains i = true → ∀ j, (j, none) ∈ m.outgoing i → set.contains j = true

theorem Closed.path (hc : m.Closed set) (hi : set.contains i = true)
    (h : Path m.outgoing i [] j) : set.contains j = true := by
  generalize hw : ([] : List Step) = w at h
  induction h with
  | nil => exact hi
  | silent he _ ih => exact ih (hc _ hi _ he) hw
  | step => cases hw

theorem contains_gather (h : ∀ i ∈ seeds, i < m.size) :
    (m.gather seeds).1.contains j = true ↔ j ∈ seeds := by
  rw [gather, contains_addFresh h]
  simp

theorem mem_gather : j ∈ (m.gather seeds).2 ↔ j ∈ seeds := by
  rw [gather, mem_addFresh]
  simp

namespace Closes

theorem mem_iff (h : m.Closes set members stack r)
    (hmem : ∀ i, i ∈ members ↔ set.contains i = true) (i : Nat) : i ∈ r.2 ↔ r.1.contains i = true := by
  induction h with
  | done => exact hmem i
  | expand hk _ ih => exact ih (mem_append_addFresh hk hmem)

theorem mono (h : m.Closes set members stack r) (hi : set.contains i = true) :
    r.1.contains i = true := by
  induction h with
  | done => exact hi
  | expand hk _ ih => exact ih ((contains_addFresh hk).2 (.inl hi))

/-- What the stack does not hold has been expanded. -/
theorem closed (h : m.Closes set members stack r)
    (hs : ∀ i, set.contains i = true → i ∉ stack → ∀ j, (j, none) ∈ m.outgoing i →
      set.contains j = true) : m.Closed r.1 := by
  induction h with
  | done => exact fun i hi => hs i hi List.not_mem_nil
  | @expand set _ stack k _ hk _ ih =>
    refine ih fun i hi hns j he => ?_
    rw [List.mem_append, List.mem_reverse, mem_addFresh, not_or, not_and] at hns
    refine (contains_addFresh hk).2 ?_
    by_cases hik : i = k
    · exact .inr (mem_silent.2 (hik ▸ he))
    by_cases hset : set.contains i = true
    · exact .inl (hs i hset (fun hmem => (List.mem_cons.1 hmem).elim hik hns.2) j he)
    · have hmem := ((contains_addFresh hk).1 hi).resolve_left hset
      exact absurd (Bool.eq_false_of_not_eq_true hset) (hns.1 hmem)

theorem exists_path (h : m.Closes set members stack r)
    (hs : ∀ i ∈ stack, set.contains i = true) (hj : r.1.contains j = true) :
    ∃ i, set.contains i = true ∧ Path m.outgoing i [] j := by
  induction h with
  | done => exact ⟨j, hj, .nil j⟩
  | @expand set _ stack k _ hk _ ih =>
    obtain ⟨i, hi, hp⟩ := ih (fun i hi => (contains_addFresh hk).2 <| by
      rcases List.mem_append.1 hi with hi | hi
      · exact .inr (mem_addFresh.1 (List.mem_reverse.1 hi)).1
      · exact .inl (hs i (List.mem_cons_of_mem _ hi))) hj
    rcases (contains_addFresh hk).1 hi with hi | hi
    · exact ⟨i, hi, hp⟩
    · exact ⟨k, hs k (List.mem_cons_self ..), .silent (mem_silent.1 hi) hp⟩

end Closes

/-- `c` is the closure of `seeds`, which are numbers of states, as a set and as a list. -/
structure ClosureOf (m : Numbered) (seeds : List Nat) (c : StateSet m.size × List Nat) : Prop where
  seeds_lt : ∀ i ∈ seeds, i < m.size
  closes : m.Closes (m.gather seeds).1 (m.gather seeds).2 (m.gather seeds).2.reverse c

theorem closureOf_closure (hm : m.Bounded) (hs : ∀ i ∈ seeds, i < m.size) :
    m.ClosureOf seeds (m.closure seeds) := by
  refine ⟨hs, closes_closeFrom hm ?_⟩
  have hf : m.missing (m.gather seeds).1 + (m.gather seeds).2.length = m.missing .empty :=
    missing_addFresh .empty hs
  have he : m.missing .empty ≤ m.size :=
    (Finset.card_filter_le _ _).trans (Finset.card_range m.size).le
  rw [List.length_reverse]
  omega

namespace ClosureOf

theorem mem_iff (h : m.ClosureOf seeds r) : j ∈ r.2 ↔ r.1.contains j = true :=
  h.closes.mem_iff (fun _ => mem_gather.trans (contains_gather h.seeds_lt).symm) j

theorem closed (h : m.ClosureOf seeds r) : m.Closed r.1 :=
  h.closes.closed fun _ hi hns =>
    absurd (List.mem_reverse.2 (mem_gather.2 ((contains_gather h.seeds_lt).1 hi))) hns

/-- A closure holds what empty edges lead to from the seeds. -/
theorem contains_iff (h : m.ClosureOf seeds r) :
    r.1.contains j = true ↔ ∃ i ∈ seeds, Path m.outgoing i [] j := by
  constructor
  · intro hj
    obtain ⟨i, hi, hp⟩ := h.closes.exists_path (fun i hi =>
      (contains_gather h.seeds_lt).2 (mem_gather.1 (List.mem_reverse.1 hi))) hj
    exact ⟨i, (contains_gather h.seeds_lt).1 hi, hp⟩
  · rintro ⟨i, hi, hp⟩
    exact h.closed.path (h.closes.mono ((contains_gather h.seeds_lt).2 hi)) hp

theorem lt_size (h : m.ClosureOf seeds r) (hm : m.Bounded) (hj : r.1.contains j = true) :
    j < m.size := by
  obtain ⟨i, hi, hp⟩ := h.contains_iff.1 hj
  exact hm.path_lt (h.seeds_lt i hi) hp

end ClosureOf
end

end Numbered
end BoardGame
