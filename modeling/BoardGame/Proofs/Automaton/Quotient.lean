import BoardGame.Proofs.Automaton.Wiring
import Mathlib.Data.List.Induction

/-!
# Merging as a quotient

`Edits n n'`: adding states, adding edges between live states and merging live states lead from `n` to
`n'`. The automaton of a pattern is made by such edits (`edits_addFragment`), and no edit makes a
consistent arena inconsistent (`Edits.consistent`). A merge makes one state of two and maps everything
else along `redirect` (`Edits.merge_quotient`).
-/

namespace BoardGame.Nfa
variable {n n₀ n₁ : Nfa} {a b id p q s t : Nat} {l : Label}

/-! ### Edges listed once -/

theorem dedupEdges_eq_eraseDups (es : List Edge) : dedupEdges es = es.eraseDups := by
  induction es using List.reverseRecOn with
  | nil => rfl
  | append_singleton es e ih =>
    rw [dedupEdges, List.foldl_append, List.foldl_cons, List.foldl_nil, List.eraseDups_append, ← ih]
    show insertEdge (dedupEdges es) e = _
    unfold insertEdge
    by_cases he : e ∈ es <;> simp [mem_dedupEdges, he, List.removeAll, List.eraseDups_cons]

theorem nodup_incoming_addEdge (h : (n.incoming q).Nodup) : ((n.addEdge s t l).incoming q).Nodup := by
  unfold incoming at h ⊢
  rw [state?_addEdge]
  cases hq : n.state? q with
  | none => exact List.nodup_nil
  | some x =>
    rw [hq] at h
    simp only [Option.map_some, Option.getD_some] at h ⊢
    split
    · exact nodup_insertEdge h
    · exact h

/-! ### Consistent arenas -/

/-- Every edge is kept at both its ends, each of which is live and lists it once, and so are the start and
the accepting state. -/
structure Consistent (n : Nfa) : Prop where
  mirrored : ∀ p q l, (q, l) ∈ n.outgoing p ↔ (p, l) ∈ n.incoming q
  live : ∀ p q l, (q, l) ∈ n.outgoing p → n.isLive p = true ∧ n.isLive q = true
  nodup_outgoing : ∀ p, (n.outgoing p).Nodup
  nodup_incoming : ∀ p, (n.incoming p).Nodup
  start_live : n.isLive n.start = true
  accept_live : n.isLive n.accept = true

/-- Edits of live states lead from the first automaton to the second one. -/
inductive Edits (n₀ : Nfa) : Nfa → Prop
  | refl : Edits n₀ n₀
  | addState {n : Nfa} (h : Edits n₀ n) : Edits n₀ n.addState.2
  | addEdge {n : Nfa} {s t : StateId} (h : Edits n₀ n) (hs : n.isLive s = true)
      (ht : n.isLive t = true) (l : Label) : Edits n₀ (n.addEdge s t l)
  | merge {n : Nfa} {a b : StateId} (h : Edits n₀ n) (ha : n.isLive a = true)
      (hb : n.isLive b = true) : Edits n₀ (n.merge a b).2

namespace Edits

theorem trans (h : Edits n₀ n₁) (h' : Edits n₁ n) : Edits n₀ n := by
  induction h' with
  | refl => exact h
  | addState _ ih => exact ih.addState
  | addEdge _ hs ht l ih => exact ih.addEdge hs ht l
  | merge _ ha hb ih => exact ih.merge ha hb

theorem addEntry {first : StateId} (h : Edits n₀ n) (hf : n.isLive first = true) :
    Edits n₀ (n.addEntry first).2 := by
  unfold Nfa.addEntry
  split
  · exact h
  · exact h.addState.addEdge (isLive_addState.2 (.inl rfl)) (isLive_addState.2 (.inr hf)) none

theorem linked (h : Edits n₀ n) (h₀ : n₀.Linked) : n.Linked := by
  induction h with
  | refl => exact h₀
  | addState _ ih => exact ih.addState
  | addEdge _ hs ht _ ih => exact ih.addEdge hs ht
  | @merge n a b _ ha hb ih =>
    by_cases hab : a = b
    · rwa [Nfa.merge, if_pos hab]
    · exact ih.merge hab ha hb

theorem distinct (h : Edits n₀ n) (h₀ : n₀.Distinct) : n.Distinct := by
  induction h with
  | refl => exact h₀
  | addState _ ih => exact ih.addState
  | addEdge _ _ _ _ ih => exact ih.addEdge
  | merge _ _ _ ih => exact ih.merge

theorem nodup_incoming (h : Edits n₀ n) (h₀ : ∀ q, (n₀.incoming q).Nodup) (q : StateId) :
    (n.incoming q).Nodup := by
  induction h generalizing q with
  | refl => exact h₀ q
  | addState _ ih =>
    rw [incoming_addState]
    exact ih q
  | addEdge _ _ _ _ ih => exact nodup_incoming_addEdge (ih q)
  | merge _ _ _ ih => exact Kind.incoming.nodup_ends_merge ih q

/-- Of a live start and accepting state, what they become is live. -/
theorem ends_live (h : Edits n₀ n) (hs : n₀.isLive n₀.start = true)
    (ha : n₀.isLive n₀.accept = true) : n.isLive n.start = true ∧ n.isLive n.accept = true := by
  induction h with
  | refl => exact ⟨hs, ha⟩
  | addState _ ih => exact ⟨isLive_addState.2 (.inr ih.1), isLive_addState.2 (.inr ih.2)⟩
  | addEdge _ _ _ _ ih => exact ⟨by rw [isLive_addEdge]; exact ih.1, by rw [isLive_addEdge]; exact ih.2⟩
  | @merge n a b _ _ _ ih =>
    by_cases hab : a = b
    · rwa [Nfa.merge, if_pos hab]
    · have hstart : (n.merge a b).2.start = redirect a b n.arena.size n.start := by
        rw [Nfa.merge, if_neg hab]
      have haccept : (n.merge a b).2.accept = redirect a b n.arena.size n.accept := by
        rw [Nfa.merge, if_neg hab]
      rw [hstart, haccept]
      exact ⟨isLive_merge hab ih.1, isLive_merge hab ih.2⟩

/-- No edit makes a consistent arena inconsistent. -/
theorem consistent (h : Edits n₀ n) (h₀ : n₀.Consistent) : n.Consistent := by
  have hlinked := h.linked fun p q l => (h₀.mirrored p q l).symm
  obtain ⟨hs, ha⟩ := h.ends_live h₀.start_live h₀.accept_live
  exact {
    mirrored := fun p q l => (hlinked p q l).symm
    live := fun p q l he => ⟨isLive_of_mem_outgoing he, hlinked.isLive_right he⟩
    nodup_outgoing := h.distinct h₀.nodup_outgoing
    nodup_incoming := h.nodup_incoming h₀.nodup_incoming
    start_live := hs
    accept_live := ha }

end Edits

/-! ### The automaton of a pattern -/

theorem edits_addFragment (p : Pattern) (hn : n.Linked) : Edits n (n.addFragment p).2 := by
  induction p generalizing n with
  | step s =>
    have hfirst : n.addState.2.addState.2.isLive n.arena.size = true :=
      isLive_addState.2 (.inr (isLive_addState.2 (.inl rfl)))
    exact Edits.refl.addState.addState.addEdge hfirst (isLive_addState.2 (.inl rfl)) (some s)
  | concat left right ihl ihr =>
    have hl := grows_addFragment left hn
    have hr := grows_addFragment right hl.linked
    exact ((ihl hn).trans (ihr hl.linked)).merge (hr.ext.isLive hl.last_live) hr.first_live
  | union left right ihl ihr =>
    have hl := grows_addFragment left hn
    have hr := grows_addFragment right hl.linked
    have hm := forks_addEdge hr.linked (hr.ext.isLive hl.first_live) hr.first_live
    have hfirst := isLive_addState.2 (.inr (hr.ext.isLive hl.first_live))
    have hfork := ((ihl hn).trans (ihr hl.linked)).addState.addEdge (isLive_addState.2 (.inl rfl))
      hfirst none
    have hfork := hfork.addEdge (by rw [isLive_addEdge]; exact isLive_addState.2 (.inl rfl))
      (by rw [isLive_addEdge]; exact isLive_addState.2 (.inr hr.first_live)) none
    exact hfork.merge ((hm.live_iff _).2 (.inr (hr.ext.isLive hl.last_live)))
      ((hm.live_iff _).2 (.inr hr.last_live))
  | star inner ih =>
    have hi := grows_addFragment inner hn
    have hlast : (n.addFragment inner).2.addState.2.isLive (n.addFragment inner).1.last = true :=
      isLive_addState.2 (.inr hi.last_live)
    have hexit := (ih hn).addState.addEdge hlast (isLive_addState.2 (.inl rfl)) none
    have hentry := hexit.addEntry (by rw [isLive_addEdge]; exact isLive_addState.2 (.inr hi.first_live))
    unfold addFragment
    refine hentry.merge ((hi.entry_star.live_iff _).2 (.inl rfl)) ((hi.entry_star.live_iff _).2 (.inr ?_))
    rwa [isLive_addEdge]
  | plus inner ih =>
    have hi := grows_addFragment inner hn
    have hlast : (n.addFragment inner).2.addState.2.isLive (n.addFragment inner).1.last = true :=
      isLive_addState.2 (.inr hi.last_live)
    have hback := (ih hn).addState.addEdge hlast (isLive_addState.2 (.inr hi.first_live)) none
    exact hback.addEdge (by rwa [isLive_addEdge])
      (by rw [isLive_addEdge]; exact isLive_addState.2 (.inl rfl)) none
  | optional inner ih =>
    have hi := grows_addFragment inner hn
    have he := entry_addEntry hi.linked hi.first_live
    exact ((ih hn).addEntry hi.first_live).addEdge ((he.live_iff _).2 (.inl rfl))
      ((he.live_iff _).2 (.inr hi.last_live)) none

theorem consistent_ofPattern (p : Pattern) : (ofPattern p).Consistent := by
  have hedits := edits_addFragment p linked_empty
  have hg := grows_ofPattern p
  exact {
    mirrored := fun p q l => (hg.linked p q l).symm
    live := fun p q l he => ⟨isLive_of_mem_outgoing he, hg.linked.isLive_right he⟩
    nodup_outgoing := hedits.distinct distinct_empty
    nodup_incoming := hedits.nodup_incoming fun q => by
      rw [incoming_of_size_le (Nat.zero_le q)]
      exact List.nodup_nil
    start_live := hg.first_live
    accept_live := hg.last_live }

/-! ### Merging two states -/

/-- The edges between states, each with what it reads. -/
def edges (n : Nfa) : Set (StateId × Label × StateId) := {e | (e.2.2, e.2.1) ∈ n.outgoing e.1}

/-- `n'` is `n` with `a` and `b` made one: the new state `m`, which no edge of `n` knows. Everything else
is what it was, up to this one name. -/
structure Fuses (n : Nfa) (a b m : StateId) (n' : Nfa) : Prop where
  fresh : n.arena.size ≤ m
  size_eq : n'.arena.size = m + 1
  live_iff : ∀ id, n'.isLive id = true ↔ id = m ∨ n.isLive id = true ∧ id ≠ a ∧ id ≠ b
  edges_eq : n'.edges = (fun e => (redirect a b m e.1, e.2.1, redirect a b m e.2.2)) '' n.edges
  start_eq : n'.start = redirect a b m n.start
  accept_eq : n'.accept = redirect a b m n.accept
  outgoing_eq : ∀ p, n.isLive p = true → p ≠ a → p ≠ b →
    n'.outgoing p = (redirectEdges a b m (n.outgoing p)).eraseDups
  incoming_eq : ∀ q, n.isLive q = true → q ≠ a → q ≠ b →
    n'.incoming q = (redirectEdges a b m (n.incoming q)).eraseDups

theorem isLive_merge_iff (hab : a ≠ b) : (n.merge a b).2.isLive id = true ↔
    id = n.arena.size ∨ n.isLive id = true ∧ id ≠ a ∧ id ≠ b := by
  rw [isLive, state?_merge hab]
  split
  · simp [*]
  split
  · simp only [Option.isSome_none, Bool.false_eq_true, false_iff]
    tauto
  split <;> simp_all [isLive]

theorem Consistent.fuses_merge (h : n.Consistent) (hab : a ≠ b) (ha : n.isLive a = true)
    (hb : n.isLive b = true) : Fuses n a b (n.merge a b).1 (n.merge a b).2 := by
  have hlinked : n.Linked := fun p q l => (h.mirrored p q l).symm
  rw [fst_merge hab]
  exact {
    fresh := Nat.le_refl _
    size_eq := size_merge hab
    live_iff := fun _ => isLive_merge_iff hab
    edges_eq := by
      ext ⟨p, l, q⟩
      refine (mem_outgoing_merge hlinked hab ha hb).trans ⟨?_, ?_⟩
      · rintro ⟨p', q', he, rfl, rfl⟩
        exact ⟨(p', l, q'), he, rfl⟩
      · rintro ⟨⟨p', l', q'⟩, he, heq⟩
        obtain ⟨rfl, rfl, rfl⟩ := Prod.mk.injEq .. ▸ heq
        exact ⟨p', q', he, rfl, rfl⟩
    start_eq := by rw [merge, if_neg hab]
    accept_eq := by rw [merge, if_neg hab]
    outgoing_eq := fun p hp hpa hpb => by
      rw [← dedupEdges_eq_eraseDups]
      exact Kind.outgoing.ends_merge_of_ne hab hpa hpb (Nat.ne_of_lt (lt_size_of_isLive hp))
        (h.nodup_outgoing p) fun _ _ => hlinked.mem_neighbours_of_outgoing hpa hpb
    incoming_eq := fun q hq hqa hqb => by
      rw [← dedupEdges_eq_eraseDups]
      exact Kind.incoming.ends_merge_of_ne hab hqa hqb (Nat.ne_of_lt (lt_size_of_isLive hq))
        (h.nodup_incoming q) fun _ _ => hlinked.mem_neighbours_of_incoming hqa hqb }

/-- Whatever edits follow the automaton of a pattern, it stays consistent, and to merge two of its states
is to take its quotient. -/
theorem Edits.merge_quotient {pattern : Pattern} (h : Edits (ofPattern pattern) n) :
    n.Consistent ∧ ∀ a b, n.isLive a = true → n.isLive b = true → a ≠ b →
      Fuses n a b (n.merge a b).1 (n.merge a b).2 := by
  have hn := h.consistent (consistent_ofPattern pattern)
  exact ⟨hn, fun a b ha hb hab => hn.fuses_merge hab ha hb⟩

/-- Two edges from the start that read the same step, to states of their own. -/
def parallel (s : Step) : Nfa := (ofPattern (.step s)).addState.2.addEdge 0 2 (some s)

theorem Edits.merge_quotient_parallel : let s : Step := ⟨1, 0, .var "empty", none⟩
    (parallel s).outgoing 0 = [(1, some s), (2, some s)] ∧
      ((parallel s).merge 1 2).2.outgoing 0 = [(3, some s)] ∧
      ((parallel s).merge 1 2).2.isLive 1 = false ∧ ((parallel s).merge 1 2).2.Consistent := by
  intro s
  have hedits : Edits (ofPattern (.step s)) (parallel s) :=
    Edits.refl.addState.addEdge (by decide) (by decide) (some s)
  have hfuse := (Edits.merge_quotient hedits).2 1 2 (by decide) (by decide) (by decide)
  have hmerged := Edits.merge_quotient (hedits.merge (a := 1) (b := 2) (by decide) (by decide))
  refine ⟨by decide, ?_, ?_, hmerged.1⟩
  · rw [hfuse.outgoing_eq 0 (by decide) (by decide) (by decide)]
    decide
  · rw [Bool.eq_false_iff, Ne, hfuse.live_iff]
    rintro (hm | ⟨-, hne, -⟩)
    · exact absurd hm (by decide)
    · exact hne rfl

end BoardGame.Nfa
