import BoardGame.Proofs.Automaton.Fragment
import BoardGame.Proofs.Automaton.Letters

/-!
# The edges of an automaton in order

A wiring lists the states of a part with their edges in order. `p.Wired w`: the pattern `p` is wired as
`w` says, which the names of the states play no part in (`Wired.map`). The part that is added for a
pattern is wired so (`Nfa.exists_lays_addFragment`): where states are merged, the edges keep their order,
and those of the first one come first.
-/

namespace BoardGame
open Nfa (Edge Label mapEdges)

/-! ### Wirings -/

/-- A part of an automaton: its first state with its edges, its last state, which no edge leaves, the
states in between with their edges, and where each step leads, from left to right. -/
structure Wiring where
  first : StateId
  last : StateId
  edges : List Edge
  inner : List (StateId × List Edge)
  arcs : List (Step × StateId)

namespace Wiring
variable {w : Wiring} {f : StateId → StateId}

/-- The states that edges leave. -/
def table (w : Wiring) : List (StateId × List Edge) := (w.first, w.edges) :: w.inner

def rename (f : StateId → StateId) (T : List (StateId × List Edge)) : List (StateId × List Edge) :=
  T.map fun e => (f e.1, mapEdges f e.2)

theorem rename_append (f : StateId → StateId) (T T' : List (StateId × List Edge)) :
    rename f (T ++ T') = rename f T ++ rename f T' := List.map_append

/-- The same part with other names for the states. -/
def map (f : StateId → StateId) (w : Wiring) : Wiring where
  first := f w.first
  last := f w.last
  edges := mapEdges f w.edges
  inner := rename f w.inner
  arcs := w.arcs.map fun a => (a.1, f a.2)

end Wiring

/-- The pattern begins with a repetition, so its first state is entered again. -/
def Pattern.startsWithLoop : Pattern → Bool
  | step _ | union _ _ | optional _ => false
  | concat left _ => left.startsWithLoop
  | star _ | plus _ => true

/-- The parts for a pattern. That of a repetition goes back to its first state, and a shortcut goes from
its first state to its last one. If the first state is entered again, either has an entry before it. -/
inductive Pattern.Wired : Pattern → Wiring → Prop
  | step (s : Step) (first last : StateId) :
      Wired (.step s) ⟨first, last, [(last, some s)], [], [(s, last)]⟩
  | concat {left right : Pattern} {l r : Wiring} (hl : left.Wired l) (hr : right.Wired r)
      (h : l.last = r.first) :
      Wired (.concat left right) ⟨l.first, r.last, l.edges, l.inner ++ r.table, l.arcs ++ r.arcs⟩
  | union {left right : Pattern} {l r : Wiring} (hl : left.Wired l) (hr : right.Wired r)
      (h : l.last = r.last) (first : StateId) :
      Wired (.union left right) ⟨first, r.last, [(l.first, none), (r.first, none)],
        l.table ++ r.table, l.arcs ++ r.arcs⟩
  | star {inner : Pattern} {i : Wiring} (hi : inner.Wired i) (h : i.last = i.first)
      (hloop : inner.startsWithLoop = false) (last : StateId) :
      Wired (.star inner) ⟨i.first, last, i.edges ++ [(last, none)], i.inner, i.arcs⟩
  | starEntry {inner : Pattern} {i : Wiring} (hi : inner.Wired i) (last : StateId) :
      Wired (.star inner) ⟨i.last, last, [(i.first, none), (last, none)], i.table, i.arcs⟩
  | plus {inner : Pattern} {i : Wiring} (hi : inner.Wired i) (last : StateId) :
      Wired (.plus inner) ⟨i.first, last, i.edges,
        i.inner ++ [(i.last, [(i.first, none), (last, none)])], i.arcs⟩
  | optionalSame {inner : Pattern} {i : Wiring} (hi : inner.Wired i)
      (hloop : inner.startsWithLoop = false) (h : (i.last, none) ∈ i.edges) : Wired (.optional inner) i
  | optional {inner : Pattern} {i : Wiring} (hi : inner.Wired i)
      (hloop : inner.startsWithLoop = false) :
      Wired (.optional inner) ⟨i.first, i.last, i.edges ++ [(i.last, none)], i.inner, i.arcs⟩
  | optionalEntry {inner : Pattern} {i : Wiring} (hi : inner.Wired i) (first : StateId) :
      Wired (.optional inner) ⟨first, i.last, [(i.first, none), (i.last, none)], i.table, i.arcs⟩

namespace Pattern.Wired
variable {p : Pattern} {w : Wiring}

theorem map (f : StateId → StateId) (h : p.Wired w) : p.Wired (w.map f) := by
  induction h with
  | step s first last => exact .step s (f first) (f last)
  | concat _ _ h ihl ihr =>
    simpa [Wiring.map, Wiring.rename, Wiring.table] using Wired.concat ihl ihr (congrArg f h)
  | union _ _ h first ihl ihr =>
    simpa [Wiring.map, Wiring.rename, Wiring.table, mapEdges] using
      Wired.union ihl ihr (congrArg f h) (f first)
  | star _ h hloop last ih =>
    simpa [Wiring.map, Wiring.rename, mapEdges] using Wired.star ih (congrArg f h) hloop (f last)
  | starEntry _ last ih =>
    simpa [Wiring.map, Wiring.rename, Wiring.table, mapEdges] using Wired.starEntry ih (f last)
  | plus _ last ih => simpa [Wiring.map, Wiring.rename, mapEdges] using Wired.plus ih (f last)
  | optionalSame _ hloop h ih =>
    exact .optionalSame ih hloop (List.mem_map.2 ⟨_, h, rfl⟩)
  | optional _ hloop ih => simpa [Wiring.map, Wiring.rename, mapEdges] using Wired.optional ih hloop
  | optionalEntry _ first ih =>
    simpa [Wiring.map, Wiring.rename, Wiring.table, mapEdges] using Wired.optionalEntry ih (f first)

theorem map_fst_arcs (h : p.Wired w) : w.arcs.map Prod.fst = p.steps := by
  induction h with
  | step => rfl
  | concat _ _ _ ihl ihr | union _ _ _ _ ihl ihr => simp [Pattern.steps, ihl, ihr]
  | star _ _ _ _ ih | starEntry _ _ ih | plus _ _ ih | optionalSame _ _ _ ih | optional _ _ ih
  | optionalEntry _ _ ih => exact ih

/-- Some edge leaves each state but the last one. -/
theorem edges_ne_nil (h : p.Wired w) : ∀ e ∈ w.table, e.2 ≠ [] := by
  simp only [Wiring.table, List.forall_mem_cons]
  induction h with
  | step => simp
  | concat _ _ _ ihl ihr =>
    exact ⟨ihl.1, List.forall_mem_append.2 ⟨ihl.2, List.forall_mem_cons.2 ihr⟩⟩
  | union _ _ _ _ ihl ihr =>
    exact ⟨List.cons_ne_nil _ _,
      List.forall_mem_append.2 ⟨List.forall_mem_cons.2 ihl, List.forall_mem_cons.2 ihr⟩⟩
  | star _ _ _ _ ih | optional _ _ ih => exact ⟨List.append_ne_nil_of_left_ne_nil ih.1 _, ih.2⟩
  | starEntry _ _ ih | optionalEntry _ _ ih =>
    exact ⟨List.cons_ne_nil _ _, List.forall_mem_cons.2 ih⟩
  | plus _ _ ih => exact ⟨ih.1, List.forall_mem_append.2 ⟨ih.2, by simp⟩⟩
  | optionalSame _ _ _ ih => exact ih

theorem exists_edge_to_last (h : p.Wired w) : ∃ e ∈ w.table, ∃ l, (w.last, l) ∈ e.2 := by
  induction h with
  | step s => exact ⟨_, List.mem_cons_self .., some s, List.mem_singleton_self _⟩
  | concat _ _ _ _ ihr | union _ _ _ _ _ ihr =>
    obtain ⟨e, he, hl⟩ := ihr
    exact ⟨e, List.mem_cons_of_mem _ (List.mem_append_right _ he), hl⟩
  | star | starEntry | optional | optionalEntry => exact ⟨_, List.mem_cons_self .., none, by simp⟩
  | plus =>
    exact ⟨_, List.mem_cons_of_mem _ (List.mem_append_right _ (List.mem_singleton_self _)), none,
      by simp⟩
  | optionalSame _ _ h => exact ⟨_, List.mem_cons_self .., none, h⟩

theorem exists_edge_to_first (h : p.Wired w) (hloop : p.startsWithLoop = true) :
    ∃ e ∈ w.table, ∃ l, (w.first, l) ∈ e.2 := by
  induction h with
  | step | union | optionalSame | optional | optionalEntry => cases hloop
  | concat _ _ _ ih =>
    obtain ⟨e, he, hl⟩ := ih hloop
    exact ⟨e, by rcases List.mem_cons.1 he with rfl | he <;> simp [Wiring.table, *], hl⟩
  | star hi h =>
    obtain ⟨e, he, l, hl⟩ := hi.exists_edge_to_last
    rw [h] at hl
    rcases List.mem_cons.1 he with rfl | he
    · exact ⟨_, List.mem_cons_self .., l, List.mem_append_left _ hl⟩
    · exact ⟨e, List.mem_cons_of_mem _ he, l, hl⟩
  | starEntry hi =>
    obtain ⟨e, he, hl⟩ := hi.exists_edge_to_last
    exact ⟨e, List.mem_cons_of_mem _ he, hl⟩
  | plus =>
    exact ⟨_, List.mem_cons_of_mem _ (List.mem_append_right _ (List.mem_singleton_self _)), none,
      List.mem_cons_self ..⟩

end Pattern.Wired

/-! ### Lists of edges -/

namespace Nfa
variable {n₀ n₁ n n' : Nfa} {a b p q s t : Nat} {l : Label} {es : List Edge}

theorem nodup_redirectEdges {m : StateId} (h : es.Nodup) (hm : ∀ l, (m, l) ∉ es)
    (hab : ∀ l, (a, l) ∈ es → (b, l) ∉ es) : (redirectEdges a b m es).Nodup := by
  refine List.Nodup.map_on ?_ h
  rintro ⟨x, l⟩ hx ⟨y, l'⟩ hy hxy
  obtain ⟨hxy, rfl⟩ := Prod.mk.inj hxy
  have hxm : x ≠ m := fun h => hm l (h ▸ hx)
  have hym : y ≠ m := fun h => hm l (h ▸ hy)
  unfold redirect at hxy
  grind

/-- Redirecting changes only the far ends of edges if it makes no two of them equal. -/
theorem dedupEdges_redirectEdges {m : StateId} (h : es.Nodup) (hm : ∀ l, (m, l) ∉ es)
    (hab : ∀ l, (a, l) ∈ es → (b, l) ∉ es) :
    dedupEdges (redirectEdges a b m es) = mapEdges (redirect a b m) es :=
  dedupEdges_of_nodup (nodup_redirectEdges h hm hab)

/-- No state lists an edge twice. -/
def Distinct (n : Nfa) : Prop := ∀ p, (n.outgoing p).Nodup

theorem distinct_empty : empty.Distinct := fun p => by simp [outgoing, state?, empty]

theorem outgoing_addEdge_self (hs : n.isLive s = true) :
    (n.addEdge s t l).outgoing s = insertEdge (n.outgoing s) (t, l) := by
  unfold outgoing isLive at *
  rw [state?_addEdge]
  cases h : n.state? s with
  | none =>
    rw [h] at hs
    cases hs
  | some x => simp

theorem outgoing_addEdge_of_notMem (hs : n.isLive s = true) (h : (t, l) ∉ n.outgoing s) :
    (n.addEdge s t l).outgoing s = n.outgoing s ++ [(t, l)] := by
  rw [outgoing_addEdge_self hs, insertEdge, if_neg h]

theorem outgoing_addEdge_addEdge (hp : n.isLive p = true) (h : n.outgoing p = []) (hst : s ≠ t) :
    ((n.addEdge p s none).addEdge p t none).outgoing p = [(s, none), (t, none)] := by
  have hs : (n.addEdge p s none).outgoing p = [(s, none)] := by
    rw [outgoing_addEdge_of_notMem hp (by simp [h]), h, List.nil_append]
  rw [outgoing_addEdge_of_notMem (by rwa [isLive_addEdge]) (by simp [hs, hst.symm]), hs]
  rfl

theorem outgoing_merge_self (hab : a ≠ b) : (n.merge a b).2.outgoing n.arena.size =
    dedupEdges (redirectEdges a b n.arena.size (n.outgoing a ++ n.outgoing b)) := by
  rw [outgoing, state?_merge hab, if_pos rfl]
  rfl

theorem outgoing_merge_of_ne (hn : n.Linked) (hd : n.Distinct) (hab : a ≠ b) (ha : p ≠ a) (hb : p ≠ b)
    (hp : p ≠ n.arena.size) : (n.merge a b).2.outgoing p =
      dedupEdges (redirectEdges a b n.arena.size (n.outgoing p)) :=
  Kind.outgoing.ends_merge_of_ne hab ha hb hp (hd p) fun _ _ => hn.mem_neighbours_of_outgoing ha hb

theorem Distinct.addState (h : n.Distinct) : n.addState.2.Distinct := fun p => by
  rw [outgoing_addState]
  exact h p

theorem Distinct.addEdge (h : n.Distinct) : (n.addEdge s t l).Distinct := by
  intro p
  by_cases hp : p = s
  · by_cases hs : n.isLive s = true
    · rw [hp, outgoing_addEdge_self hs]
      exact nodup_insertEdge (h s)
    · have hnone : n.state? p = none := by
        rw [hp]
        simpa [isLive] using hs
      rw [outgoing, state?_addEdge, hnone]
      exact List.nodup_nil
  · rw [outgoing_addEdge_of_ne hp]
    exact h p

theorem Distinct.merge (h : n.Distinct) : (n.merge a b).2.Distinct :=
  Kind.outgoing.nodup_ends_merge h

theorem Distinct.addEntry (h : n.Distinct) (first : StateId) : (n.addEntry first).2.Distinct := by
  unfold Nfa.addEntry
  split
  · exact h
  · exact h.addState.addEdge

theorem distinct_addFragment (p : Pattern) (h : n.Distinct) : (n.addFragment p).2.Distinct := by
  induction p generalizing n with
  | step s => exact h.addState.addState.addEdge
  | concat left right ihl ihr => exact (ihr (ihl h)).merge
  | union left right ihl ihr => exact (ihr (ihl h)).addState.addEdge.addEdge.merge
  | star inner ih =>
    unfold addFragment
    exact ((ih h).addState.addEdge.addEntry _).merge
  | plus inner ih => exact (ih h).addState.addEdge.addEdge
  | optional inner ih => exact ((ih h).addEntry _).addEdge

/-- The edges of the state that two states are merged into, if only their far ends change. -/
theorem outgoing_merge_both (hn : n.Linked) (hab : a ≠ b)
    (hd : (n.outgoing a ++ n.outgoing b).Nodup)
    (hfree : ∀ l, (a, l) ∈ n.outgoing a ++ n.outgoing b → (b, l) ∉ n.outgoing a ++ n.outgoing b) :
    (n.merge a b).2.outgoing n.arena.size =
      mapEdges (redirect a b n.arena.size) (n.outgoing a ++ n.outgoing b) := by
  rw [outgoing_merge_self hab]
  refine dedupEdges_redirectEdges hd (fun l he => ?_) hfree
  rcases List.mem_append.1 he with he | he <;>
    exact absurd (lt_size_of_isLive (hn.isLive_right he)) (Nat.lt_irrefl _)

/-- The edges of a state after a merge, if it has no edge to the other merged state with the same
label and does not share its place with other edges. -/
theorem outgoing_merge_redirect (hn : n.Linked) (hd : n.Distinct) (hab : a ≠ b)
    (hp : n.isLive p = true) (hpa : p = a → n.outgoing b = []) (hpb : p = b → n.outgoing a = [])
    (hfree : ∀ l, (a, l) ∈ n.outgoing p → (b, l) ∉ n.outgoing p) :
    (n.merge a b).2.outgoing (redirect a b n.arena.size p) =
      mapEdges (redirect a b n.arena.size) (n.outgoing p) := by
  by_cases ha : p = a
  · subst ha
    have hb := hpa rfl
    have h := outgoing_merge_both hn hab (by simpa [hb] using hd p) (by simpa [hb] using hfree)
    rwa [redirect_left, ← List.append_nil (n.outgoing p), ← hb]
  by_cases hb : p = b
  · subst hb
    have ha := hpb rfl
    have h := outgoing_merge_both hn hab (by simpa [ha] using hd p) (by simpa [ha] using hfree)
    rwa [redirect_right, ← List.nil_append (n.outgoing p), ← ha]
  rw [redirect_of_ne ha hb,
    outgoing_merge_of_ne hn hd hab ha hb (Nat.ne_of_lt (lt_size_of_isLive hp))]
  exact dedupEdges_redirectEdges (hd p)
    (fun l he => absurd (lt_size_of_isLive (hn.isLive_right he)) (Nat.lt_irrefl _)) hfree

end Nfa
end BoardGame
