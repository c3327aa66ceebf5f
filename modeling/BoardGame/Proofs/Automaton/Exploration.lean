import BoardGame.Proofs.Automaton.Determinization

/-!
# The order in which a closure meets arcs

A closure lists the states that an edge leads to before it goes on from the last of them, so what lies
behind the others comes late. `Nfa.Meets out v A`: little enough lies behind them that closing `v`
meets its arcs in the order of `A`. Where this holds of the start and of all that a step leads to, the
transitions of every state of the deterministic automaton are in order
(`Nfa.Sorted.transitions_sublist`).
-/

namespace BoardGame
open Nfa (Edge)
open scoped List

namespace Nfa
variable {out : StateId → List Edge} {n : Nfa} {v u : StateId}

/-- No edge leaves what empty edges lead to from `v`. -/
def Quiet (out : StateId → List Edge) (v : StateId) : Prop := ∀ u ∈ silents (out v), out u = []

/-- Closing `v` under empty edges meets no arcs but those of `A`, and meets them in this order: of what
empty edges lead to from `v`, only one state may have anything more behind it, and no edge leaves
those after it. -/
inductive Meets (out : StateId → List Edge) : StateId → List (Step × StateId) → Prop
  | quiet {v : StateId} (h : Quiet out v) : Meets out v (arcs (out v))
  | comb {v u : StateId} {ts us : List StateId} {A : List (Step × StateId)}
      (hv : silents (out v) = ts ++ u :: us) (hts : ∀ t ∈ ts, Quiet out t)
      (hus : ∀ u ∈ us, out u = []) (hu : Meets out u A) :
      Meets out v (arcs (out v) ++ ((ts.flatMap fun t => arcs (out t)) ++ A))

theorem quiet_of_outgoing_nil (h : out v = []) : Quiet out v := by
  simp [Quiet, h, silents]

end Nfa

namespace Numbered
open Nfa (Meets Quiet arcs)
variable {m : Numbered} {set : StateSet m.size} {is js members stack : List Nat} {i : Nat}
  {r : StateSet m.size × List Nat} {A : List (Step × StateId)}

/-- The arcs of some states, one state after the other. -/
def arcsOf (m : Numbered) (members : List Nat) : List (Step × StateId) :=
  members.flatMap fun i => arcs (m.outgoing i)

theorem arcsOf_append : m.arcsOf (is ++ js) = m.arcsOf is ++ m.arcsOf js := List.flatMap_append

theorem arcsOf_cons : m.arcsOf (i :: is) = arcs (m.outgoing i) ++ m.arcsOf is := List.flatMap_cons

theorem arcsOf_eq_nil (h : ∀ i ∈ is, m.outgoing i = []) : m.arcsOf is = [] :=
  List.flatMap_eq_nil_iff.2 fun i hi => by rw [h i hi]; rfl

theorem arcsOf_sublist (h : is <+ js) : m.arcsOf is <+ m.arcsOf js := h.flatMap _

theorem addFresh_sublist : (addFresh set is).2 <+ is := by
  induction is generalizing set with
  | nil => exact List.Sublist.slnil
  | cons i is ih =>
    rw [addFresh]
    split
    · exact ih.cons i
    · exact ih.cons_cons i

namespace Closes

/-- A stack of states with nothing behind them adds no arcs. -/
theorem arcsOf_of_quiet (h : m.Closes set members stack r)
    (hs : ∀ i ∈ stack, Quiet m.outgoing i) : m.arcsOf r.2 = m.arcsOf members := by
  induction h with
  | done => rfl
  | @expand set members stack i r _ h ih =>
    have hbare : ∀ j ∈ (addFresh set (m.silent i)).2, m.outgoing j = [] := fun j hj =>
      hs i (List.mem_cons_self ..) j (addFresh_sublist.subset hj)
    rw [ih, arcsOf_append, arcsOf_eq_nil hbare, List.append_nil]
    intro j hj
    rcases List.mem_append.1 hj with hj | hj
    · exact Nfa.quiet_of_outgoing_nil (hbare j (List.mem_reverse.1 hj))
    · exact hs j (List.mem_cons_of_mem _ hj)

/-- States that no edge leaves are taken off the stack without effect. -/
theorem drop_bare (h : m.Closes set members (is ++ stack) r) (hs : ∀ i ∈ is, m.outgoing i = []) :
    m.Closes set members stack r := by
  induction is with
  | nil => exact h
  | cons i is ih =>
    cases h with
    | expand _ h =>
      have hi : m.silent i = [] := by rw [silent, hs i (List.mem_cons_self ..)]; rfl
      rw [hi] at h
      simp only [addFresh, List.append_nil, List.reverse_nil, List.nil_append] at h
      exact ih h fun j hj => hs j (List.mem_cons_of_mem _ hj)

/-- What is met while the top of the stack is closed, if the rest of it has nothing behind it. -/
theorem exists_arcsOf_eq (h : m.Closes set members (i :: stack) r) (hi : Meets m.outgoing i A)
    (hs : ∀ j ∈ stack, Quiet m.outgoing j) :
    ∃ X, arcs (m.outgoing i) ++ X <+ A ∧ m.arcsOf r.2 = m.arcsOf members ++ X := by
  induction hi generalizing set members stack with
  | @quiet i hi =>
    refine ⟨[], by rw [List.append_nil], ?_⟩
    rw [List.append_nil]
    exact h.arcsOf_of_quiet (List.forall_mem_cons.2 ⟨hi, hs⟩)
  | @comb i u ts us A hi hts hus _ ih =>
    cases h with
    | expand _ h =>
      have hfresh : (addFresh set (m.silent i)).2 <+ ts ++ u :: us := hi ▸ addFresh_sublist
      obtain ⟨ts', us', heq, hts', hus'⟩ := List.sublist_append_iff.1 hfresh
      have harcs : m.arcsOf ts' <+ ts.flatMap fun t => arcs (m.outgoing t) := arcsOf_sublist hts'
      have hquiet : ∀ t ∈ ts'.reverse ++ stack, Quiet m.outgoing t := by
        intro t ht
        rcases List.mem_append.1 ht with ht | ht
        · exact hts t (hts'.subset (List.mem_reverse.1 ht))
        · exact hs t ht
      rw [heq, List.reverse_append, List.append_assoc] at h
      -- what `us` leaves comes off the stack first, then `u` if it is new, and then what `ts` leaves
      rcases List.sublist_cons_iff.1 hus' with hmet | ⟨us', rfl, hnew⟩
      · -- `u` has been met before
        have hbare : ∀ j ∈ us', m.outgoing j = [] := fun j hj => hus j (hmet.subset hj)
        refine ⟨m.arcsOf ts', (harcs.trans (List.sublist_append_left ..)).append_left _, ?_⟩
        rw [(h.drop_bare fun j hj => hbare j (List.mem_reverse.1 hj)).arcsOf_of_quiet hquiet,
          arcsOf_append, arcsOf_append, arcsOf_eq_nil hbare, List.append_nil]
      · have hbare : ∀ j ∈ us', m.outgoing j = [] := fun j hj => hus j (hnew.subset hj)
        rw [List.reverse_cons, List.append_assoc, List.singleton_append] at h
        obtain ⟨X, hX, hr⟩ := ih (h.drop_bare fun j hj => hbare j (List.mem_reverse.1 hj)) hquiet
        refine ⟨m.arcsOf ts' ++ (arcs (m.outgoing u) ++ X), (harcs.append hX).append_left _, ?_⟩
        rw [hr, arcsOf_append, arcsOf_append, arcsOf_cons, arcsOf_eq_nil hbare, List.append_nil,
          List.append_assoc, List.append_assoc]

end Closes

theorem ClosureOf.arcsOf_sublist (h : m.ClosureOf [i] r) (hi : Meets m.outgoing i A) :
    m.arcsOf r.2 <+ A := by
  have hseeds : m.gather [i] = (StateSet.empty.insert i, [i]) := by simp [gather, addFresh]
  have hcloses := h.closes
  rw [hseeds] at hcloses
  obtain ⟨X, hX, hr⟩ := hcloses.exists_arcsOf_eq hi fun _ hj => absurd hj List.not_mem_nil
  rwa [hr, arcsOf_cons, arcsOf, List.flatMap_nil, List.append_nil]

end Numbered

/-! ### Where steps lead -/

namespace Subsets
open Nfa (arcs)
variable {m : Numbered} {accept : Nat} {b b' : Subsets m.size} {rest : List (List Nat)}
  {ids : List StateId} {ms : List (Step × List Nat)} {as : List (Step × StateId)} {s : Step} {j : Nat}

theorem note_of_notMem (h : s ∉ ms.map Prod.fst) : note s j ms = ms ++ [(s, [j])] := by
  induction ms with
  | nil => rfl
  | cons e ms ih =>
    obtain ⟨hne, hms⟩ := not_or.1 (List.mem_cons.not.1 h)
    rw [note, if_neg (Ne.symm hne), ih hms]
    rfl

/-- Steps that differ keep their order. -/
theorem foldl_note_of_nodup (h : (ms.map Prod.fst ++ as.map Prod.fst).Nodup) :
    as.foldl (fun ms a => note a.1 a.2 ms) ms = ms ++ as.map fun a => (a.1, [a.2]) := by
  induction as generalizing ms with
  | nil => simp
  | cons a as ih =>
    have ha : a.1 ∉ ms.map Prod.fst := fun hmem =>
      (List.nodup_append.1 h).2.2 a.1 hmem a.1 (List.mem_cons_self ..) rfl
    rw [List.foldl_cons, note_of_notMem ha, ih (by simpa using h), List.append_assoc]
    rfl

theorem moves_eq_foldl (members : List Nat) :
    moves m members = (m.arcsOf members).foldl (fun ms a => note a.1 a.2 ms) [] := by
  have harcs : m.arcsOf members = arcs (members.flatMap m.outgoing) :=
    List.filterMap_flatMap.symm
  rw [harcs, arcs, List.foldl_filterMap, moves]
  congr 1
  funext ms e
  obtain ⟨target, label⟩ := e
  cases label <;> rfl

theorem moves_of_nodup {members : List Nat} (h : ((m.arcsOf members).map Prod.fst).Nodup) :
    moves m members = (m.arcsOf members).map fun a => (a.1, [a.2]) := by
  rw [moves_eq_foldl, foldl_note_of_nodup (by simpa using h), List.nil_append]

/-- If the seeds of every state satisfy `P`, what `P` says of the steps that lead on from them holds
of the transitions of every state that a run makes. -/
theorem Builds.forall_steps {P : List Nat → Prop} {Q : List Step → Prop}
    (hP : ∀ seeds c, P seeds → m.ClosureOf seeds c →
      Q ((moves m c.2).map Prod.fst) ∧ ∀ seeds ∈ (moves m c.2).map Prod.snd, P seeds)
    (h : Builds m accept b rest ids b') (hrest : ∀ seeds ∈ rest, P seeds) (id : Nat)
    (hle : b.states.size ≤ id) (hlt : id < b'.states.size) :
    ∃ s, b'.states[id]? = some s ∧ Q (s.transitions.map Prod.fst) := by
  induction h generalizing id with
  | nil => omega
  | known _ _ _ ih => exact ih (fun seeds h => hrest seeds (List.mem_cons_of_mem _ h)) id hle hlt
  | @fresh b b₁ b' _ _ targets _ c hc _ hmoves hnext ih₁ ih₂ =>
    obtain ⟨hQ, hseeds⟩ := hP _ c (hrest _ (List.mem_cons_self ..)) hc
    by_cases hid₁ : b₁.states.size ≤ id
    · exact ih₂ (fun seeds h => hrest seeds (List.mem_cons_of_mem _ h)) id
        (by rw [size_settle]; exact hid₁) hlt
    by_cases hid : id = b.states.size
    · subst hid
      refine ⟨_, settled hmoves hnext, ?_⟩
      have hlen : ((moves m c.2).map Prod.fst).length = targets.length := by
        simpa using hmoves.forall₂.length_eq
      rwa [List.map_fst_zip hlen.le]
    · obtain ⟨s, hs, hQs⟩ := ih₁ hseeds id (by rw [size_enter]; omega) (by omega)
      refine ⟨s, ?_, hQs⟩
      rw [hnext.states_eq_of_ne (by omega) (Ne.symm hid), hs]

end Subsets

/-! ### The order of transitions -/

namespace Nfa
variable {n : Nfa} {v : StateId} {A : List (Step × StateId)}
  {c : StateSet (Numbered.ofNfa n).size × List Nat}

theorem outgoing_number (hv : v ∈ n.walk) : (Numbered.ofNfa n).outgoing ((Numbered.ofNfa n).number v) =
    mapEdges (Numbered.ofNfa n).number (n.outgoing v) := by
  rw [Numbered.outgoing_ofNfa, Numbered.number_ofNfa, List.getElem?_idxOf hv]
  rfl

theorem outgoing_number_eq_nil (hv : v ∈ n.walk) (h : n.outgoing v = []) :
    (Numbered.ofNfa n).outgoing ((Numbered.ofNfa n).number v) = [] := by
  rw [outgoing_number hv, h]
  rfl

theorem Quiet.number (h : Quiet n.outgoing v) (hv : v ∈ n.walk) :
    Quiet (Numbered.ofNfa n).outgoing ((Numbered.ofNfa n).number v) := by
  rw [Quiet, outgoing_number hv, silents_mapEdges]
  exact List.forall_mem_map.2 fun u hu =>
    outgoing_number_eq_nil (n.mem_walk_of_edge hv (mem_silents.1 hu)) (h u hu)

/-- Numbering the states changes nothing but their names. -/
theorem Meets.number (h : Meets n.outgoing v A) (hv : v ∈ n.walk) :
    Meets (Numbered.ofNfa n).outgoing ((Numbered.ofNfa n).number v)
      (A.map (Prod.map id (Numbered.ofNfa n).number)) := by
  induction h with
  | quiet h =>
    rw [← arcs_mapEdges, ← outgoing_number hv]
    exact .quiet (h.number hv)
  | @comb v u ts us A hsil hts hus _ ih =>
    have hmem : ∀ t ∈ ts ++ u :: us, t ∈ n.walk := fun t ht =>
      n.mem_walk_of_edge hv (mem_silents.1 (hsil ▸ ht))
    have hu : u ∈ n.walk := hmem u (List.mem_append_right _ (List.mem_cons_self ..))
    have hmemts : ∀ t ∈ ts, t ∈ n.walk := fun t ht => hmem t (List.mem_append_left _ ht)
    have hsil' : silents ((Numbered.ofNfa n).outgoing ((Numbered.ofNfa n).number v)) =
        ts.map (Numbered.ofNfa n).number ++
          (Numbered.ofNfa n).number u :: us.map (Numbered.ofNfa n).number := by
      rw [outgoing_number hv, silents_mapEdges, hsil, List.map_append, List.map_cons]
    have hnumber := Meets.comb hsil'
      (List.forall_mem_map.2 fun t ht => (hts t ht).number (hmemts t ht))
      (List.forall_mem_map.2 fun t ht => outgoing_number_eq_nil
        (hmem t (List.mem_append_right _ (List.mem_cons_of_mem _ ht))) (hus t ht)) (ih hu)
    have hts' : ((ts.map (Numbered.ofNfa n).number).flatMap fun t =>
        arcs ((Numbered.ofNfa n).outgoing t)) =
          (ts.flatMap fun t => arcs (n.outgoing t)).map (Prod.map id (Numbered.ofNfa n).number) := by
      rw [List.flatMap_map, List.map_flatMap]
      exact List.flatMap_congr fun t ht => by rw [outgoing_number (hmemts t ht), arcs_mapEdges]
    rwa [hts', outgoing_number hv, arcs_mapEdges, ← List.map_append, ← List.map_append] at hnumber

/-- What closing `v` meets is met in the order of `A`. -/
def MetIn (out : StateId → List Edge) (A : List (Step × StateId)) (v : StateId) : Prop :=
  ∃ A', Meets out v A' ∧ A' <+ A

/-- `A` lists where the steps of `n` lead, and what the start and each of them lead to is met in the
order of `A`. -/
def Sorted (n : Nfa) (A : List (Step × StateId)) : Prop :=
  MetIn n.outgoing A n.start ∧ ∀ a ∈ A, MetIn n.outgoing A a.2

/-- The seeds of a state: a single one, from which the arcs of `A` are met in order. -/
def Seeds (n : Nfa) (A : List (Step × StateId)) (seeds : List Nat) : Prop :=
  ∃ v ∈ n.walk, seeds = [(Numbered.ofNfa n).number v] ∧ MetIn n.outgoing A v

/-- The steps that lead on from a state are in the order of `A`, and each leads to a state of the same
kind. -/
theorem Sorted.moves (h : n.Sorted A) (hA : (A.map Prod.fst).Nodup) {seeds : List Nat}
    (hs : n.Seeds A seeds) (hc : (Numbered.ofNfa n).ClosureOf seeds c) :
    (Subsets.moves (.ofNfa n) c.2).map Prod.fst <+ A.map Prod.fst ∧
      ∀ seeds ∈ (Subsets.moves (.ofNfa n) c.2).map Prod.snd, n.Seeds A seeds := by
  obtain ⟨v, hv, rfl, A', hA', hsubA⟩ := hs
  have hsub := (hc.arcsOf_sublist (hA'.number hv)).trans (hsubA.map _)
  have hsteps : ((Numbered.ofNfa n).arcsOf c.2).map Prod.fst <+ A.map Prod.fst := by
    have := hsub.map Prod.fst
    rwa [List.map_map] at this
  rw [Subsets.moves_of_nodup (hA.sublist hsteps), List.map_map, List.map_map]
  refine ⟨hsteps, List.forall_mem_map.2 fun a ha => ?_⟩
  obtain ⟨⟨s, u⟩, hu, rfl⟩ := List.mem_map.1 (hsub.subset ha)
  refine ⟨u, ?_, rfl, h.2 _ hu⟩
  -- an edge leads to a number of a state
  obtain ⟨i, -, he⟩ := List.mem_flatMap.1 ha
  have hlt := Numbered.bounded_ofNfa n i _ (mem_arcs.1 he)
  rw [Numbered.size_ofNfa] at hlt
  exact List.idxOf_lt_length_iff.1 hlt

/-- If the steps differ, the transitions of every state are in the order of `A`. -/
theorem Sorted.transitions_sublist (h : n.Sorted A) (hA : (A.map Prod.fst).Nodup) (q : StateId) :
    ((Dfa.ofNfa n).transitions q).map Prod.fst <+ A.map Prod.fst := by
  by_cases hq : q < (Dfa.ofNfa n).size
  · obtain ⟨-, b, hb, hbuilds⟩ := Dfa.constructs_ofNfa n
    have hstart : n.Seeds A [0] :=
      ⟨n.start, n.start_mem_walk, by rw [Numbered.number_ofNfa, n.idxOf_start], h.1⟩
    rw [Dfa.size, hb] at hq
    obtain ⟨s, hs, hsub⟩ := hbuilds.forall_steps (P := n.Seeds A)
      (Q := fun steps => steps <+ A.map Prod.fst) (fun _ _ hs hc => h.moves hA hs hc)
      (List.forall_mem_singleton.2 hstart) q (Nat.zero_le _) hq
    rw [Dfa.transitions, hb, hs]
    exact hsub
  · rw [Dfa.transitions, Array.getElem?_eq_none (Nat.not_lt.1 hq)]
    exact List.nil_sublist _

end Nfa
end BoardGame
