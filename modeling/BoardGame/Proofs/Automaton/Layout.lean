import BoardGame.Proofs.Automaton.Wiring

/-!
# The part of a pattern

The part that `addFragment` adds for a pattern is wired as `Pattern.Wired` says
(`Nfa.exists_lays_addFragment`). Each constructor wires the parts of its operands together by merging
states or by adding edges, and what that does to their tables is said once (`Nfa.Lists`).
-/

namespace BoardGame.Nfa
variable {n₀ n₁ n n' : Nfa} {a b p q s t : Nat} {l : Label} {es : List Edge}

/-! ### Tables -/

/-- The states of `T` are not in `n₀`. In `n`, each has the edges that `T` gives, at least one. -/
def Lists (n₀ n : Nfa) (T : List (StateId × List Edge)) : Prop :=
  ∀ e ∈ T, n₀.arena.size ≤ e.1 ∧ e.2 ≠ [] ∧ n.outgoing e.1 = e.2

namespace Lists
variable {T T' : List (StateId × List Edge)} {e : StateId × List Edge}

theorem isLive (h : Lists n₀ n T) (he : e ∈ T) : n.isLive e.1 = true := by
  obtain ⟨-, hne, hout⟩ := h e he
  obtain ⟨x, hx⟩ := List.exists_mem_of_ne_nil _ hne
  rw [← hout] at hx
  exact isLive_of_mem_outgoing hx

theorem ne_of_outgoing_nil {q : StateId} (h : Lists n₀ n T) (he : e ∈ T)
    (hq : n.outgoing q = []) : e.1 ≠ q := by
  rintro rfl
  exact (h e he).2.1 ((h e he).2.2.symm.trans hq)

theorem ne_size (h : Lists n₀ n T) : ∀ e ∈ T, e.1 ≠ n.arena.size :=
  fun _ he => Nat.ne_of_lt (lt_size_of_isLive (h.isLive he))

theorem of_outgoing_eq (h : Lists n₀ n T) (hout : ∀ e ∈ T, n'.outgoing e.1 = n.outgoing e.1) :
    Lists n₀ n' T :=
  fun e he => ⟨(h e he).1, (h e he).2.1, (hout e he).trans (h e he).2.2⟩

theorem append (h : Lists n₀ n T) (h' : Lists n₀ n T') : Lists n₀ n (T ++ T') :=
  List.forall_mem_append.2 ⟨h, h'⟩

theorem cons {es : List Edge} (hp : n₀.arena.size ≤ p) (hes : es ≠ []) (hout : n.outgoing p = es)
    (h : Lists n₀ n T) : Lists n₀ n ((p, es) :: T) :=
  List.forall_mem_cons.2 ⟨⟨hp, hes, hout⟩, h⟩

theorem extend (h : Lists n₀ n₁ T) (hx : Extends n₁ n) : Lists n₀ n T :=
  h.of_outgoing_eq fun _ he => hx.outgoing_eq (lt_size_of_isLive (h.isLive he))

theorem old_le (h : Lists n₁ n T) (hx : Extends n₀ n₁) : Lists n₀ n T :=
  fun e he => ⟨Nat.le_trans hx.size_le (h e he).1, (h e he).2⟩

/-- The tables of two parts, the second one made after the first. -/
theorem both {l r : Fragment} {L R : Language Step} (hl : Grows n₀ n₁ l L) (hr : Grows n₁ n r R)
    (h : Lists n₀ n₁ T) (h' : Lists n₁ n T') : Lists n₀ n (T ++ T') :=
  (h.extend hr.ext).append (h'.old_le hl.ext)

/-- No edge leads from one of two parts to the other. -/
theorem not_both (h : Lists n₀ n T) (hx : Extends n₁ n) (h₁ : n₁.Linked) (hn : n.Linked)
    (ha : a < n₁.arena.size) (hb : n₁.arena.size ≤ b) :
    ∀ e ∈ T, ∀ l, (a, l) ∈ e.2 → (b, l) ∉ e.2 := by
  intro e he l hal hbl
  rw [← (h e he).2.2] at hal hbl
  exact absurd ((hx.lt_iff h₁ hn hbl).1 ((hx.lt_iff h₁ hn hal).2 ha)) (Nat.not_lt.2 hb)

theorem addState (h : Lists n₀ n T) : Lists n₀ n.addState.2 T :=
  h.of_outgoing_eq fun _ _ => outgoing_addState

theorem addEdge (h : Lists n₀ n T) (hs : ∀ e ∈ T, e.1 ≠ s) : Lists n₀ (n.addEdge s t l) T :=
  h.of_outgoing_eq fun e he => outgoing_addEdge_of_ne (hs e he)

theorem merge (h : Lists n₀ n T) (hf : Fusible n₀ n a b) (hd : n.Distinct)
    (ha : ∀ e ∈ T, e.1 = a → n.outgoing b = []) (hb : ∀ e ∈ T, e.1 = b → n.outgoing a = [])
    (hfree : ∀ e ∈ T, ∀ l, (a, l) ∈ e.2 → (b, l) ∉ e.2) :
    Lists n₀ (n.merge a b).2 (Wiring.rename (redirect a b n.arena.size) T) := by
  intro e' he'
  obtain ⟨e, he, rfl⟩ := List.mem_map.1 he'
  obtain ⟨hnew, hne, hout⟩ := h e he
  refine ⟨hf.le_redirect hnew, fun h => hne (List.map_eq_nil_iff.1 h), ?_⟩
  rw [← hout]
  refine outgoing_merge_redirect hf.linked hd hf.ne (h.isLive he) (ha e he) (hb e he) fun l => ?_
  rw [hout]
  exact hfree e he l

/-- Two states that have edges and are not in `T` are merged. No edge leads to the first one. -/
theorem merge_both (h : Lists n₀ n T) (hf : Fusible n₀ n a b)
    (hd : n.Distinct) (hT : ∀ e ∈ T, e.1 ≠ a ∧ e.1 ≠ b) (ha : ∀ p l, (a, l) ∉ n.outgoing p)
    (hne : n.outgoing a ≠ []) (hab : (n.outgoing a ++ n.outgoing b).Nodup) :
    Lists n₀ (n.merge a b).2 ((n.arena.size, mapEdges (redirect a b n.arena.size)
        (n.outgoing a ++ n.outgoing b)) :: Wiring.rename (redirect a b n.arena.size) T) ∧
      ∀ e ∈ Wiring.rename (redirect a b n.arena.size) T, e.1 ≠ n.arena.size := by
  constructor
  · refine cons hf.ext.size_le (fun h => ?_)
      (outgoing_merge_both hf.linked hf.ne hab fun l he => ?_)
      (h.merge hf hd (fun e he h => absurd h (hT e he).1) (fun e he h => absurd h (hT e he).2)
        fun e he l hl => absurd ((h e he).2.2 ▸ hl) (ha _ l))
    · exact List.append_ne_nil_of_left_ne_nil hne _ (List.map_eq_nil_iff.1 h)
    · exact absurd he (not_or.2 ⟨ha _ l, ha _ l⟩ ∘ List.mem_append.1)
  · intro e' he'
    obtain ⟨e, he, rfl⟩ := List.mem_map.1 he'
    show redirect a b n.arena.size e.1 ≠ n.arena.size
    rw [redirect_of_ne (hT e he).1 (hT e he).2]
    exact Nat.ne_of_lt (lt_size_of_isLive (h.isLive he))

end Lists

theorem ne_of_mem_rename {m : StateId} {T : List (StateId × List Edge)} (hT : ∀ e ∈ T, e.1 ≠ q)
    (hq : q ≠ m) : ∀ e ∈ Wiring.rename (redirect a b m) T, e.1 ≠ q := by
  intro e' he'
  obtain ⟨e, he, rfl⟩ := List.mem_map.1 he'
  exact fun h => hT e he (eq_of_redirect_eq h hq)

/-! ### The part of a pattern -/

/-- `n` is `n₀` with a part of its own that is wired as `w` says. -/
structure Lays (n₀ n : Nfa) (f : Fragment) (w : Wiring) : Prop where
  first_eq : w.first = f.first
  last_eq : w.last = f.last
  lists : Lists n₀ n w.table
  ne_first : ∀ e ∈ w.inner, e.1 ≠ f.first

section
variable {l r i : Fragment} {L R : Language Step} {wl wr w : Wiring} {left right inner : Pattern}

theorem Lays.outgoing_first (h : Lays n₀ n i w) : n.outgoing i.first = w.edges :=
  h.first_eq ▸ (h.lists _ (List.mem_cons_self ..)).2.2

/-- The last state of the left part and the first one of the right part are merged. -/
theorem Lays.concat (h₀ : n₀.Linked) (hl : Grows n₀ n₁ l L) (hr : Grows n₁ n r R)
    (hd : n.Distinct) (hwl : left.Wired wl) (hwr : right.Wired wr) (hll : Lays n₀ n₁ l wl)
    (hlr : Lays n₁ n r wr) : ∃ w, (Pattern.concat left right).Wired w ∧
      Lays n₀ (n.merge l.last r.first).2 ⟨l.first, r.last⟩ w := by
  have hfuse := hl.fusible_concat h₀ hr
  have hlf := hl.first_lt
  have hnil := hl.outgoing_left_last hr
  have hlists := hll.lists.both hl hr hlr.lists
  have hout := hlists.merge hfuse hd (fun e he h => absurd h (hlists.ne_of_outgoing_nil he hnil))
    (fun _ _ _ => hnil) (hlists.not_both hr.ext hl.linked hr.linked
      hl.last_lt hr.first_new)
  have hfirst : redirect l.last r.first n.arena.size l.first = l.first :=
    redirect_of_ne hl.ne (Nat.ne_of_lt (Nat.lt_of_lt_of_le hlf hr.first_new))
  have hlast : redirect l.last r.first n.arena.size r.last = r.last :=
    redirect_of_ne (Nat.ne_of_gt (Nat.lt_of_lt_of_le hl.last_lt hr.last_new))
      hr.ne.symm
  refine ⟨_, .concat (hwl.map (redirect l.last r.first n.arena.size))
    (hwr.map (redirect l.last r.first n.arena.size)) ?_, ?_, ?_, ?_, ?_⟩
  · show redirect _ _ _ wl.last = redirect _ _ _ wr.first
    rw [hll.last_eq, hlr.first_eq, redirect_left, redirect_right]
  · exact (congrArg _ hll.first_eq).trans hfirst
  · exact (congrArg _ hlr.last_eq).trans hlast
  · rwa [Wiring.rename_append] at hout
  · intro e' he' h
    have hmem : e' ∈ Wiring.rename (redirect l.last r.first n.arena.size) (wl.inner ++ wr.table) := by
      rwa [Wiring.rename_append]
    obtain ⟨e, he, rfl⟩ := List.mem_map.1 hmem
    have he₁ := eq_of_redirect_eq h (Nat.ne_of_lt (lt_size_of_isLive (hr.ext.isLive hl.first_live)))
    rcases List.mem_append.1 he with he | he
    · exact hll.ne_first e he he₁
    · exact absurd (hlr.lists e he).1 (Nat.not_le.2 (he₁ ▸ hlf))

/-- A fork leads to both parts, whose last states are merged. -/
theorem Lays.union (h₀ : n₀.Linked) (hl : Grows n₀ n₁ l L) (hr : Grows n₁ n r R)
    (hd : n.Distinct) (hwl : left.Wired wl) (hwr : right.Wired wr) (hll : Lays n₀ n₁ l wl)
    (hlr : Lays n₁ n r wr) : ∃ w, (Pattern.union left right).Wired w ∧
      Lays n₀ (((n.addState.2.addEdge n.arena.size l.first none).addEdge n.arena.size r.first
        none).merge l.last r.last).2 ⟨n.arena.size, (((n.addState.2.addEdge n.arena.size l.first
          none).addEdge n.arena.size r.first none).merge l.last r.last).1⟩ w := by
  have hlf := hr.ext.isLive hl.first_live
  have hx := hl.ext.trans hr.ext
  have hm := forks_addEdge hr.linked hlf hr.first_live
  have hfuse := hl.fusible_union h₀ hr hm ((hx.addState.addEdge hx.size_le hl.first_new).addEdge
    hx.size_le (Nat.le_trans hl.ext.size_le hr.first_new))
  have hne : l.first ≠ r.first :=
    Nat.ne_of_lt (Nat.lt_of_lt_of_le hl.first_lt hr.first_new)
  have hfork : ((n.addState.2.addEdge n.arena.size l.first none).addEdge n.arena.size r.first
      none).outgoing n.arena.size = [(l.first, none), (r.first, none)] :=
    outgoing_addEdge_addEdge (isLive_addState.2 (.inl rfl))
      (by rw [outgoing_addState, outgoing_of_size_le (Nat.le_refl _)]) hne
  have hdm : Distinct ((n.addState.2.addEdge n.arena.size l.first none).addEdge n.arena.size r.first
      none) := hd.addState.addEdge.addEdge
  have hlists := hll.lists.both hl hr hlr.lists
  have hlistsm := (hlists.addState.addEdge (l := none) (t := l.first) hlists.ne_size).addEdge
    (l := none) (t := r.first) hlists.ne_size
  generalize (n.addState.2.addEdge n.arena.size l.first none).addEdge n.arena.size r.first none = m
    at *
  have hlnil : m.outgoing l.last = [] :=
    (hm.outgoing_eq _ (Nat.ne_of_lt (lt_size_of_isLive (hr.ext.isLive hl.last_live)))).trans
      (hl.outgoing_left_last hr)
  have hcons := Lists.cons hx.size_le (List.cons_ne_nil _ _) hfork hlistsm
  -- no edge leads from either part to the other, and the fork leads to neither last state
  have hfree : ∀ e ∈ (n.arena.size, [(l.first, none), (r.first, none)]) :: (wl.table ++ wr.table),
      ∀ x, (l.last, x) ∈ e.2 → (r.last, x) ∉ e.2 := by
    have hlr : l.last ≠ r.first :=
      Nat.ne_of_lt (Nat.lt_of_lt_of_le hl.last_lt hr.first_new)
    refine List.forall_mem_cons.2 ⟨fun x h => ?_, hlists.not_both hr.ext hl.linked hr.linked
      hl.last_lt hr.last_new⟩
    simp [hl.ne.symm, hlr] at h
  have hout := hcons.merge hfuse hdm
    (fun e he h => absurd h (hcons.ne_of_outgoing_nil he hlnil)) (fun _ _ _ => hlnil) hfree
  have hfirst : redirect l.last r.last m.arena.size n.arena.size = n.arena.size :=
    redirect_of_ne (Nat.ne_of_gt (lt_size_of_isLive (hr.ext.isLive hl.last_live)))
      (Nat.ne_of_gt hr.last_lt)
  refine ⟨_, .union (hwl.map (redirect l.last r.last m.arena.size))
    (hwr.map (redirect l.last r.last m.arena.size)) ?_ n.arena.size, rfl, ?_, ?_, ?_⟩
  · show redirect _ _ _ wl.last = redirect _ _ _ wr.last
    rw [hll.last_eq, hlr.last_eq, redirect_left, redirect_right]
  · show redirect _ _ _ wr.last = (m.merge l.last r.last).1
    rw [hlr.last_eq, redirect_right, fst_merge hfuse.ne]
  · rw [Wiring.rename, List.map_cons, List.map_append, hfirst, ← hll.first_eq, ← hlr.first_eq] at hout
    exact hout
  · have hne := ne_of_mem_rename (a := l.last) (b := r.last) hlists.ne_size (m := m.arena.size)
      (by rw [hm.size_eq]; exact Nat.ne_of_lt (Nat.lt_succ_self _))
    rwa [Wiring.rename_append] at hne

/-- If no edge leads to its first state, the pattern does not begin with a repetition. -/
theorem Lays.startsWithLoop_eq_false (h : Lays n₀ n i w) (hw : inner.Wired w) (hn : n.Linked)
    (hin : (n.incoming i.first).isEmpty = true) : inner.startsWithLoop = false := by
  refine Bool.eq_false_of_not_eq_true fun hloop => ?_
  obtain ⟨e, he, l, hl⟩ := hw.exists_edge_to_first hloop
  rw [← (h.lists e he).2.2, h.first_eq, ← hn, List.isEmpty_iff.1 hin] at hl
  cases hl

section
variable {m : Nfa} {e last : StateId}

/-- The loop of a repetition is closed by merging its first and its last state. -/
theorem Lays.star_same (h : Lays n₀ m i w) (hw : inner.Wired w) (hf : Fusible n₀ m i.first i.last)
    (hd : m.Distinct) (hne : ∀ e ∈ w.table, e.1 ≠ i.last) (hi : ∀ p l, (i.first, l) ∉ m.outgoing p)
    (hloop : inner.startsWithLoop = false) (hout : m.outgoing i.last = [(last, none)])
    (hlast : (last, none) ∉ w.edges) (hfirst : last ≠ i.first) (hself : last ≠ i.last) :
    ∃ w, (Pattern.star inner).Wired w ∧
      Lays n₀ (m.merge i.first i.last).2 ⟨(m.merge i.first i.last).1, last⟩ w := by
  have hnodup : (m.outgoing i.first ++ m.outgoing i.last).Nodup := by
    have hedges := hd i.first
    rw [h.outgoing_first] at hedges
    rw [h.outgoing_first, hout]
    exact List.nodup_append.2 ⟨hedges, List.nodup_singleton _, fun x hx y hy hxy =>
      hlast (List.mem_singleton.1 hy ▸ hxy ▸ hx)⟩
  obtain ⟨hlists, hsep⟩ := Lists.merge_both (fun e he => h.lists e (List.mem_cons_of_mem _ he)) hf hd
    (fun e he => ⟨h.ne_first e he, hne e (List.mem_cons_of_mem _ he)⟩) hi
    (by rw [h.outgoing_first]; exact hw.edges_ne_nil _ (List.mem_cons_self ..)) hnodup
  rw [h.outgoing_first, hout, mapEdges, List.map_append, List.map_singleton,
    redirect_of_ne hfirst hself] at hlists
  refine ⟨_, .star (hw.map (redirect i.first i.last m.arena.size)) ?_ hloop last, ?_, rfl, ?_, ?_⟩
  · show redirect i.first i.last m.arena.size w.last = redirect i.first i.last m.arena.size w.first
    rw [h.first_eq, h.last_eq, redirect_left, redirect_right]
  · show redirect i.first i.last m.arena.size w.first = (m.merge i.first i.last).1
    rw [h.first_eq, redirect_left, fst_merge hf.ne]
  · show Lists n₀ _ ((redirect i.first i.last m.arena.size w.first, _) :: _)
    rw [h.first_eq, redirect_left]
    exact hlists
  · rwa [fst_merge hf.ne]

/-- The loop of a repetition is closed by merging its last state and an entry to its first one. -/
theorem Lays.star_entry (h : Lays n₀ m i w) (hw : inner.Wired w) (hf : Fusible n₀ m e i.last)
    (hd : m.Distinct) (hne : ∀ x ∈ w.table, x.1 ≠ e ∧ x.1 ≠ i.last)
    (he : ∀ p l, (e, l) ∉ m.outgoing p) (hentry : m.outgoing e = [(i.first, none)])
    (hout : m.outgoing i.last = [(last, none)]) (hlast : last ≠ e) (hself : last ≠ i.last)
    (hfirst : i.first ≠ last) :
    ∃ w, (Pattern.star inner).Wired w ∧
      Lays n₀ (m.merge e i.last).2 ⟨(m.merge e i.last).1, last⟩ w := by
  obtain ⟨hlists, hsep⟩ := h.lists.merge_both hf hd hne he (by simp [hentry])
    (by simp [hentry, hout, hfirst])
  rw [hentry, hout, mapEdges, List.map_append, List.map_singleton, List.map_singleton,
    redirect_of_ne hlast hself, ← h.first_eq] at hlists
  refine ⟨_, .starEntry (hw.map (redirect e i.last m.arena.size)) last, ?_, rfl, ?_, ?_⟩
  · show redirect e i.last m.arena.size w.last = (m.merge e i.last).1
    rw [h.last_eq, redirect_right, fst_merge hf.ne]
  · show Lists n₀ _ ((redirect e i.last m.arena.size w.last, _) :: _)
    rw [h.last_eq, redirect_right]
    exact hlists
  · rw [fst_merge hf.ne]
    exact hsep

end

theorem Lays.star (h₀ : n₀.Linked) (hi : Grows n₀ n₁ i L) (hd : n₁.Distinct) (hw : inner.Wired w)
    (h : Lays n₀ n₁ i w) : ∃ w, (Pattern.star inner).Wired w ∧
      Lays n₀ (((n₁.addState.2.addEdge i.last n₁.arena.size none).addEntry i.first).2.merge
        ((n₁.addState.2.addEdge i.last n₁.arena.size none).addEntry i.first).1 i.last).2
        ⟨(((n₁.addState.2.addEdge i.last n₁.arena.size none).addEntry i.first).2.merge
          ((n₁.addState.2.addEdge i.last n₁.arena.size none).addEntry i.first).1 i.last).1,
          n₁.arena.size⟩ w := by
  have hf := Nat.ne_of_lt hi.first_lt
  have hll := hi.last_lt
  have hl : n₁.addState.2.isLive i.last = true := isLive_addState.2 (.inr hi.last_live)
  have hentry := hi.entry_star
  have hfuse := hi.fusible_star h₀ hentry <|
    (hi.ext.addState.addEdge hi.last_new hi.ext.size_le).addEntry hi.first_new
  have hlinked := hi.linked.addState.addEdge (l := none) hl (isLive_addState.2 (.inl rfl))
  have hdm : (n₁.addState.2.addEdge i.last n₁.arena.size none).Distinct := hd.addState.addEdge
  have hlast : (n₁.addState.2.addEdge i.last n₁.arena.size none).outgoing i.last =
      [(n₁.arena.size, none)] := by
    rw [outgoing_addEdge_of_notMem hl] <;> simp [hi.last_outgoing]
  have hfree : (n₁.arena.size, none) ∉ w.edges := fun he => by
    rw [← h.outgoing_first] at he
    exact absurd (lt_size_of_isLive (hi.linked.isLive_right he)) (Nat.lt_irrefl _)
  have hne : ∀ e ∈ w.table, e.1 ≠ i.last :=
    fun e he => h.lists.ne_of_outgoing_nil he hi.last_outgoing
  have hm : Lays n₀ (n₁.addState.2.addEdge i.last n₁.arena.size none) i w :=
    { h with lists := h.lists.addState.addEdge hne }
  have hsize : n₁.arena.size < (n₁.addState.2.addEdge i.last n₁.arena.size none).arena.size := by
    rw [size_addEdge, size_addState]
    exact Nat.lt_succ_self _
  generalize n₁.addState.2.addEdge i.last n₁.arena.size none = m at *
  by_cases hin : (m.incoming i.first).isEmpty
  · rw [show m.addEntry i.first = (i.first, m) from if_pos hin] at hentry hfuse ⊢
    exact hm.star_same hw hfuse hdm hne hentry.not_entered
      (hm.startsWithLoop_eq_false hw hlinked hin) hlast hfree hf.symm (Nat.ne_of_gt hll)
  · rw [show m.addEntry i.first = (m.arena.size, m.addState.2.addEdge m.arena.size i.first none) from
      if_neg hin] at hentry hfuse ⊢
    have hself := hm.lists.ne_size
    have hl' : (m.addState.2.addEdge m.arena.size i.first none).outgoing i.last =
        [(n₁.arena.size, none)] := by
      rw [outgoing_addEdge_of_ne (Nat.ne_of_lt (Nat.lt_trans hll hsize)), outgoing_addState, hlast]
    have hm' : Lays n₀ (m.addState.2.addEdge m.arena.size i.first none) i w :=
      { hm with lists := hm.lists.addState.addEdge hself }
    refine hm'.star_entry hw hfuse hdm.addState.addEdge (fun e he => ⟨hself e he, hne e he⟩)
      hentry.not_entered ?_ hl' (Nat.ne_of_lt hsize) (Nat.ne_of_gt hll) hf
    rw [outgoing_addEdge_of_notMem (isLive_addState.2 (.inl rfl))] <;> simp [outgoing_of_size_le]

theorem Lays.plus (hi : Grows n₀ n₁ i L) (hw : inner.Wired w) (h : Lays n₀ n₁ i w) :
    ∃ w, (Pattern.plus inner).Wired w ∧
      Lays n₀ ((n₁.addState.2.addEdge i.last i.first none).addEdge i.last n₁.arena.size none)
        ⟨i.first, n₁.arena.size⟩ w := by
  have hne : ∀ e ∈ w.table, e.1 ≠ i.last :=
    fun e he => h.lists.ne_of_outgoing_nil he hi.last_outgoing
  have hlists := (h.lists.addState.addEdge (l := none) (t := i.first) hne).addEdge (l := none)
    (t := n₁.arena.size) hne
  have hout := outgoing_addEdge_addEdge (n := n₁.addState.2)
    (isLive_addState.2 (.inr hi.last_live)) (outgoing_addState.trans hi.last_outgoing)
    (Nat.ne_of_lt hi.first_lt)
  refine ⟨_, .plus hw n₁.arena.size, h.first_eq, rfl, ?_, ?_⟩
  · show Lists n₀ _ (w.table ++ [(w.last, [(w.first, none), (n₁.arena.size, none)])])
    rw [h.first_eq, h.last_eq]
    exact hlists.append (.cons hi.last_new (List.cons_ne_nil _ _) hout fun _ he => absurd he
      List.not_mem_nil)
  · refine List.forall_mem_append.2 ⟨h.ne_first, List.forall_mem_singleton.2 ?_⟩
    rw [h.last_eq]
    exact hi.ne.symm

theorem Lays.optional (hi : Grows n₀ n₁ i L) (hw : inner.Wired w) (h : Lays n₀ n₁ i w) :
    ∃ w, (Pattern.optional inner).Wired w ∧
      Lays n₀ ((n₁.addEntry i.first).2.addEdge (n₁.addEntry i.first).1 i.last none)
        ⟨(n₁.addEntry i.first).1, i.last⟩ w := by
  by_cases hin : (n₁.incoming i.first).isEmpty
  · have hloop := h.startsWithLoop_eq_false hw hi.linked hin
    rw [show n₁.addEntry i.first = (i.first, n₁) from if_pos hin]
    have hinner : Lists n₀ n₁ w.inner := fun e he => h.lists e (List.mem_cons_of_mem _ he)
    by_cases hmem : (i.last, none) ∈ w.edges
    · refine ⟨w, .optionalSame hw hloop (h.last_eq ▸ hmem), h.first_eq, h.last_eq, ?_, h.ne_first⟩
      refine .cons (h.first_eq ▸ hi.first_new) (hw.edges_ne_nil _ (List.mem_cons_self ..)) ?_
        (hinner.addEdge h.ne_first)
      rw [h.first_eq, outgoing_addEdge_self hi.first_live, h.outgoing_first, insertEdge, if_pos hmem]
    · refine ⟨_, .optional hw hloop, h.first_eq, h.last_eq, ?_, h.ne_first⟩
      refine .cons (h.first_eq ▸ hi.first_new) (by simp) ?_ (hinner.addEdge h.ne_first)
      rw [h.first_eq, h.last_eq, outgoing_addEdge_of_notMem hi.first_live (by rwa [h.outgoing_first]),
        h.outgoing_first]
  · rw [show n₁.addEntry i.first = (n₁.arena.size, n₁.addState.2.addEdge n₁.arena.size i.first none)
      from if_neg hin]
    have hout := outgoing_addEdge_addEdge (n := n₁.addState.2) (isLive_addState.2 (.inl rfl))
      (outgoing_addState.trans (outgoing_of_size_le (Nat.le_refl _))) hi.ne
    refine ⟨_, .optionalEntry hw n₁.arena.size, rfl, h.last_eq, ?_, h.lists.ne_size⟩
    refine .cons hi.ext.size_le (List.cons_ne_nil _ _) ?_
      ((h.lists.addState.addEdge h.lists.ne_size).addEdge h.lists.ne_size)
    rw [h.first_eq, h.last_eq]
    exact hout

theorem lays_step (n : Nfa) (s : Step) : ∃ w, (Pattern.step s).Wired w ∧
    Lays n (n.addFragment (.step s)).2 (n.addFragment (.step s)).1 w := by
  have hlive : n.addState.2.addState.2.isLive n.arena.size = true :=
    isLive_addState.2 (.inr (isLive_addState.2 (.inl rfl)))
  refine ⟨_, .step s n.arena.size n.addState.2.arena.size, rfl, rfl, ?_, fun _ he => absurd he
    List.not_mem_nil⟩
  refine .cons (Nat.le_refl _) (List.cons_ne_nil _ _) ?_ fun _ he => absurd he List.not_mem_nil
  refine (outgoing_addEdge_of_notMem hlive ?_).trans ?_ <;>
    simp [outgoing_of_size_le (Nat.le_refl n.arena.size)]

end

/-- The part that is added for a pattern. -/
theorem exists_lays_addFragment (p : Pattern) (hn : n.Linked) (hd : n.Distinct) :
    ∃ w, p.Wired w ∧ Lays n (n.addFragment p).2 (n.addFragment p).1 w := by
  induction p generalizing n with
  | step s => exact lays_step n s
  | concat left right ihl ihr =>
    have hl := grows_addFragment left hn
    have hdl := distinct_addFragment left hd
    obtain ⟨wl, hwl, hll⟩ := ihl hn hd
    obtain ⟨wr, hwr, hlr⟩ := ihr hl.linked hdl
    exact Lays.concat hn hl (grows_addFragment right hl.linked)
      (distinct_addFragment right hdl) hwl hwr hll hlr
  | union left right ihl ihr =>
    have hl := grows_addFragment left hn
    have hdl := distinct_addFragment left hd
    obtain ⟨wl, hwl, hll⟩ := ihl hn hd
    obtain ⟨wr, hwr, hlr⟩ := ihr hl.linked hdl
    exact Lays.union hn hl (grows_addFragment right hl.linked)
      (distinct_addFragment right hdl) hwl hwr hll hlr
  | star inner ih =>
    obtain ⟨w, hw, h⟩ := ih hn hd
    unfold addFragment
    exact h.star hn (grows_addFragment inner hn) (distinct_addFragment inner hd) hw
  | plus inner ih =>
    obtain ⟨w, hw, h⟩ := ih hn hd
    exact h.plus (grows_addFragment inner hn) hw
  | optional inner ih =>
    obtain ⟨w, hw, h⟩ := ih hn hd
    exact h.optional (grows_addFragment inner hn) hw
end BoardGame.Nfa
