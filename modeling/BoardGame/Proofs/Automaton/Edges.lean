import BoardGame.Proofs.Automaton.Path

/-!
# Edges of nondeterministic automata

What adding a state, adding an edge and merging two states do to the edges. The merged automaton has
the images of the edges of the old one (`mem_outgoing_merge`). This needs `Linked`: a merge only
visits the neighbours of the merged states, which it reads off the edges kept there.
-/

namespace BoardGame.Nfa

/-! ### Lists of edges -/

theorem mem_insertEdge {es : List Edge} {e e' : Edge} :
    e' ∈ insertEdge es e ↔ e' ∈ es ∨ e' = e := by
  unfold insertEdge
  split
  · rename_i he
    exact ⟨.inl, fun h => h.elim id fun h => h ▸ he⟩
  · simp

theorem nodup_insertEdge {es : List Edge} {e : Edge} (h : es.Nodup) : (insertEdge es e).Nodup := by
  unfold insertEdge
  split
  · exact h
  · rename_i he
    exact List.nodup_append.2 ⟨h, by simp, fun x hx y hy hxy => by simp_all⟩

theorem mem_foldl_insertEdge {es acc : List Edge} {e : Edge} :
    e ∈ es.foldl insertEdge acc ↔ e ∈ acc ∨ e ∈ es := by
  induction es generalizing acc with
  | nil => simp
  | cons e' es ih =>
    rw [List.foldl_cons, ih, mem_insertEdge, List.mem_cons, or_assoc]

theorem mem_dedupEdges {es : List Edge} {e : Edge} : e ∈ dedupEdges es ↔ e ∈ es := by
  rw [dedupEdges, mem_foldl_insertEdge]; simp

theorem nodup_dedupEdges (es : List Edge) : (dedupEdges es).Nodup := by
  have aux : ∀ acc : List Edge, acc.Nodup → (es.foldl insertEdge acc).Nodup := by
    induction es with
    | nil => exact fun _ h => h
    | cons e es ih => exact fun acc h => ih _ (nodup_insertEdge h)
  exact aux [] List.nodup_nil

theorem foldl_insertEdge_of_nodup {es acc : List Edge} (h : (acc ++ es).Nodup) :
    es.foldl insertEdge acc = acc ++ es := by
  induction es generalizing acc with
  | nil => simp
  | cons e es ih =>
    have he : e ∉ acc := fun hm =>
      (List.nodup_append.1 h).2.2 e hm e (List.mem_cons_self ..) rfl
    rw [List.foldl_cons, insertEdge, if_neg he, ih (by rwa [List.append_assoc]),
      List.append_assoc, List.singleton_append]

theorem dedupEdges_of_nodup {es : List Edge} (h : es.Nodup) : dedupEdges es = es := by
  have h : ([] ++ es).Nodup := h
  exact foldl_insertEdge_of_nodup h

theorem dedupEdges_dedupEdges (es : List Edge) : dedupEdges (dedupEdges es) = dedupEdges es :=
  dedupEdges_of_nodup (nodup_dedupEdges es)

/-- The edges with other names for the states that they lead to. -/
def mapEdges (f : StateId → StateId) (es : List Edge) : List Edge := es.map fun e => (f e.1, e.2)

/-- Where the edges that read a step lead. -/
def arcs (es : List Edge) : List (Step × StateId) := es.filterMap fun e => e.2.map (·, e.1)

/-- Where the empty edges lead. -/
def silents (es : List Edge) : List StateId :=
  es.filterMap fun e => if e.2.isNone then some e.1 else none

theorem mem_silents {es : List Edge} {p : StateId} : p ∈ silents es ↔ (p, none) ∈ es := by
  simp [silents, List.mem_filterMap]

theorem mem_arcs {es : List Edge} {s : Step} {p : StateId} : (s, p) ∈ arcs es ↔ (p, some s) ∈ es := by
  simp [arcs, List.mem_filterMap]

theorem silents_append (es es' : List Edge) : silents (es ++ es') = silents es ++ silents es' :=
  List.filterMap_append

theorem arcs_append (es es' : List Edge) : arcs (es ++ es') = arcs es ++ arcs es' :=
  List.filterMap_append

theorem silents_mapEdges (f : StateId → StateId) (es : List Edge) :
    silents (mapEdges f es) = (silents es).map f := by
  rw [silents, silents, mapEdges, List.filterMap_map, List.map_filterMap]
  congr 1
  funext e
  cases h : e.2 <;> simp [h]

theorem arcs_mapEdges (f : StateId → StateId) (es : List Edge) :
    arcs (mapEdges f es) = (arcs es).map (Prod.map id f) := by
  rw [arcs, arcs, mapEdges, List.filterMap_map, List.map_filterMap]
  congr 1
  funext e
  cases h : e.2 <;> simp [h]

@[simp] theorem redirect_left (a b m : StateId) : redirect a b m a = m := by simp [redirect]

@[simp] theorem redirect_right (a b m : StateId) : redirect a b m b = m := by simp [redirect]

theorem redirect_of_ne {a b m x : StateId} (ha : x ≠ a) (hb : x ≠ b) : redirect a b m x = x := by
  simp [redirect, ha, hb]

theorem eq_of_redirect_eq {a b m x y : StateId} (h : redirect a b m x = y) (hy : y ≠ m) : x = y := by
  unfold redirect at h
  split at h
  · exact absurd h.symm hy
  · exact h

theorem redirect_redirect (a b m x : StateId) :
    redirect a b m (redirect a b m x) = redirect a b m x := by
  unfold redirect
  split <;> simp_all

theorem mem_redirectEdges {a b m x : StateId} {l : Label} {es : List Edge} :
    (x, l) ∈ redirectEdges a b m es ↔ ∃ y, (y, l) ∈ es ∧ redirect a b m y = x := by
  simp only [redirectEdges, List.mem_map, Prod.exists, Prod.mk.injEq]
  constructor
  · rintro ⟨y, l', hy, rfl, rfl⟩
    exact ⟨y, hy, rfl⟩
  · rintro ⟨y, hy, rfl⟩
    exact ⟨y, l, hy, rfl, rfl⟩

theorem redirectEdges_dedup_redirectEdges (a b m : StateId) (es : List Edge) :
    redirectEdges a b m (dedupEdges (redirectEdges a b m es)) =
      dedupEdges (redirectEdges a b m es) := by
  rw [redirectEdges]
  refine (List.map_congr_left fun e he => ?_).trans (List.map_id _)
  obtain ⟨x, l⟩ := e
  obtain ⟨y, -, rfl⟩ := mem_redirectEdges.1 (mem_dedupEdges.1 he)
  simp [redirect_redirect]

theorem redirectState_redirectState (a b m : StateId) (s : State) :
    redirectState a b m (redirectState a b m s) = redirectState a b m s := by
  simp only [redirectState, redirectEdges_dedup_redirectEdges, dedupEdges_dedupEdges]

/-! ### States -/

variable {n : Nfa} {p q id : Nat} {l : Label} {e : Edge}

theorem lt_size_of_isLive (h : n.isLive id = true) : id < n.arena.size := by
  refine Nat.lt_of_not_le fun hle => ?_
  rw [isLive, state?, Array.getElem?_eq_none hle] at h
  cases h

theorem isLive_of_mem_outgoing (h : e ∈ n.outgoing p) : n.isLive p = true := by
  unfold outgoing at h
  unfold isLive
  cases hs : n.state? p with
  | none => rw [hs] at h; cases h
  | some s => rfl

theorem isLive_of_mem_incoming (h : e ∈ n.incoming p) : n.isLive p = true := by
  unfold incoming at h
  unfold isLive
  cases hs : n.state? p with
  | none => rw [hs] at h; cases h
  | some s => rfl

theorem outgoing_congr {n' : Nfa} (h : n'.state? p = n.state? p) : n'.outgoing p = n.outgoing p := by
  rw [outgoing, outgoing, h]

theorem incoming_congr {n' : Nfa} (h : n'.state? p = n.state? p) : n'.incoming p = n.incoming p := by
  rw [incoming, incoming, h]

theorem isLive_congr {n' : Nfa} (h : n'.state? p = n.state? p) : n'.isLive p = n.isLive p := by
  rw [isLive, isLive, h]

/-- Every edge is kept at both its ends. -/
def Linked (n : Nfa) : Prop := ∀ p q l, (p, l) ∈ n.incoming q ↔ (q, l) ∈ n.outgoing p

theorem linked_empty : empty.Linked := by
  intro p q l
  simp [incoming, outgoing, state?, empty]

theorem Linked.isLive_right (h : n.Linked) (he : (q, l) ∈ n.outgoing p) : n.isLive q = true :=
  isLive_of_mem_incoming ((h p q l).2 he)

/-! ### Adding a state -/

theorem state?_addState :
    n.addState.2.state? id = if id = n.arena.size then some ⟨[], []⟩ else n.state? id := by
  simp only [addState, state?, Array.getElem?_push]
  split <;> rfl

theorem state?_of_size_le (h : n.arena.size ≤ p) : n.state? p = none := by
  rw [state?, Array.getElem?_eq_none h]; rfl

theorem outgoing_of_size_le (h : n.arena.size ≤ p) : n.outgoing p = [] := by
  rw [outgoing, state?_of_size_le h]; rfl

theorem incoming_of_size_le (h : n.arena.size ≤ p) : n.incoming p = [] := by
  rw [incoming, state?_of_size_le h]; rfl

@[simp] theorem outgoing_addState : n.addState.2.outgoing id = n.outgoing id := by
  by_cases h : id = n.arena.size
  · subst h
    rw [outgoing_of_size_le (Nat.le_refl _), outgoing, state?_addState, if_pos rfl]; rfl
  · exact outgoing_congr (by rw [state?_addState, if_neg h])

@[simp] theorem incoming_addState : n.addState.2.incoming id = n.incoming id := by
  by_cases h : id = n.arena.size
  · subst h
    rw [incoming_of_size_le (Nat.le_refl _), incoming, state?_addState, if_pos rfl]; rfl
  · exact incoming_congr (by rw [state?_addState, if_neg h])

@[simp] theorem size_addState : n.addState.2.arena.size = n.arena.size + 1 := by
  simp [addState]

theorem isLive_addState :
    n.addState.2.isLive id = true ↔ id = n.arena.size ∨ n.isLive id = true := by
  unfold isLive
  rw [state?_addState]
  split <;> simp_all

theorem Linked.addState (h : n.Linked) : n.addState.2.Linked := by
  intro p q l
  rw [incoming_addState, outgoing_addState]
  exact h p q l

/-! ### Adding an edge -/

theorem state?_modify (f : State → State) (i : StateId) :
    (n.modify i f).state? id = if id = i then (n.state? id).map f else n.state? id := by
  simp only [modify, state?, Array.getElem?_modify, eq_comm (a := i)]
  split
  · cases h : n.arena[id]? <;> simp
  · rfl

section
variable {s t : Nat}

theorem state?_addEdge :
    (n.addEdge s t l).state? id = (n.state? id).map fun x =>
      ⟨if id = s then insertEdge x.outgoing (t, l) else x.outgoing,
        if id = t then insertEdge x.incoming (s, l) else x.incoming⟩ := by
  simp only [addEdge, state?_modify]
  cases n.state? id <;> split <;> split <;> simp_all

@[simp] theorem size_addEdge : (n.addEdge s t l).arena.size = n.arena.size := by
  simp [addEdge, modify]

@[simp] theorem isLive_addEdge : (n.addEdge s t l).isLive id = n.isLive id := by
  simp [isLive, state?_addEdge]

theorem mem_outgoing_addEdge (hs : n.isLive s = true) :
    e ∈ (n.addEdge s t l).outgoing p ↔ e ∈ n.outgoing p ∨ p = s ∧ e = (t, l) := by
  unfold outgoing isLive at *
  rw [state?_addEdge]
  cases h : n.state? p with
  | none =>
    have : p ≠ s := by rintro rfl; rw [h] at hs; cases hs
    simp [this]
  | some x =>
    by_cases hp : p = s <;> simp [hp, mem_insertEdge]

theorem outgoing_addEdge_of_ne (h : p ≠ s) : (n.addEdge s t l).outgoing p = n.outgoing p := by
  unfold outgoing
  rw [state?_addEdge]
  simp only [h, if_false]
  cases n.state? p <;> rfl

theorem mem_incoming_addEdge (ht : n.isLive t = true) :
    e ∈ (n.addEdge s t l).incoming q ↔ e ∈ n.incoming q ∨ q = t ∧ e = (s, l) := by
  unfold incoming isLive at *
  rw [state?_addEdge]
  cases h : n.state? q with
  | none =>
    have : q ≠ t := by rintro rfl; rw [h] at ht; cases ht
    simp [this]
  | some x =>
    by_cases hq : q = t <;> simp [hq, mem_insertEdge]

theorem Linked.addEdge (h : n.Linked) (hs : n.isLive s = true) (ht : n.isLive t = true) :
    (n.addEdge s t l).Linked := by
  intro p q l'
  rw [mem_incoming_addEdge ht, mem_outgoing_addEdge hs, h p q l']
  simp only [Prod.mk.injEq]
  exact or_congr_right ⟨fun ⟨h₁, h₂, h₃⟩ => ⟨h₂, h₁, h₃⟩, fun ⟨h₁, h₂, h₃⟩ => ⟨h₂, h₁, h₃⟩⟩

end

/-! ### Merging -/

section
variable {a b : Nat}

theorem getElem?_foldl_modify (f : State → State) (hf : ∀ s, f (f s) = f s) (ids : List StateId)
    (arena : Array (Option State)) (x : StateId) :
    (ids.foldl (fun arena id => arena.modify id (Option.map f)) arena)[x]? =
      if x ∈ ids then arena[x]?.map (Option.map f) else arena[x]? := by
  induction ids generalizing arena with
  | nil => simp
  | cons id ids ih =>
    rw [List.foldl_cons, ih, Array.getElem?_modify]
    by_cases hx : x = id
    · subst hx
      cases h : arena[x]? with
      | none => simp
      | some s => cases s <;> simp [hf]
    · simp [hx, Ne.symm hx]

theorem size_foldl_modify (f : State → State) (ids : List StateId) (arena : Array (Option State)) :
    (ids.foldl (fun arena id => arena.modify id (Option.map f)) arena).size = arena.size := by
  induction ids generalizing arena with
  | nil => rfl
  | cons id ids ih => rw [List.foldl_cons, ih, Array.size_modify]

/-- The state that `a` and `b` are merged into. -/
abbrev fused (n : Nfa) (a b : StateId) : State := fuse a b n.arena.size (n.state? a) (n.state? b)

/-- The states next to `a` and `b`. -/
abbrev neighbours (n : Nfa) (a b : StateId) : List StateId :=
  (((n.fused a b).outgoing ++ (n.fused a b).incoming).map Prod.fst).filter (· ≠ n.arena.size)

theorem fst_merge (h : a ≠ b) : (n.merge a b).1 = n.arena.size := by
  rw [merge, if_neg h]

theorem arena_merge (h : a ≠ b) :
    (n.merge a b).2.arena = ((n.neighbours a b).foldl
      (fun arena id => arena.modify id (Option.map (redirectState a b n.arena.size)))
      ((n.arena.setIfInBounds a none).setIfInBounds b none)).push (some (n.fused a b)) := by
  rw [merge, if_neg h]

theorem size_merge (h : a ≠ b) : (n.merge a b).2.arena.size = n.arena.size + 1 := by
  rw [arena_merge h, Array.size_push, size_foldl_modify]
  simp

theorem state?_merge (h : a ≠ b) :
    (n.merge a b).2.state? id =
      if id = n.arena.size then some (n.fused a b)
      else if id = a ∨ id = b then none
      else if id ∈ n.neighbours a b then (n.state? id).map (redirectState a b n.arena.size)
      else n.state? id := by
  rw [state?, arena_merge h, Array.getElem?_push, size_foldl_modify, Array.size_setIfInBounds,
    Array.size_setIfInBounds]
  by_cases hid : id = n.arena.size
  · rw [if_pos hid, if_pos hid]; rfl
  rw [if_neg hid, if_neg hid, getElem?_foldl_modify _ (redirectState_redirectState a b _)]
  simp only [Array.getElem?_setIfInBounds, Array.size_setIfInBounds]
  by_cases ha : a = id
  · subst ha
    by_cases hlt : a < n.arena.size <;> simp [hlt, h.symm]
  by_cases hb : b = id
  · subst hb
    by_cases hlt : b < n.arena.size <;> simp [hlt]
  have hne : ¬ (id = a ∨ id = b) := fun h => h.elim (Ne.symm ha) (Ne.symm hb)
  rw [if_neg hb, if_neg ha, if_neg hne, state?]
  by_cases hnb : id ∈ n.neighbours a b
  · rw [if_pos hnb, if_pos hnb]
    cases n.arena[id]? <;> rfl
  · rw [if_neg hnb, if_neg hnb]

/-- The edges of one kind, outgoing or incoming, that a state keeps. -/
def ends (n : Nfa) (E : State → List Edge) (p : StateId) : List Edge :=
  ((n.state? p).map E).getD []

/-- `E` is one kind of edges: a merge treats both kinds alike. -/
structure Kind (E : State → List Edge) : Prop where
  fuse : ∀ a b m s t, E (fuse a b m s t) =
    dedupEdges (redirectEdges a b m ((s.map E).getD [] ++ (t.map E).getD []))
  redirect : ∀ a b m s, E (redirectState a b m s) = dedupEdges (redirectEdges a b m (E s))

theorem Kind.outgoing : Kind State.outgoing := ⟨fun _ _ _ _ _ => rfl, fun _ _ _ _ => rfl⟩

theorem Kind.incoming : Kind State.incoming := ⟨fun _ _ _ _ _ => rfl, fun _ _ _ _ => rfl⟩

section
variable {E : State → List Edge} (hE : Kind E)
include hE

theorem Kind.mem_fused :
    (q, l) ∈ E (n.fused a b) ↔
      ∃ p' q', (q', l) ∈ n.ends E p' ∧ (p' = a ∨ p' = b) ∧ Nfa.redirect a b n.arena.size q' = q := by
  rw [fused, hE.fuse, mem_dedupEdges, mem_redirectEdges]
  constructor
  · rintro ⟨y, hy, rfl⟩
    rcases List.mem_append.1 hy with hy | hy
    exacts [⟨a, y, hy, .inl rfl, rfl⟩, ⟨b, y, hy, .inr rfl, rfl⟩]
  · rintro ⟨p', q', hq, rfl | rfl, rfl⟩
    exacts [⟨q', List.mem_append_left _ hq, rfl⟩, ⟨q', List.mem_append_right _ hq, rfl⟩]

/-- The edges after a merge are the images of those before it, if the merge visits every state that
has an edge to a merged one. -/
theorem Kind.mem_merge (hab : a ≠ b) (ha : n.isLive a = true) (hb : n.isLive b = true)
    (hnb : ∀ p q l, p ≠ a → p ≠ b → (q, l) ∈ n.ends E p → q = a ∨ q = b → p ∈ n.neighbours a b) :
    (q, l) ∈ (n.merge a b).2.ends E p ↔ ∃ p' q', (q', l) ∈ n.ends E p' ∧
      Nfa.redirect a b n.arena.size p' = p ∧ Nfa.redirect a b n.arena.size q' = q := by
  have hlive : ∀ {p q l}, (q, l) ∈ n.ends E p → n.isLive p = true := by
    intro p q l he
    unfold ends at he
    unfold isLive
    cases hs : n.state? p with
    | none => rw [hs] at he; cases he
    | some s => rfl
  have hst : (n.merge a b).2.state? p = _ := state?_merge hab
  by_cases hp : p = n.arena.size
  · rw [if_pos hp] at hst
    rw [ends, hst]
    refine hE.mem_fused.trans ⟨?_, ?_⟩
    · rintro ⟨p', q', he, rfl | rfl, hq⟩
      exacts [⟨_, q', he, by rw [redirect_left, hp], hq⟩, ⟨_, q', he, by rw [redirect_right, hp], hq⟩]
    · rintro ⟨p', q', he, hp', hq⟩
      refine ⟨p', q', he, ?_, hq⟩
      unfold Nfa.redirect at hp'
      split at hp'
      · assumption
      · exact absurd (hp'.trans hp) (Nat.ne_of_lt (lt_size_of_isLive (hlive he)))
  rw [if_neg hp] at hst
  by_cases hpab : p = a ∨ p = b
  · rw [if_pos hpab] at hst
    rw [ends, hst]
    simp only [Option.map_none, Option.getD_none, List.not_mem_nil, false_iff]
    rintro ⟨p', q', -, hp', -⟩
    rw [eq_of_redirect_eq hp' hp, Nfa.redirect, if_pos hpab] at hp'
    exact hp hp'.symm
  obtain ⟨hpa, hpb⟩ := not_or.1 hpab
  rw [if_neg hpab] at hst
  -- `p` itself is not merged, so only the far ends of its edges may change
  have key : (q, l) ∈ (n.merge a b).2.ends E p ↔
      ∃ q', (q', l) ∈ n.ends E p ∧ Nfa.redirect a b n.arena.size q' = q := by
    by_cases hmem : p ∈ n.neighbours a b
    · rw [if_pos hmem] at hst
      rw [ends, hst, ends]
      cases n.state? p with
      | none => simp
      | some s => simp only [Option.map_some, Option.getD_some, hE.redirect, mem_dedupEdges,
          mem_redirectEdges]
    · rw [if_neg hmem] at hst
      have hfar : ∀ q l, (q, l) ∈ n.ends E p → ¬ (q = a ∨ q = b) := fun q l he hq =>
        hmem (hnb p q l hpa hpb he hq)
      rw [ends, hst]
      constructor
      · intro he
        obtain ⟨h₁, h₂⟩ := not_or.1 (hfar _ _ he)
        exact ⟨q, he, redirect_of_ne h₁ h₂⟩
      · rintro ⟨q', he, rfl⟩
        obtain ⟨h₁, h₂⟩ := not_or.1 (hfar _ _ he)
        rwa [redirect_of_ne h₁ h₂]
  rw [key]
  constructor
  · rintro ⟨q', he, hq⟩
    exact ⟨p, q', he, redirect_of_ne hpa hpb, hq⟩
  · rintro ⟨p', q', he, hp', hq⟩
    exact ⟨q', eq_of_redirect_eq hp' hp ▸ he, hq⟩

/-- A state that is not merged keeps its edges in order, less those that become equal. -/
theorem Kind.ends_merge_of_ne (hab : a ≠ b) (hpa : p ≠ a) (hpb : p ≠ b) (hp : p ≠ n.arena.size)
    (hd : (n.ends E p).Nodup)
    (hnb : ∀ q l, (q, l) ∈ n.ends E p → q = a ∨ q = b → p ∈ n.neighbours a b) :
    (n.merge a b).2.ends E p = dedupEdges (redirectEdges a b n.arena.size (n.ends E p)) := by
  have hpab : ¬ (p = a ∨ p = b) := fun h => h.elim hpa hpb
  rw [ends, state?_merge hab, if_neg hp, if_neg hpab]
  split
  · unfold ends
    cases n.state? p with
    | none => rfl
    | some s => exact hE.redirect a b _ s
  · rename_i hmem
    have hfar : ∀ e ∈ n.ends E p, ¬ (e.1 = a ∨ e.1 = b) := fun e he hq => hmem (hnb e.1 e.2 he hq)
    have hsame : redirectEdges a b n.arena.size (n.ends E p) = n.ends E p :=
      (List.map_congr_left fun e he => by simp [Nfa.redirect, hfar e he]).trans (List.map_id _)
    rw [hsame, dedupEdges_of_nodup hd]
    rfl

theorem Kind.nodup_ends_merge (hd : ∀ p, (n.ends E p).Nodup) (p : StateId) :
    ((n.merge a b).2.ends E p).Nodup := by
  by_cases hab : a = b
  · rw [merge, if_pos hab]
    exact hd p
  rw [ends, state?_merge hab]
  split
  · rw [Option.map_some, Option.getD_some, hE.fuse]
    exact nodup_dedupEdges _
  split
  · exact List.nodup_nil
  split
  · cases n.state? p with
    | none => exact List.nodup_nil
    | some s =>
      rw [Option.map_some, Option.map_some, Option.getD_some, hE.redirect]
      exact nodup_dedupEdges _
  · exact hd p

end

theorem mem_neighbours (hx : n.isLive p = true)
    (h : (p, l) ∈ (n.fused a b).outgoing ++ (n.fused a b).incoming) : p ∈ n.neighbours a b :=
  List.mem_filter.2 ⟨List.mem_map_of_mem h, decide_eq_true (Nat.ne_of_lt (lt_size_of_isLive hx))⟩

/-- A merge visits what has an edge to a merged state. -/
theorem Linked.mem_neighbours_of_outgoing (hn : n.Linked) (hpa : p ≠ a) (hpb : p ≠ b)
    (he : (q, l) ∈ n.outgoing p) (hq : q = a ∨ q = b) : p ∈ n.neighbours a b :=
  mem_neighbours (isLive_of_mem_outgoing he) <| List.mem_append_right _ <|
    Kind.incoming.mem_fused.2 ⟨q, p, (hn _ _ _).2 he, hq, redirect_of_ne hpa hpb⟩

/-- A merge visits what has an edge from a merged state. -/
theorem Linked.mem_neighbours_of_incoming (hn : n.Linked) (hqa : q ≠ a) (hqb : q ≠ b)
    (he : (p, l) ∈ n.incoming q) (hp : p = a ∨ p = b) : q ∈ n.neighbours a b :=
  mem_neighbours (isLive_of_mem_incoming he) <| List.mem_append_left _ <|
    Kind.outgoing.mem_fused.2 ⟨p, q, (hn _ _ _).1 he, hp, redirect_of_ne hqa hqb⟩

theorem exists_of_mem_neighbours (h : p ∈ n.neighbours a b) :
    ∃ q l, (q = a ∨ q = b) ∧ ((p, l) ∈ n.outgoing q ∨ (p, l) ∈ n.incoming q) := by
  obtain ⟨h, hp⟩ := List.mem_filter.1 h
  obtain ⟨⟨p, l⟩, he, rfl⟩ := List.mem_map.1 h
  have hp : p ≠ n.arena.size := of_decide_eq_true hp
  rcases List.mem_append.1 he with he | he
  · obtain ⟨q, p', he, hq, h⟩ := Kind.outgoing.mem_fused.1 he
    exact ⟨q, l, hq, .inl (eq_of_redirect_eq h hp ▸ he)⟩
  · obtain ⟨q, p', he, hq, h⟩ := Kind.incoming.mem_fused.1 he
    exact ⟨q, l, hq, .inr (eq_of_redirect_eq h hp ▸ he)⟩

theorem isLive_merge (hab : a ≠ b) (hp : n.isLive p = true) :
    (n.merge a b).2.isLive (redirect a b n.arena.size p) = true := by
  by_cases hpab : p = a ∨ p = b
  · rw [redirect, if_pos hpab, isLive, state?_merge hab, if_pos rfl]; rfl
  · have hne := Nat.ne_of_lt (lt_size_of_isLive hp)
    rw [redirect, if_neg hpab, isLive, state?_merge hab, if_neg hne, if_neg hpab]
    split
    · rw [Option.isSome_map]; exact hp
    · exact hp

theorem exists_of_isLive_merge (hab : a ≠ b) (ha : n.isLive a = true)
    (hp : (n.merge a b).2.isLive p = true) :
    ∃ p', n.isLive p' = true ∧ redirect a b n.arena.size p' = p := by
  rw [isLive, state?_merge hab] at hp
  split at hp
  · rename_i h
    exact ⟨a, ha, by rw [redirect_left, h]⟩
  split at hp
  · cases hp
  · rename_i hpab
    refine ⟨p, ?_, if_neg hpab⟩
    split at hp
    · rwa [Option.isSome_map] at hp
    · exact hp

section
variable (hn : n.Linked) (hab : a ≠ b) (ha : n.isLive a = true) (hb : n.isLive b = true)
include hn hab ha hb

theorem mem_outgoing_merge :
    (q, l) ∈ (n.merge a b).2.outgoing p ↔ ∃ p' q', (q', l) ∈ n.outgoing p' ∧
      redirect a b n.arena.size p' = p ∧ redirect a b n.arena.size q' = q :=
  Kind.outgoing.mem_merge hab ha hb fun _ _ _ => hn.mem_neighbours_of_outgoing

theorem mem_incoming_merge :
    (p, l) ∈ (n.merge a b).2.incoming q ↔ ∃ q' p', (p', l) ∈ n.incoming q' ∧
      redirect a b n.arena.size q' = q ∧ redirect a b n.arena.size p' = p :=
  Kind.incoming.mem_merge hab ha hb fun _ _ _ => hn.mem_neighbours_of_incoming

theorem Linked.merge : (n.merge a b).2.Linked := by
  intro p q l
  rw [mem_incoming_merge hn hab ha hb, mem_outgoing_merge hn hab ha hb]
  constructor
  · rintro ⟨q', p', he, hq, hp⟩
    exact ⟨p', q', (hn _ _ _).1 he, hp, hq⟩
  · rintro ⟨p', q', he, hp, hq⟩
    exact ⟨q', p', (hn _ _ _).2 he, hq, hp⟩

end
end

end BoardGame.Nfa
