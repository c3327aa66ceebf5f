import BoardGame.Proofs.Automaton.Numbering
import Mathlib.Data.Finset.Powerset

/-!
# The subset construction

`Subsets.Builds` is the construction without a bound on its calls: a derivation is a run that ends.
A state is entered into the table before its transitions are known, so what holds of the table and
what holds of the states made so far are kept apart: `Table` says that the sets of the table are
those of the states, one each, and `Finished` that a state leads where the edges of its set do. A
run finishes every state it makes (`Builds.finished`).
-/

namespace BoardGame.Subsets
open Nfa (Edge Path)

/-! ### Where steps lead -/

section
variable {s : Step} {j : Nat} {ms : List (Step × List Nat)}

theorem map_fst_note : (note s j ms).map Prod.fst =
    if s ∈ ms.map Prod.fst then ms.map Prod.fst else ms.map Prod.fst ++ [s] := by
  induction ms with
  | nil => rfl
  | cons e ms ih =>
    obtain ⟨s', targets⟩ := e
    rw [note]
    by_cases h : s' = s
    · simp [h]
    · rw [if_neg h, List.map_cons, ih]
      by_cases hs : s ∈ ms.map Prod.fst <;> simp [hs, Ne.symm h]

theorem mem_note (hms : (ms.map Prod.fst).Nodup) {s' : Step} {targets : List Nat}
    (h : (s', targets) ∈ note s j ms) :
    s' ≠ s ∧ (s', targets) ∈ ms ∨ s' = s ∧ ((∃ old, (s, old) ∈ ms ∧ targets = old ++ [j]) ∨
      s ∉ ms.map Prod.fst ∧ targets = [j]) := by
  induction ms with
  | nil =>
    obtain ⟨rfl, rfl⟩ := Prod.mk.inj (List.mem_singleton.1 h)
    exact .inr ⟨rfl, .inr ⟨List.not_mem_nil, rfl⟩⟩
  | cons e ms ih =>
    obtain ⟨s₀, old⟩ := e
    obtain ⟨hnot, hms⟩ := List.nodup_cons.1 hms
    rw [note] at h
    by_cases hs₀ : s₀ = s
    · rw [if_pos hs₀] at h
      rcases List.mem_cons.1 h with h | h
      · obtain ⟨rfl, rfl⟩ := Prod.mk.inj h
        exact .inr ⟨hs₀, .inl ⟨old, hs₀ ▸ List.mem_cons_self .., rfl⟩⟩
      · have hne : s' ≠ s := by
          intro hs
          refine hnot ?_
          show s₀ ∈ ms.map Prod.fst
          rw [hs₀, ← hs]
          exact List.mem_map_of_mem (f := Prod.fst) h
        exact .inl ⟨hne, List.mem_cons_of_mem _ h⟩
    · rw [if_neg hs₀] at h
      rcases List.mem_cons.1 h with h | h
      · obtain ⟨rfl, rfl⟩ := Prod.mk.inj h
        exact .inl ⟨hs₀, List.mem_cons_self ..⟩
      rcases ih hms h with ⟨h₁, h₂⟩ | ⟨h₁, ⟨old, h₂, h₃⟩ | ⟨h₂, h₃⟩⟩
      · exact .inl ⟨h₁, List.mem_cons_of_mem _ h₂⟩
      · exact .inr ⟨h₁, .inl ⟨old, List.mem_cons_of_mem _ h₂, h₃⟩⟩
      · exact .inr ⟨h₁, .inr ⟨fun h => (List.mem_cons.1 h).elim (Ne.symm hs₀) h₂, h₃⟩⟩

/-- `ms` sorts the edges of `es` that are not empty by what they read. -/
structure Groups (es : List Edge) (ms : List (Step × List Nat)) : Prop where
  nodup : (ms.map Prod.fst).Nodup
  mem_iff : ∀ s targets, (s, targets) ∈ ms → ∀ j, j ∈ targets ↔ (j, some s) ∈ es
  noted : ∀ j s, (j, some s) ∈ es → s ∈ ms.map Prod.fst
  nonempty : ∀ s targets, (s, targets) ∈ ms → targets ≠ []

variable {es : List Edge}

theorem Groups.silent (h : Groups es ms) : Groups (es ++ [(j, none)]) ms where
  nodup := h.nodup
  mem_iff := fun s targets hs i => by
    rw [h.mem_iff s targets hs i]
    simp
  noted := fun i s he => h.noted i s (by simpa using he)
  nonempty := h.nonempty

theorem Groups.note (h : Groups es ms) : Groups (es ++ [(j, some s)]) (note s j ms) where
  nodup := by
    rw [map_fst_note]
    split
    · exact h.nodup
    · rename_i hs
      exact List.nodup_append.2 ⟨h.nodup, List.nodup_singleton s, fun x hx y hy =>
        List.mem_singleton.1 hy ▸ ne_of_mem_of_not_mem hx hs⟩
  mem_iff := by
    intro s' targets hs' i
    rcases mem_note h.nodup hs' with ⟨hne, hs'⟩ | ⟨rfl, ⟨old, hold, rfl⟩ | ⟨hs, rfl⟩⟩
    · rw [h.mem_iff s' targets hs' i]
      simp [hne]
    · rw [List.mem_append, List.mem_append, h.mem_iff s' old hold i]
      simp
    · have hno : (i, some s') ∉ es := fun he => hs (h.noted i s' he)
      simp [hno]
  noted := by
    intro i s' he
    rw [map_fst_note]
    rcases List.mem_append.1 he with he | he
    · have := h.noted i s' he
      split
      · exact this
      · exact List.mem_append_left _ this
    · obtain ⟨rfl, hs⟩ := Prod.mk.inj (List.mem_singleton.1 he)
      obtain rfl := Option.some.inj hs
      split
      · assumption
      · exact List.mem_append_right _ (List.mem_singleton_self _)
  nonempty := by
    intro s' targets hs'
    rcases mem_note h.nodup hs' with ⟨-, hs'⟩ | ⟨rfl, ⟨old, -, rfl⟩ | ⟨-, rfl⟩⟩
    · exact h.nonempty s' targets hs'
    · exact List.append_ne_nil_of_right_ne_nil _ (List.cons_ne_nil _ _)
    · exact List.cons_ne_nil _ _

theorem Groups.foldl {f : List (Step × List Nat) → Edge → List (Step × List Nat)}
    (hf : ∀ es e ms, Groups es ms → Groups (es ++ [e]) (f ms e)) (es' : List Edge) {es : List Edge}
    {ms : List (Step × List Nat)} (h : Groups es ms) : Groups (es ++ es') (es'.foldl f ms) := by
  induction es' generalizing es ms with
  | nil => rwa [List.append_nil]
  | cons e es' ih =>
    rw [List.append_cons, List.foldl_cons]
    exact ih (hf es e ms h)

theorem groups_nil : Groups [] [] :=
  ⟨List.nodup_nil, fun _ _ h => absurd h List.not_mem_nil, fun _ _ h => absurd h List.not_mem_nil,
    fun _ _ h => absurd h List.not_mem_nil⟩

theorem groups_moves (m : Numbered) (members : List Nat) :
    Groups (members.flatMap m.outgoing) (moves m members) := by
  refine Groups.foldl (fun es e ms h => ?_) _ groups_nil
  obtain ⟨j, label⟩ := e
  cases label with
  | none => exact h.silent
  | some s => exact h.note

end

/-! ### Runs of the construction -/

variable {m : Numbered} {accept : Nat} {b b₁ b' : Subsets m.size} {set : StateSet m.size}
  {seeds : List Nat} {rest : List (List Nat)} {id : StateId} {ids : List StateId} {ts : List (Step × StateId)}

/-- `b` with a state for `set` whose transitions are not known yet. -/
def enter {size : Nat} (b : Subsets size) (accept : Nat) (set : StateSet size) : Subsets size :=
  ⟨(set, b.states.size) :: b.known, b.states.push ⟨[], set.contains accept⟩⟩

/-- `b` with the transitions of a state. -/
def settle {size : Nat} (b : Subsets size) (id : StateId) (s : Dfa.State) : Subsets size :=
  { b with states := b.states.setIfInBounds id s }

theorem size_enter : (b.enter accept set).states.size = b.states.size + 1 := Array.size_push ..

theorem size_settle {s : Dfa.State} : (b.settle id s).states.size = b.states.size :=
  Array.size_setIfInBounds ..

theorem getElem?_enter {i : Nat} (h : i < b.states.size) :
    (b.enter accept set).states[i]? = b.states[i]? := by
  rw [enter, Array.getElem?_push, if_neg (Nat.ne_of_lt h)]

theorem getElem?_settle_of_ne {s : Dfa.State} {i : Nat} (h : id ≠ i) :
    (b.settle id s).states[i]? = b.states[i]? :=
  Array.getElem?_setIfInBounds_ne h

/-- Making the states for some lists of seeds, one after the other, ends with `b'` and gives
`ids`. -/
inductive Builds (m : Numbered) (accept : Nat) :
    Subsets m.size → List (List Nat) → List StateId → Subsets m.size → Prop
  | nil (b : Subsets m.size) : Builds m accept b [] [] b
  | known {b b' : Subsets m.size} {seeds : List Nat} {rest : List (List Nat)} {id : StateId}
      {ids : List StateId} {c : StateSet m.size × List Nat} (hc : m.ClosureOf seeds c)
      (hid : b.known.lookup c.1 = some id) (hrest : Builds m accept b rest ids b') :
      Builds m accept b (seeds :: rest) (id :: ids) b'
  | fresh {b b₁ b' : Subsets m.size} {seeds : List Nat} {rest : List (List Nat)} {targets : List StateId}
      {ids : List StateId} {c : StateSet m.size × List Nat} (hc : m.ClosureOf seeds c)
      (hid : b.known.lookup c.1 = none)
      (hmoves : Builds m accept (b.enter accept c.1) ((moves m c.2).map Prod.snd) targets b₁)
      (hrest : Builds m accept (b₁.settle b.states.size
        ⟨((moves m c.2).map Prod.fst).zip targets, c.1.contains accept⟩) rest ids b') :
      Builds m accept b (seeds :: rest) (b.states.size :: ids) b'

/-- The table has one set for each state, the newest first, and no set twice. -/
structure Table (m : Numbered) (b : Subsets m.size) : Prop where
  nodup : (b.known.map Prod.fst).Nodup
  ids : b.known.map Prod.snd = (List.range b.states.size).reverse
  lt_size : ∀ set ∈ b.known.map Prod.fst, ∀ i, set.contains i = true → i < m.size

namespace Table

theorem length_known (h : Table m b) : b.known.length = b.states.size := by
  have := congrArg List.length h.ids
  simpa using this

/-- A set of the table is told from the others by the numbers of states that it holds. -/
theorem eq_of_contains_iff {set' : StateSet m.size} (h : Table m b)
    (hset : set ∈ b.known.map Prod.fst) (hset' : set' ∈ b.known.map Prod.fst)
    (heq : ∀ i < m.size, set.contains i = true ↔ set'.contains i = true) : set = set' := by
  refine StateSet.ext fun i => Bool.eq_iff_iff.2 ⟨fun hc => ?_, fun hc => ?_⟩
  · exact (heq i (h.lt_size set hset i hc)).1 hc
  · exact (heq i (h.lt_size set' hset' i hc)).2 hc

theorem size_le (h : Table m b) : b.states.size ≤ 2 ^ m.size := by
  have hle : (b.known.map Prod.fst).toFinset.card ≤ (Finset.range m.size).powerset.card := by
    refine Finset.card_le_card_of_injOn
      (fun set => (Finset.range m.size).filter (set.contains · = true)) (fun set _ => ?_) ?_
    · exact Finset.mem_coe.2 (Finset.mem_powerset.2 (Finset.filter_subset _ _))
    · intro set hset set' hset' heq
      refine h.eq_of_contains_iff (List.mem_toFinset.1 hset) (List.mem_toFinset.1 hset')
        fun i hi => ?_
      simpa [hi] using Finset.ext_iff.1 heq i
  rwa [List.toFinset_card_of_nodup h.nodup, List.length_map, h.length_known, Finset.card_powerset,
    Finset.card_range] at hle

theorem mem_ids (h : Table m b) : id ∈ b.known.map Prod.snd ↔ id < b.states.size := by
  rw [h.ids, List.mem_reverse, List.mem_range]

theorem eq_of_ids {set' : StateSet m.size} (h : Table m b) (h₁ : (set, id) ∈ b.known)
    (h₂ : (set', id) ∈ b.known) : set = set' := by
  have hnodup : (b.known.map Prod.snd).Nodup := by
    rw [h.ids]
    exact List.nodup_reverse.2 List.nodup_range
  exact congrArg Prod.fst (List.inj_on_of_nodup_map hnodup h₁ h₂ rfl)

theorem eq_of_sets {id' : StateId} (h : Table m b) (h₁ : (set, id) ∈ b.known)
    (h₂ : (set, id') ∈ b.known) : id = id' :=
  congrArg Prod.snd (List.inj_on_of_nodup_map h.nodup h₁ h₂ rfl)

theorem enter (h : Table m b) (accept : Nat) (hset : b.known.lookup set = none)
    (hlt : ∀ i, set.contains i = true → i < m.size) : Table m (b.enter accept set) where
  nodup := by
    refine List.nodup_cons.2 ⟨fun hmem => ?_, h.nodup⟩
    obtain ⟨e, he, heq⟩ := List.mem_map.1 hmem
    have := List.lookup_eq_none_iff.1 hset e he
    simp [heq] at this
  ids := by
    simp [Subsets.enter, List.range_succ, h.ids]
  lt_size := by
    intro set' hmem
    rcases List.mem_cons.1 hmem with rfl | hmem
    · exact hlt
    · exact h.lt_size set' hmem

theorem settle {s : Dfa.State} (h : Table m b) : Table m (b.settle id s) where
  nodup := h.nodup
  ids := by
    rw [size_settle]
    exact h.ids
  lt_size := h.lt_size

end Table

theorem lt_size_of_mem_moves (hm : m.Bounded) (members : List Nat) :
    ∀ seeds ∈ (moves m members).map Prod.snd, ∀ i ∈ seeds, i < m.size := by
  intro seeds hseeds i hi
  obtain ⟨⟨s, seeds⟩, hmem, rfl⟩ := List.mem_map.1 hseeds
  have he := ((groups_moves m members).mem_iff s seeds hmem i).1 hi
  obtain ⟨j, -, he⟩ := List.mem_flatMap.1 he
  exact hm j _ he

namespace Builds

theorem size_le (h : Builds m accept b rest ids b') : b.states.size ≤ b'.states.size := by
  induction h with
  | nil => exact Nat.le_refl _
  | known _ _ _ ih => exact ih
  | fresh _ _ _ _ ih₁ ih₂ =>
    rw [size_enter] at ih₁
    rw [size_settle] at ih₂
    omega

theorem known_subset (h : Builds m accept b rest ids b') : b.known ⊆ b'.known := by
  induction h with
  | nil => exact fun _ h => h
  | known _ _ _ ih => exact ih
  | fresh _ _ _ _ ih₁ ih₂ => exact fun _ h => ih₂ (ih₁ (List.mem_cons_of_mem _ h))

theorem states_eq (h : Builds m accept b rest ids b') {id : Nat} (hid : id < b.states.size) :
    b'.states[id]? = b.states[id]? := by
  induction h with
  | nil => rfl
  | known _ _ _ ih => exact ih hid
  | @fresh b b₁ _ _ _ _ _ _ _ _ hmoves _ ih₁ ih₂ =>
    have hsize := hmoves.size_le
    rw [size_enter] at hsize
    rw [ih₂ (by rw [size_settle]; omega), getElem?_settle_of_ne (Nat.ne_of_gt hid),
      ih₁ (by rw [size_enter]; omega), getElem?_enter hid]

theorem states_eq_of_ne {s : Dfa.State} {i : Nat} (h : Builds m accept (b₁.settle id s) rest ids b')
    (hi : i < b₁.states.size) (hne : id ≠ i) : b'.states[i]? = b₁.states[i]? := by
  rw [h.states_eq (by rwa [size_settle]), getElem?_settle_of_ne hne]

theorem table (h : Builds m accept b rest ids b') (hm : m.Bounded) (hb : Table m b) :
    Table m b' := by
  induction h with
  | nil => exact hb
  | known _ _ _ ih => exact ih hb
  | fresh hc hid _ _ ih₁ ih₂ =>
    exact ih₂ (ih₁ (hb.enter _ hid fun _ hi => hc.lt_size hm hi)).settle

theorem cons (h : Builds m accept b [seeds] [id] b₁) (hrest : Builds m accept b₁ rest ids b') :
    Builds m accept b (seeds :: rest) (id :: ids) b' := by
  cases h with
  | known hc hid h =>
    cases h
    exact .known hc hid hrest
  | fresh hc hid hmoves h =>
    cases h
    exact .fresh hc hid hmoves hrest

theorem forall₂ (h : Builds m accept b rest ids b') :
    List.Forall₂ (fun seeds id => ∃ c, m.ClosureOf seeds c ∧ (c.1, id) ∈ b'.known) rest ids := by
  induction h with
  | nil => exact .nil
  | @known b _ _ _ id _ c hc hid hrest ih =>
    refine .cons ⟨c, hc, hrest.known_subset ?_⟩ ih
    obtain ⟨l₁, l₂, hl, -⟩ := List.lookup_eq_some_iff.1 hid
    rw [hl]
    exact List.mem_append_right _ (List.mem_cons_self ..)
  | @fresh _ _ _ _ _ _ _ c hc _ hmoves hrest _ ih =>
    exact .cons ⟨c, hc, hrest.known_subset (hmoves.known_subset (List.mem_cons_self ..))⟩ ih

end Builds

/-! ### The bound on calls -/

theorem builds_targets (hm : m.Bounded) {fuel : Nat} 
    {make : Subsets m.size → List Nat → StateId × Subsets m.size}
    (hmake : ∀ b seeds, Table m b → 2 ^ m.size < fuel + b.states.size → (∀ i ∈ seeds, i < m.size) →
      Builds m accept b [seeds] [(make b seeds).1] (make b seeds).2)
    {ms : List (Step × List Nat)} (hb : Table m b) (hf : 2 ^ m.size < fuel + b.states.size)
    (hs : ∀ seeds ∈ ms.map Prod.snd, ∀ i ∈ seeds, i < m.size) :
    ∃ ids, (targets make b ms).1 = (ms.map Prod.fst).zip ids ∧
      Builds m accept b (ms.map Prod.snd) ids (targets make b ms).2 := by
  induction ms generalizing b with
  | nil => exact ⟨[], rfl, .nil b⟩
  | cons e ms ih =>
    obtain ⟨s, seeds⟩ := e
    have hseeds := hs seeds (List.mem_cons_self ..)
    have h := hmake b seeds hb hf hseeds
    have hb₁ := h.table hm hb
    have hsize := h.size_le
    obtain ⟨ids, hids, hrest⟩ := ih hb₁ (by omega) fun seeds h => hs seeds (List.mem_cons_of_mem _ h)
    exact ⟨(make b seeds).1 :: ids, congrArg ((s, (make b seeds).1) :: ·) hids, h.cons hrest⟩

theorem builds_make (hm : m.Bounded) {fuel : Nat} (hb : Table m b)
    (hf : 2 ^ m.size < fuel + b.states.size) (hs : ∀ i ∈ seeds, i < m.size) :
    Builds m accept b [seeds] [(make m accept fuel b seeds).1] (make m accept fuel b seeds).2 := by
  induction fuel generalizing b seeds with
  | zero =>
    have := hb.size_le
    omega
  | succ fuel ih =>
    have hc := Numbered.closureOf_closure hm hs
    rw [make]
    generalize m.closure seeds = c at hc
    obtain ⟨set, members⟩ := c
    dsimp only
    cases hid : b.known.lookup set with
    | some id => exact .known hc hid (.nil b)
    | none =>
      have hb' := hb.enter accept hid fun i hi => hc.lt_size hm hi
      obtain ⟨ids, hids, hmoves⟩ := builds_targets hm (fun b seeds hb hf hs => ih hb hf hs) hb'
        (by rw [size_enter]; omega) (lt_size_of_mem_moves hm members)
      refine .fresh hc hid hmoves ?_
      rw [← hids]
      exact .nil _

/-! ### The states that a run makes -/

/-- State `id` stands for `set` and leads where the edges of the set do. -/
structure Finished (m : Numbered) (accept : Nat) (b : Subsets m.size) (set : StateSet m.size)
    (id : StateId) (ts : List (Step × StateId)) : Prop where
  known : (set, id) ∈ b.known
  state : b.states[id]? = some ⟨ts, set.contains accept⟩
  closed : m.Closed set
  nodup : (ts.map Prod.fst).Nodup
  target : ∀ s q, (s, q) ∈ ts → ∃ set', (set', q) ∈ b.known ∧ ∀ j, set'.contains j = true ↔
    ∃ i k, set.contains i = true ∧ (k, some s) ∈ m.outgoing i ∧ Path m.outgoing k [] j
  moved : ∀ i k s, set.contains i = true → (k, some s) ∈ m.outgoing i → ∃ q, (s, q) ∈ ts
  occurs : ∀ s q, (s, q) ∈ ts → ∃ i k, set.contains i = true ∧ (k, some s) ∈ m.outgoing i

theorem Finished.mono (h : Finished m accept b set id ts) (hknown : b.known ⊆ b'.known)
    (hstate : b'.states[id]? = b.states[id]?) : Finished m accept b' set id ts where
  known := hknown h.known
  state := hstate.trans h.state
  closed := h.closed
  nodup := h.nodup
  target := fun s q hs =>
    have ⟨set', hset', hj⟩ := h.target s q hs
    ⟨set', hknown hset', hj⟩
  moved := h.moved
  occurs := h.occurs

theorem finished_of_targets {c : StateSet m.size × List Nat} {targets : List StateId}
    (hc : m.ClosureOf seeds c) (hknown : (c.1, id) ∈ b.known)
    (hstate : b.states[id]? =
      some ⟨((moves m c.2).map Prod.fst).zip targets, c.1.contains accept⟩)
    (htargets : List.Forall₂ (fun seeds id => ∃ c, m.ClosureOf seeds c ∧ (c.1, id) ∈ b.known)
      ((moves m c.2).map Prod.snd) targets) :
    Finished m accept b c.1 id (((moves m c.2).map Prod.fst).zip targets) := by
  have hg := groups_moves m c.2
  have hlen : ((moves m c.2).map Prod.fst).length = targets.length := by
    simpa using htargets.length_eq
  have hfst : ((((moves m c.2).map Prod.fst).zip targets).map Prod.fst) =
      (moves m c.2).map Prod.fst := List.map_fst_zip hlen.le
  have hedge : ∀ k s, (k, some s) ∈ c.2.flatMap m.outgoing ↔
      ∃ i, c.1.contains i = true ∧ (k, some s) ∈ m.outgoing i := by
    intro k s
    rw [List.mem_flatMap]
    exact exists_congr fun i => and_congr_left' hc.mem_iff
  exact {
    known := hknown
    state := hstate
    closed := hc.closed
    nodup := by rw [hfst]; exact hg.nodup
    target := by
      intro s q hs
      rw [List.zip_map_left] at hs
      obtain ⟨⟨⟨s', seeds⟩, q'⟩, hmem, heq⟩ := List.mem_map.1 hs
      obtain ⟨rfl, rfl⟩ := Prod.mk.inj heq
      obtain ⟨c', hc', hknown'⟩ := List.forall₂_zip (List.forall₂_map_left_iff.1 htargets) hmem
      refine ⟨c'.1, hknown', fun j => ?_⟩
      rw [hc'.contains_iff]
      constructor
      · rintro ⟨k, hk, hp⟩
        have he := (hg.mem_iff _ _ (List.of_mem_zip hmem).1 k).1 hk
        obtain ⟨i, hi, he⟩ := (hedge k _).1 he
        exact ⟨i, k, hi, he, hp⟩
      · rintro ⟨i, k, hi, he, hp⟩
        exact ⟨k, (hg.mem_iff _ _ (List.of_mem_zip hmem).1 k).2 ((hedge k _).2 ⟨i, hi, he⟩), hp⟩
    moved := by
      intro i k s hi he
      have hs := hg.noted k s ((hedge k s).2 ⟨i, hi, he⟩)
      rw [← hfst] at hs
      obtain ⟨⟨s', q⟩, hmem, rfl⟩ := List.mem_map.1 hs
      exact ⟨q, hmem⟩
    occurs := by
      intro s q hs
      obtain ⟨⟨s', seeds⟩, hmem, rfl⟩ := List.mem_map.1 (List.of_mem_zip hs).1
      obtain ⟨k, hk⟩ := List.exists_mem_of_ne_nil _ (hg.nonempty s' seeds hmem)
      obtain ⟨i, hi, he⟩ := (hedge k s').1 ((hg.mem_iff s' seeds hmem k).1 hk)
      exact ⟨i, k, hi, he⟩ }

namespace Builds

theorem settled {c : StateSet m.size × List Nat} {targets : List StateId} {s : Dfa.State}
    (hmoves : Builds m accept (b.enter accept c.1) ((moves m c.2).map Prod.snd) targets b₁)
    (hrest : Builds m accept (b₁.settle b.states.size s) rest ids b') :
    b'.states[b.states.size]? = some s := by
  have hsize := hmoves.size_le
  rw [size_enter] at hsize
  rw [hrest.states_eq (by rw [size_settle]; omega), settle,
    Array.getElem?_setIfInBounds_self_of_lt (by omega)]

theorem finished (h : Builds m accept b rest ids b') (id : Nat) (hle : b.states.size ≤ id)
    (hlt : id < b'.states.size) : ∃ set ts, Finished m accept b' set id ts := by
  induction h generalizing id with
  | nil => omega
  | known _ _ _ ih => exact ih id hle hlt
  | @fresh b b₁ b' _ _ targets _ c hc _ hmoves hrest ih₁ ih₂ =>
    have hsub : b₁.known ⊆ b'.known := hrest.known_subset
    by_cases hid₁ : b₁.states.size ≤ id
    · exact ih₂ id (by rw [size_settle]; exact hid₁) hlt
    by_cases hid : id = b.states.size
    · subst hid
      exact ⟨_, _, finished_of_targets hc (hsub (hmoves.known_subset (List.mem_cons_self ..)))
        (settled hmoves hrest) (hmoves.forall₂.imp fun _ _ ⟨c, hc, h⟩ => ⟨c, hc, hsub h⟩)⟩
    · obtain ⟨set, ts, hf⟩ := ih₁ id (by rw [size_enter]; omega) (by omega)
      exact ⟨set, ts, hf.mono hsub (hrest.states_eq_of_ne (by omega) (Ne.symm hid))⟩

/-- What holds of the states that a run gives, and with a state of those it leads to, holds of all
states that the run makes. `d` is an automaton that keeps them. -/
theorem reached {P : Nat → Prop} {d : Dfa} (h : Builds m accept b rest ids b')
    (hd : ∀ id, b.states.size ≤ id → id < b'.states.size → d.states[id]? = b'.states[id]?)
    (hP : ∀ p s q, P p → (s, q) ∈ d.transitions p → P q) (hids : ∀ id ∈ ids, P id) (id : Nat)
    (hle : b.states.size ≤ id) (hlt : id < b'.states.size) : P id := by
  induction h generalizing id with
  | nil => omega
  | known _ _ _ ih => exact ih hd (fun id h => hids id (List.mem_cons_of_mem _ h)) id hle hlt
  | @fresh b b₁ b' _ _ targets _ c _ _ hmoves hrest ih₁ ih₂ =>
    have hsize := hmoves.size_le
    have hsize' := hrest.size_le
    rw [size_enter] at hsize
    rw [size_settle] at hsize'
    by_cases hid₁ : b₁.states.size ≤ id
    · refine ih₂ (fun id hle hlt => hd id ?_ hlt)
        (fun id h => hids id (List.mem_cons_of_mem _ h)) id ?_ hlt
      · rw [size_settle] at hle
        omega
      · rw [size_settle]
        exact hid₁
    have hself : P b.states.size := hids _ (List.mem_cons_self ..)
    by_cases hid : id = b.states.size
    · exact hid ▸ hself
    refine ih₁ (fun id hle hlt => ?_) (fun q hq => ?_) id ?_ (by omega)
    · rw [size_enter] at hle
      rw [hd id (by omega) (by omega), hrest.states_eq_of_ne hlt (Nat.ne_of_lt hle)]
    · have hlen : ((moves m c.2).map Prod.fst).length = targets.length := by
        simpa using hmoves.forall₂.length_eq
      rw [← List.map_snd_zip hlen.ge] at hq
      obtain ⟨⟨s, q⟩, hmem, rfl⟩ := List.mem_map.1 hq
      refine hP b.states.size s q hself ?_
      rw [Dfa.transitions, hd _ (Nat.le_refl _) (by omega), settled hmoves hrest]
      exact hmem
    · rw [size_enter]
      omega

end Builds
end BoardGame.Subsets
