import BoardGame.Proofs.Automaton.Exploration
import BoardGame.Proofs.Automaton.Layout

/-!
# The order of transitions

The transitions of a state are meant to be in the order in which their steps first occur in the
pattern (`Pattern.KeepsOrder`). They are not if much lies behind an alternative that is not the last one
(`not_keepsOrder_grouped`). They are if the steps of the pattern differ and it is orderly
(`Pattern.keepsOrder_of_orderly`): then the closure of each state of its part meets the steps in
order, which follows the wiring of the part (`Pattern.Wired.met`).
-/

namespace BoardGame
open Nfa (Edge arcs silents Meets MetIn Quiet)
open scoped List

/-- The transitions of every state are in the order in which their steps first occur in the pattern. -/
def Pattern.KeepsOrder (p : Pattern) : Prop :=
  ∀ q, ((Dfa.ofPattern p).transitions q).Pairwise fun t t' => p.steps.idxOf t.1 < p.steps.idxOf t'.1

/-- Three alternatives, the first two of them grouped. -/
def grouped : Pattern :=
  .union (.union (.step ⟨1, 0, .var "empty", none⟩) (.step ⟨0, 1, .var "empty", none⟩))
    (.step ⟨1, 1, .var "empty", none⟩)

/-- The last of grouped alternatives comes first. -/
theorem not_keepsOrder_grouped :
    (Dfa.ofPattern grouped).transitions 0 = [(⟨1, 1, .var "empty", none⟩, 1),
      (⟨1, 0, .var "empty", none⟩, 1), (⟨0, 1, .var "empty", none⟩, 1)] ∧ ¬ grouped.KeepsOrder := by
  have h : (Dfa.ofPattern grouped).transitions 0 = [(⟨1, 1, .var "empty", none⟩, 1),
      (⟨1, 0, .var "empty", none⟩, 1), (⟨0, 1, .var "empty", none⟩, 1)] := by decide +kernel
  refine ⟨h, fun hkeeps => ?_⟩
  have hpairwise := hkeeps 0
  rw [h] at hpairwise
  revert hpairwise
  decide

/-! ### Orderly patterns -/

/-- The pattern begins with a step of its own. -/
def Pattern.beginsWithStep : Pattern → Bool
  | step _ => true
  | concat left _ => left.beginsWithStep
  | plus inner => inner.beginsWithStep
  | union _ _ | star _ | optional _ => false

/-- The pattern ends with a step of its own. -/
def Pattern.endsWithStep : Pattern → Bool
  | step _ => true
  | concat _ right => right.endsWithStep
  | union left right => left.endsWithStep && right.endsWithStep
  | star _ | plus _ | optional _ => false

/-- Every alternative but the last begins with a step, what is repeated ends with one, and what is
repeated or optional begins with one if more of the pattern follows it. -/
def Pattern.orderly (followed : Bool) : Pattern → Bool
  | step _ => true
  | concat left right => left.orderly true && right.orderly followed
  | union left right =>
    left.beginsWithStep && left.orderly followed && right.orderly followed
  | star inner | plus inner =>
    inner.endsWithStep && inner.orderly true && (inner.beginsWithStep || !followed)
  | optional inner => inner.orderly followed && (inner.beginsWithStep || !followed)

namespace Nfa
variable {out : StateId → List Edge} {A A' : List (Step × StateId)} {t u v : StateId}
  {es tail : List Edge}

/-- Empty edges to states that no edge leaves. -/
def Idle (out : StateId → List Edge) (es : List Edge) : Prop := ∀ e ∈ es, e.2 = none ∧ out e.1 = []

theorem Idle.arcs_eq_nil (h : Idle out es) : arcs es = [] :=
  List.filterMap_eq_nil_iff.2 fun e he => by rw [(h e he).1]; rfl

theorem Idle.outgoing_eq_nil (h : Idle out es) : ∀ u ∈ silents es, out u = [] :=
  fun _ hu => (h _ (mem_silents.1 hu)).2

theorem idle_nil : Idle out [] := fun _ he => absurd he List.not_mem_nil

theorem Idle.cons (h : Idle out es) (hu : out u = []) : Idle out ((u, none) :: es) :=
  List.forall_mem_cons.2 ⟨⟨rfl, hu⟩, h⟩

theorem MetIn.mono (h : MetIn out A v) (hA : A <+ A') : MetIn out A' v := by
  obtain ⟨B, hB, hsub⟩ := h
  exact ⟨B, hB, hsub.trans hA⟩

theorem metIn_of_quiet (hv : out v = es ++ tail) (hes : silents es = []) (htail : Idle out tail)
    (hA : arcs es <+ A) : MetIn out A v := by
  refine ⟨_, .quiet fun u hu => htail.outgoing_eq_nil u ?_, ?_⟩
  · rwa [hv, silents_append, hes] at hu
  · rwa [hv, arcs_append, htail.arcs_eq_nil, List.append_nil]

/-- A state whose own arcs come before those of a state that an empty edge leads to. -/
theorem metIn_of_exit (hv : out v = es ++ (u, none) :: tail) (hes : silents es = [])
    (htail : Idle out tail) (hA : arcs es <+ A) (hu : Meets out u A') : MetIn out (A ++ A') v := by
  have hsil : silents (out v) = [] ++ u :: silents tail := by
    rw [hv, silents_append, hes]
    rfl
  have harcs : arcs (out v) = arcs es := by
    rw [hv, arcs_append]
    exact (congrArg (arcs es ++ ·) htail.arcs_eq_nil).trans (List.append_nil _)
  refine ⟨_, .comb hsil (fun _ h => absurd h List.not_mem_nil) htail.outgoing_eq_nil hu, ?_⟩
  rw [harcs]
  exact hA.append (List.Sublist.refl _)

/-- A state with an empty edge, if no edge leaves where its others lead. -/
theorem metIn_of_enter (hv : out v = (u, none) :: tail) (htail : Idle out tail)
    (hu : MetIn out A u) : MetIn out A v := by
  obtain ⟨A', hA', hsub⟩ := hu
  have hv : out v = [] ++ (u, none) :: tail := hv
  exact (metIn_of_exit hv rfl htail (List.Sublist.refl _) hA').mono hsub

/-- A state with two empty edges, if nothing lies behind where the first one leads. -/
theorem metIn_of_fork (hv : out v = (u, none) :: (t, none) :: tail) (htail : Idle out tail)
    (hu : silents (out u) = []) (hA : arcs (out u) <+ A) (ht : Meets out t A') :
    MetIn out (A ++ A') v := by
  have hquiet : ∀ x ∈ [u], Quiet out x := List.forall_mem_singleton.2 fun x hx => by
    rw [hu] at hx
    cases hx
  have hsil : silents (out v) = [u] ++ t :: silents tail := by
    rw [hv]
    rfl
  have harcs : arcs (out v) = [] := by
    rw [hv]
    exact htail.arcs_eq_nil
  refine ⟨_, .comb hsil hquiet htail.outgoing_eq_nil ht, ?_⟩
  rw [harcs, List.nil_append, List.flatMap_singleton]
  exact hA.append (List.Sublist.refl _)

/-- The entry to a part that goes on at `t`. -/
theorem metIn_of_entry (hv : out v = (u, none) :: (t, none) :: tail) (htail : Idle out tail)
    (hu : MetIn out (A ++ A') u) (hA : arcs (out u) <+ A)
    (ht : out t = [] ∨ silents (out u) = [] ∧ Meets out t A') : MetIn out (A ++ A') v := by
  rcases ht with ht | ⟨hsil, ht⟩
  · exact metIn_of_enter hv (htail.cons ht) hu
  · exact metIn_of_fork hv htail hsil hA ht

/-- The first state of a part that goes on at `t`. -/
theorem metIn_of_shortcut (hv : out v = es ++ (t, none) :: tail) (htail : Idle out tail)
    (h : Idle out ((t, none) :: tail) → MetIn out (A ++ A') v) (hA : arcs es <+ A)
    (ht : out t = [] ∨ silents es = [] ∧ Meets out t A') : MetIn out (A ++ A') v := by
  rcases ht with ht | ⟨hes, ht⟩
  · exact h (htail.cons ht)
  · exact metIn_of_exit hv hes htail hA ht

end Nfa

namespace Pattern.Wired
variable {p : Pattern} {w : Wiring}

theorem silents_edges (h : p.Wired w) (hp : p.beginsWithStep = true) : silents w.edges = [] := by
  induction h with
  | step => rfl
  | concat _ _ _ ih => exact ih hp
  | plus _ _ ih => exact ih hp
  | union | star | starEntry | optionalSame | optional | optionalEntry => cases hp

theorem arcs_edges_sublist (h : p.Wired w) : arcs w.edges <+ w.arcs := by
  induction h with
  | step => exact List.Sublist.refl _
  | concat _ _ _ ih => exact ih.trans (List.sublist_append_left ..)
  | union | starEntry | optionalEntry => exact List.nil_sublist _
  | star _ _ _ _ ih | optional _ _ ih =>
    rw [Nfa.arcs_append]
    exact (List.append_nil _).symm ▸ ih
  | plus _ _ ih | optionalSame _ _ _ ih => exact ih

end Pattern.Wired

/-- `out` gives the states of `w` their edges, the first one `tail` as well. -/
structure Wiring.Fits (w : Wiring) (out : StateId → List Edge) (tail : List Edge) : Prop where
  first : out w.first = w.edges ++ tail
  inner : ∀ e ∈ w.inner, out e.1 = e.2

theorem Wiring.fits_nil {w : Wiring} {out : StateId → List Edge}
    (h : ∀ e ∈ w.table, out e.1 = e.2) : w.Fits out [] :=
  ⟨(h _ (List.mem_cons_self ..)).trans (List.append_nil _).symm,
    fun e he => h e (List.mem_cons_of_mem _ he)⟩

/-- From the first state of `w`, and from where its steps lead, its arcs are met in order, and then those
of `K`, which the last state leads to. What more leaves the first state must lead nowhere, unless only
the other states matter and none of them leads back to it. -/
structure Pattern.Met (p : Pattern) (out : StateId → List Edge) (w : Wiring) (tail : List Edge)
    (K : List (Step × StateId)) : Prop where
  first : Nfa.Idle out tail → MetIn out (w.arcs ++ K) w.first
  arcs : (p.startsWithLoop = true → tail = []) →
    ∀ a ∈ w.arcs, a.2 = w.last ∨ MetIn out (w.arcs ++ K) a.2

namespace Pattern.Met
variable {left right inner : Pattern} {l r i w : Wiring} {out : StateId → List Edge}
  {tail : List Edge} {K K' : List (Step × StateId)} {first last : StateId}

theorem mono (h : inner.Met out w tail K) (hK : K <+ K') : inner.Met out w tail K' where
  first := fun htail => (h.first htail).mono (hK.append_left _)
  arcs := fun hloop a ha => (h.arcs hloop a ha).imp_right (·.mono (hK.append_left _))

theorem step {s : Step} (hout : out first = (last, some s) :: tail) :
    (Pattern.step s).Met out ⟨first, last, [(last, some s)], [], [(s, last)]⟩ tail K where
  first := fun htail => by
    have hout : out first = [(last, some s)] ++ tail := hout
    exact Nfa.metIn_of_quiet hout rfl htail (List.sublist_append_left ..)
  arcs := fun _ a ha => .inl (by rw [List.mem_singleton.1 ha])

theorem concat (hl : left.Met out l tail K') (hr : right.Met out r [] K) (hK : K' <+ r.arcs ++ K)
    (h : l.last = r.first) : (Pattern.concat left right).Met out
      ⟨l.first, r.last, l.edges, l.inner ++ r.table, l.arcs ++ r.arcs⟩ tail K := by
  have hleft : l.arcs ++ K' <+ l.arcs ++ r.arcs ++ K := by
    rw [List.append_assoc]
    exact hK.append_left _
  have hright : r.arcs ++ K <+ l.arcs ++ r.arcs ++ K := by
    rw [List.append_assoc]
    exact List.sublist_append_right ..
  refine ⟨fun htail => (hl.first htail).mono hleft, fun hloop a ha => ?_⟩
  rcases List.mem_append.1 ha with ha | ha
  · rcases hl.arcs hloop a ha with ha | ha
    · right
      rw [ha, h]
      exact (hr.first Nfa.idle_nil).mono hright
    · exact .inr (ha.mono hleft)
  · exact (hr.arcs (fun _ => rfl) a ha).imp_right (·.mono hright)

theorem union (hl : left.Met out l [] K) (hr : right.Met out r [] K) (h : l.last = r.last)
    (hout : out first = (l.first, none) :: (r.first, none) :: tail)
    (hsil : silents (out l.first) = []) (harcs : Nfa.arcs (out l.first) <+ l.arcs) :
    (Pattern.union left right).Met out ⟨first, r.last, [(l.first, none), (r.first, none)],
      l.table ++ r.table, l.arcs ++ r.arcs⟩ tail K := by
  have hleft : l.arcs ++ K <+ l.arcs ++ r.arcs ++ K :=
    (List.sublist_append_left ..).append (List.Sublist.refl _)
  have hright : r.arcs ++ K <+ l.arcs ++ r.arcs ++ K := by
    rw [List.append_assoc]
    exact List.sublist_append_right ..
  refine ⟨fun htail => ?_, fun _ a ha => ?_⟩
  · obtain ⟨K', hK', hsub⟩ := hr.first Nfa.idle_nil
    refine (Nfa.metIn_of_fork hout htail hsil harcs hK').mono ?_
    rw [List.append_assoc]
    exact hsub.append_left _
  · rcases List.mem_append.1 ha with ha | ha
    · exact (hl.arcs (fun _ => rfl) a ha).imp (·.trans h) (·.mono hleft)
    · exact (hr.arcs (fun _ => rfl) a ha).imp_right (·.mono hright)

theorem star (hi : inner.Met out i ((last, none) :: tail) K) (h : i.last = i.first)
    (hloop : inner.startsWithLoop = false) (hout : out i.first = i.edges ++ (last, none) :: tail)
    (harcs : Nfa.arcs i.edges <+ i.arcs)
    (hlast : out last = [] ∨ silents i.edges = [] ∧ Meets out last K) :
    (Pattern.star inner).Met out ⟨i.first, last, i.edges ++ [(last, none)], i.inner, i.arcs⟩
      tail K := by
  have hfirst : Nfa.Idle out tail → MetIn out (i.arcs ++ K) i.first := fun htail =>
    Nfa.metIn_of_shortcut hout htail hi.first harcs hlast
  refine ⟨hfirst, fun htail a ha => ?_⟩
  rcases hi.arcs (fun h => absurd h (by simp [hloop])) a ha with ha | ha
  · obtain rfl := htail rfl
    right
    rw [ha, h]
    exact hfirst Nfa.idle_nil
  · exact .inr ha

theorem starEntry (hi : inner.Met out i [] K)
    (hout : out i.last = (i.first, none) :: (last, none) :: tail)
    (harcs : Nfa.arcs (out i.first) <+ i.arcs)
    (hlast : out last = [] ∨ silents (out i.first) = [] ∧ Meets out last K) :
    (Pattern.star inner).Met out ⟨i.last, last, [(i.first, none), (last, none)], i.table, i.arcs⟩
      tail K := by
  have hfirst : Nfa.Idle out tail → MetIn out (i.arcs ++ K) i.last := fun htail =>
    Nfa.metIn_of_entry hout htail (hi.first Nfa.idle_nil) harcs hlast
  refine ⟨hfirst, fun htail a ha => ?_⟩
  rcases hi.arcs (fun _ => rfl) a ha with ha | ha
  · obtain rfl := htail rfl
    right
    rw [ha]
    exact hfirst Nfa.idle_nil
  · exact .inr ha

theorem plus (hi : inner.Met out i tail K) (hout : out i.last = [(i.first, none), (last, none)])
    (harcs : tail = [] → Nfa.arcs (out i.first) <+ i.arcs)
    (hlast : tail = [] → out last = [] ∨ silents (out i.first) = [] ∧ Meets out last K) :
    (Pattern.plus inner).Met out ⟨i.first, last, i.edges,
      i.inner ++ [(i.last, [(i.first, none), (last, none)])], i.arcs⟩ tail K := by
  refine ⟨hi.first, fun htail a ha => ?_⟩
  obtain rfl := htail rfl
  rcases hi.arcs (fun _ => rfl) a ha with ha | ha
  · right
    rw [ha]
    exact Nfa.metIn_of_entry hout Nfa.idle_nil (hi.first Nfa.idle_nil) (harcs rfl) (hlast rfl)
  · exact .inr ha

theorem optionalSame (hi : inner.Met out i tail K) (hloop : inner.startsWithLoop = false) :
    (Pattern.optional inner).Met out i tail K :=
  ⟨hi.first, fun _ => hi.arcs fun h => absurd h (by simp [hloop])⟩

theorem optional (hi : inner.Met out i ((i.last, none) :: tail) K)
    (hloop : inner.startsWithLoop = false) (hout : out i.first = i.edges ++ (i.last, none) :: tail)
    (harcs : Nfa.arcs i.edges <+ i.arcs)
    (hlast : out i.last = [] ∨ silents i.edges = [] ∧ Meets out i.last K) :
    (Pattern.optional inner).Met out
      ⟨i.first, i.last, i.edges ++ [(i.last, none)], i.inner, i.arcs⟩ tail K where
  first := fun htail => Nfa.metIn_of_shortcut hout htail hi.first harcs hlast
  arcs := fun _ => hi.arcs fun h => absurd h (by simp [hloop])

theorem optionalEntry (hi : inner.Met out i [] K)
    (hout : out first = (i.first, none) :: (i.last, none) :: tail)
    (harcs : Nfa.arcs (out i.first) <+ i.arcs)
    (hlast : out i.last = [] ∨ silents (out i.first) = [] ∧ Meets out i.last K) :
    (Pattern.optional inner).Met out
      ⟨first, i.last, [(i.first, none), (i.last, none)], i.table, i.arcs⟩ tail K where
  first := fun htail => Nfa.metIn_of_entry hout htail (hi.first Nfa.idle_nil) harcs hlast
  arcs := fun _ => hi.arcs fun _ => rfl

end Pattern.Met

namespace Pattern.Wired
variable {p : Pattern} {i w : Wiring} {out : StateId → List Edge} {tail : List Edge}
  {K : List (Step × StateId)} {followed : Bool}

/-- Nothing comes after `last`, or only steps leave the first state. -/
theorem exit (hi : p.Wired i) {last : StateId} (hp : (p.beginsWithStep || !followed) = true)
    (hlast : followed = false → out last = []) (hK : Meets out last K) :
    out last = [] ∨ silents i.edges = [] ∧ Meets out last K := by
  rcases Bool.or_eq_true_iff.1 hp with hp | hp
  · exact .inr ⟨hi.silents_edges hp, hK⟩
  · exact .inl (hlast (by simpa using hp))

/-- The arcs of an orderly pattern are met in order, where the last state of its part leads to `K`.
If the last state is entered by steps only, what it leads to does not matter. -/
theorem met (h : p.Wired w) (ho : p.orderly followed = true)
    (hlast : followed = false → out w.last = [])
    (hK : Meets out w.last K ∨ p.endsWithStep = true ∧ K = []) (hw : w.Fits out tail) :
    p.Met out w tail K := by
  induction h generalizing followed tail K with
  | step => exact .step hw.first
  | @concat _ _ l r _ _ h ihl ihr =>
    simp only [orderly, Bool.and_eq_true] at ho
    have hr := ihr ho.2 hlast hK (Wiring.fits_nil fun e he => hw.inner e (List.mem_append_right _ he))
    obtain ⟨K', hK', hsub⟩ := hr.first Nfa.idle_nil
    have hfits : l.Fits out tail := ⟨hw.first, fun e he => hw.inner e (List.mem_append_left _ he)⟩
    exact .concat (ihl ho.1 nofun (.inl (h ▸ hK')) hfits) hr hsub h
  | @union left right l r hl _ h first ihl ihr =>
    simp only [orderly, Bool.and_eq_true] at ho
    have hKl : Meets out l.last K ∨ left.endsWithStep = true ∧ K = [] :=
      h ▸ hK.imp_right fun ⟨he, hK⟩ => ⟨(Bool.and_eq_true_iff.1 he).1, hK⟩
    have hKr : Meets out r.last K ∨ right.endsWithStep = true ∧ K = [] :=
      hK.imp_right fun ⟨he, hK⟩ => ⟨(Bool.and_eq_true_iff.1 he).2, hK⟩
    have hfl : out l.first = l.edges := hw.inner _ (List.mem_append_left _ (List.mem_cons_self ..))
    exact .union
      (ihl ho.1.2 (h ▸ hlast) hKl
        (Wiring.fits_nil fun e he => hw.inner e (List.mem_append_left _ he)))
      (ihr ho.2 hlast hKr (Wiring.fits_nil fun e he => hw.inner e (List.mem_append_right _ he)))
      h hw.first (hfl ▸ hl.silents_edges ho.1.1) (hfl ▸ hl.arcs_edges_sublist)
  | @star _ i hi h hloop last ih =>
    simp only [orderly, Bool.and_eq_true] at ho
    have hout : out i.first = i.edges ++ (last, none) :: tail :=
      hw.first.trans (List.append_assoc ..)
    have hinner := ih ho.1.2 nofun (.inr ⟨ho.1.1, rfl⟩) ⟨hout, hw.inner⟩
    exact .star (hinner.mono (List.nil_sublist K)) h hloop hout hi.arcs_edges_sublist
      (hi.exit ho.2 hlast (hK.resolve_right nofun))
  | @starEntry _ i hi last ih =>
    simp only [orderly, Bool.and_eq_true] at ho
    have hfi : out i.first = i.edges := hw.inner _ (List.mem_cons_self ..)
    have hinner := ih ho.1.2 nofun (.inr ⟨ho.1.1, rfl⟩) (Wiring.fits_nil hw.inner)
    exact .starEntry (hinner.mono (List.nil_sublist K)) hw.first (hfi ▸ hi.arcs_edges_sublist)
      (hfi ▸ hi.exit ho.2 hlast (hK.resolve_right nofun))
  | @plus _ i hi last ih =>
    simp only [orderly, Bool.and_eq_true] at ho
    have hfi : tail = [] → out i.first = i.edges := by
      rintro rfl
      exact hw.first.trans (List.append_nil _)
    have hinner := ih ho.1.2 nofun (.inr ⟨ho.1.1, rfl⟩)
      ⟨hw.first, fun e he => hw.inner e (List.mem_append_left _ he)⟩
    exact .plus (hinner.mono (List.nil_sublist K))
      (hw.inner _ (List.mem_append_right _ (List.mem_singleton_self _)))
      (fun h => hfi h ▸ hi.arcs_edges_sublist)
      (fun h => hfi h ▸ hi.exit ho.2 hlast (hK.resolve_right nofun))
  | optionalSame _ hloop _ ih =>
    simp only [orderly, Bool.and_eq_true] at ho
    exact .optionalSame (ih ho.1 hlast (.inl (hK.resolve_right nofun)) hw) hloop
  | @optional _ i hi hloop ih =>
    simp only [orderly, Bool.and_eq_true] at ho
    have hnext := hK.resolve_right nofun
    have hout : out i.first = i.edges ++ (i.last, none) :: tail :=
      hw.first.trans (List.append_assoc ..)
    exact .optional (ih ho.1 hlast (.inl hnext) ⟨hout, hw.inner⟩) hloop hout hi.arcs_edges_sublist
      (hi.exit ho.2 hlast hnext)
  | @optionalEntry _ i hi first ih =>
    simp only [orderly, Bool.and_eq_true] at ho
    have hnext := hK.resolve_right nofun
    have hfi : out i.first = i.edges := hw.inner _ (List.mem_cons_self ..)
    exact .optionalEntry (ih ho.1 hlast (.inl hnext) (Wiring.fits_nil hw.inner)) hw.first
      (hfi ▸ hi.arcs_edges_sublist) (hfi ▸ hi.exit ho.2 hlast hnext)

end Pattern.Wired

/-- What is met in the automaton of an orderly pattern is met in the order of its steps. -/
theorem Nfa.exists_sorted_ofPattern {p : Pattern} (hp : p.orderly false = true) :
    ∃ A, A.map Prod.fst = p.steps ∧ (Nfa.ofPattern p).Sorted A := by
  obtain ⟨w, hw, hlays⟩ := exists_lays_addFragment p linked_empty distinct_empty
  have hlast : (Nfa.ofPattern p).outgoing w.last = [] :=
    hlays.last_eq ▸ (grows_addFragment p linked_empty).last_outgoing
  have hnext : Meets (Nfa.ofPattern p).outgoing w.last [] := by
    have := Meets.quiet (quiet_of_outgoing_nil hlast)
    rwa [hlast] at this
  obtain ⟨hfirst, harcs⟩ := hw.met hp (fun _ => hlast) (.inl hnext)
    (Wiring.fits_nil fun e he => (hlays.lists e he).2.2)
  rw [List.append_nil] at hfirst harcs
  refine ⟨w.arcs, hw.map_fst_arcs, ?_, fun a ha => ?_⟩
  · have hstart : (Nfa.ofPattern p).start = w.first := hlays.first_eq.symm
    rw [hstart]
    exact hfirst idle_nil
  · rcases harcs (fun _ => rfl) a ha with ha | ha
    · rw [ha]
      exact ⟨[], hnext, List.nil_sublist _⟩
    · exact ha

/-- If the steps of an orderly pattern differ, transitions are in the order of the steps. -/
theorem Pattern.keepsOrder_of_orderly (p : Pattern) (hs : p.steps.Nodup)
    (hp : p.orderly false = true) : p.KeepsOrder := by
  intro q
  obtain ⟨A, hA, hsorted⟩ := Nfa.exists_sorted_ofPattern hp
  have hsub := hsorted.transitions_sublist (hA ▸ hs) q
  rw [hA] at hsub
  have hsteps : p.steps.Pairwise fun s t => p.steps.idxOf s < p.steps.idxOf t := by
    refine List.pairwise_iff_getElem.2 fun i j hi hj hij => ?_
    rwa [hs.idxOf_getElem i hi, hs.idxOf_getElem j hj]
  have hpairwise := hsteps.sublist hsub
  rwa [List.pairwise_map] at hpairwise

/-- Slides one way, a step with a jump after it, and slides another way that end with a capture. -/
def slides : Pattern :=
  .union (.plus (.step ⟨1, 0, .var "empty", none⟩)) <|
  .union (.concat (.step ⟨0, 1, .var "empty", none⟩)
    (.optional (.step ⟨2, 2, .var "empty", none⟩))) <|
  .concat (.star (.step ⟨-1, 0, .var "empty", none⟩)) (.step ⟨-1, 0, .var "whites", none⟩)

theorem Pattern.keepsOrder_of_orderly_slides :
    slides.steps.Nodup ∧ slides.orderly false = true ∧ slides.KeepsOrder := by
  have hs : slides.steps.Nodup := by decide
  have hp : slides.orderly false = true := by decide
  exact ⟨hs, hp, Pattern.keepsOrder_of_orderly slides hs hp⟩

end BoardGame
