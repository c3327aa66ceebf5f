import BoardGame.Proofs.Automaton.Edges

/-!
# What the automaton of a pattern reads

`Grows n₀ n f L`: `n` is `n₀` with new states, and from `f.first` to `f.last` it reads the words of
`L`. Each constructor of patterns keeps this (`grows_addFragment`). Two facts make fusing states
sound: nothing leaves `f.last`, and an entry is never entered. Soundness is shown by families of
languages that absorb the edges (`Nfa.Absorbs`), completeness by mapping paths along the operations.
-/

namespace BoardGame

open Computability

/-- The words of steps that a pattern stands for. -/
def Pattern.language : Pattern → Language Step
  | .step s => {[s]}
  | .concat left right => left.language * right.language
  | .union left right => left.language + right.language
  | .star inner => inner.language∗
  | .plus inner => inner.language * inner.language∗
  | .optional inner => inner.language + 1

namespace Nfa
variable {n₀ n₁ n n' : Nfa} {a b p q id : Nat} {l : Label} {w : List Step}

/-! ### Paths through new edges -/

theorem Path.addState (h : Path n.outgoing p w q) : Path n.addState.2.outgoing p w q :=
  h.mono fun _ _ _ he => by rwa [outgoing_addState]

theorem Path.addEdge {s t : Nat} (hs : n.isLive s = true) (h : Path n.outgoing p w q) :
    Path (n.addEdge s t l).outgoing p w q :=
  h.mono fun _ _ _ he => (mem_outgoing_addEdge hs).2 (.inl he)

theorem path_addEdge {s t : Nat} (hs : n.isLive s = true) :
    Path (n.addEdge s t l).outgoing s l.toList t :=
  .single ((mem_outgoing_addEdge hs).2 (.inr ⟨rfl, rfl⟩))

theorem Path.isLive (h : Path n.outgoing p w q) (hn : n.Linked) (hp : n.isLive p = true) :
    n.isLive q = true := by
  induction h with
  | nil => exact hp
  | silent he _ ih => exact ih (hn.isLive_right he)
  | step he _ ih => exact ih (hn.isLive_right he)

theorem path_of_mem_kstar {out : StateId → List Edge} {L : Language Step}
    (h : ∀ w ∈ L, Path out p w p) (hw : w ∈ L∗) : Path out p w p := by
  obtain ⟨ws, rfl, hws⟩ := hw
  induction ws with
  | nil => exact .nil p
  | cons w ws ih =>
    have hrest := ih fun w hw => hws w (List.mem_cons_of_mem _ hw)
    exact (h w (hws w (List.mem_cons_self ..))).append hrest

theorem mem_kstar_of_mem_mul {L : Language Step} (h : w ∈ L * L∗) : w ∈ L∗ := by
  have hle : L * L∗ ≤ L∗ := mul_kstar_le_kstar
  exact hle h

/-! ### Absorbing families -/

namespace Absorbs
variable {out : StateId → List Edge} {K K' : StateId → Language Step} {E : Language Step}

theorem mem_of_path (hK : Absorbs out K) (hq : [] ∈ K q) (h : Path out p w q) : w ∈ K p := by
  have := h.mem hK hq
  rwa [List.append_nil] at this

theorem mul (hK : Absorbs out K) (E : Language Step) : Absorbs out fun p => K p * E := by
  rintro p q l he _ ⟨u, hu, v, hv, rfl⟩
  exact ⟨l.toList ++ u, hK p q l he u hu, v, hv, List.append_assoc ..⟩

theorem ite {P : StateId → Prop} [DecidablePred P] (hK : Absorbs out K) (hK' : Absorbs out K')
    (hP : ∀ p q l, (q, l) ∈ out p → (P p ↔ P q)) :
    Absorbs out fun p => if P p then K p else K' p := by
  intro p q l he v hv
  by_cases hp : P p
  · simp only [if_pos hp, if_pos ((hP p q l he).1 hp)] at hv ⊢
    exact hK p q l he v hv
  · simp only [if_neg hp, if_neg (mt (hP p q l he).2 hp)] at hv ⊢
    exact hK' p q l he v hv

/-- A state that no edge leads to may be given any language that suits its own edges. -/
theorem update {e : StateId} (hK : Absorbs out K) (he : ∀ p l, (e, l) ∉ out p)
    (hE : ∀ q l, (q, l) ∈ out e → ∀ v ∈ K q, l.toList ++ v ∈ E) :
    Absorbs out (Function.update K e E) := by
  intro p q l h v hv
  have hq : q ≠ e := by
    rintro rfl
    exact he p l h
  rw [Function.update_of_ne hq] at hv
  by_cases hp : p = e
  · subst hp
    rw [Function.update_self]
    exact hE q l h v hv
  · rw [Function.update_of_ne hp]
    exact hK p q l h v hv

theorem addState (hK : Absorbs n.outgoing K) (hn : n.Linked) (E : Language Step) :
    Absorbs n.addState.2.outgoing (Function.update K n.arena.size E) := by
  have hout : n.addState.2.outgoing = n.outgoing := funext fun _ => outgoing_addState
  rw [hout]
  refine hK.update (fun p l he => ?_) fun q l he => ?_
  · exact absurd (lt_size_of_isLive (hn.isLive_right he)) (Nat.lt_irrefl _)
  · rw [outgoing_of_size_le (Nat.le_refl _)] at he
    cases he

theorem addEdge {s t : Nat} (hK : Absorbs n.outgoing K) (hs : n.isLive s = true)
    (h : ∀ v ∈ K t, v ∈ K s) :
    Absorbs (n.addEdge s t none).outgoing K := by
  intro p q l hpq v hv
  rcases (mem_outgoing_addEdge hs).1 hpq with hpq | ⟨rfl, heq⟩
  · exact hK p q l hpq v hv
  · obtain ⟨rfl, rfl⟩ := Prod.mk.inj heq
    exact h v hv

end Absorbs

/-! ### Extensions -/

/-- `n` has the states of `n₀` as they are, and others behind them. -/
structure Extends (n₀ n : Nfa) : Prop where
  size_le : n₀.arena.size ≤ n.arena.size
  state?_eq : ∀ id < n₀.arena.size, n.state? id = n₀.state? id

namespace Extends

theorem refl (n : Nfa) : Extends n n := ⟨Nat.le_refl _, fun _ _ => rfl⟩

theorem trans (h₁ : Extends n₀ n₁) (h₂ : Extends n₁ n) : Extends n₀ n :=
  ⟨Nat.le_trans h₁.size_le h₂.size_le, fun id hid =>
    (h₂.state?_eq id (Nat.lt_of_lt_of_le hid h₁.size_le)).trans (h₁.state?_eq id hid)⟩

theorem outgoing_eq (h : Extends n₀ n) (hp : p < n₀.arena.size) : n.outgoing p = n₀.outgoing p :=
  outgoing_congr (h.state?_eq p hp)

theorem isLive (h : Extends n₀ n) (hp : n₀.isLive p = true) : n.isLive p = true := by
  rw [isLive_congr (h.state?_eq p (lt_size_of_isLive hp))]
  exact hp

theorem lt_iff (h : Extends n₀ n) (h₀ : n₀.Linked) (hn : n.Linked) (he : (q, l) ∈ n.outgoing p) :
    p < n₀.arena.size ↔ q < n₀.arena.size := by
  constructor
  · intro hp
    rw [h.outgoing_eq hp] at he
    exact lt_size_of_isLive (h₀.isLive_right he)
  · intro hq
    have hi := (hn _ _ _).2 he
    rw [incoming_congr (h.state?_eq q hq)] at hi
    exact lt_size_of_isLive (isLive_of_mem_outgoing ((h₀ _ _ _).1 hi))

theorem path_iff (h : Extends n₀ n) (h₀ : n₀.Linked) (hp : p < n₀.arena.size) :
    Path n.outgoing p w q ↔ Path n₀.outgoing p w q := by
  have hP : ∀ p q l, p < n₀.arena.size → (q, l) ∈ n₀.outgoing p → q < n₀.arena.size :=
    fun p q l _ he => lt_size_of_isLive (h₀.isLive_right he)
  have heq : ∀ p < n₀.arena.size, n.outgoing p = n₀.outgoing p := fun p hp => h.outgoing_eq hp
  constructor
  · exact fun hw => (hw.congr_on (P := fun p => p < n₀.arena.size) (fun p hp => (heq p hp).symm)
      (fun p q l hp he => hP p q l hp (heq p hp ▸ he)) hp).1
  · exact fun hw => (hw.congr_on (P := fun p => p < n₀.arena.size) heq hP hp).1

theorem residual_eq (h : Extends n₀ n) (h₀ : n₀.Linked) (hp : p < n₀.arena.size) (t : StateId) :
    residual n.outgoing t p = residual n₀.outgoing t p :=
  Language.ext fun _ => h.path_iff h₀ hp

theorem addState (h : Extends n₀ n) : Extends n₀ n.addState.2 := by
  refine ⟨by rw [size_addState]; exact Nat.le_succ_of_le h.size_le, fun id hid => ?_⟩
  rw [state?_addState, if_neg (Nat.ne_of_lt (Nat.lt_of_lt_of_le hid h.size_le))]
  exact h.state?_eq id hid

theorem addEdge {s t : Nat} (h : Extends n₀ n) (hs : n₀.arena.size ≤ s) (ht : n₀.arena.size ≤ t) :
    Extends n₀ (n.addEdge s t l) := by
  refine ⟨by rw [size_addEdge]; exact h.size_le, fun id hid => ?_⟩
  have hs : id ≠ s := by omega
  have ht : id ≠ t := by omega
  rw [state?_addEdge]
  simp only [hs, ht, if_false]
  exact Option.map_id'.trans (h.state?_eq id hid)

theorem merge (h : Extends n₀ n) (h₀ : n₀.Linked) (hn : n.Linked) (hab : a ≠ b)
    (ha : n₀.arena.size ≤ a) (hb : n₀.arena.size ≤ b) : Extends n₀ (n.merge a b).2 := by
  have hsz := h.size_le
  refine ⟨by rw [size_merge hab]; omega, fun id hid => ?_⟩
  rw [state?_merge hab, if_neg (by omega), if_neg (by omega)]
  refine (if_neg fun hmem => ?_).trans (h.state?_eq id hid)
  obtain ⟨q, l, hq, he | he⟩ := exists_of_mem_neighbours hmem
  · have := h.lt_iff h₀ hn he
    omega
  · have := h.lt_iff h₀ hn ((hn _ _ _).1 he)
    omega

end Extends

/-! ### Fusing states -/

/-- `a` and `b` are different states behind those of `n₀`. -/
structure Fusible (n₀ n : Nfa) (a b : StateId) : Prop where
  old_linked : n₀.Linked
  linked : n.Linked
  ext : Extends n₀ n
  ne : a ≠ b
  left_live : n.isLive a = true
  right_live : n.isLive b = true
  left_new : n₀.arena.size ≤ a
  right_new : n₀.arena.size ≤ b

namespace Fusible

theorem path (h : Fusible n₀ n a b) (hp : Path n.outgoing p w q) : Path (n.merge a b).2.outgoing
    (redirect a b n.arena.size p) w (redirect a b n.arena.size q) :=
  hp.map _ fun p q _ he =>
    (mem_outgoing_merge h.linked h.ne h.left_live h.right_live).2 ⟨p, q, he, rfl, rfl⟩

theorem le_redirect (h : Fusible n₀ n a b) (hp : n₀.arena.size ≤ p) :
    n₀.arena.size ≤ redirect a b n.arena.size p := by
  unfold redirect
  split
  · exact h.ext.size_le
  · exact hp

theorem le_of_le_redirect (h : Fusible n₀ n a b) (hp : n₀.arena.size ≤ redirect a b n.arena.size p) :
    n₀.arena.size ≤ p := by
  by_cases hpab : p = a ∨ p = b
  · rcases hpab with rfl | rfl
    exacts [h.left_new, h.right_new]
  · rwa [redirect, if_neg hpab] at hp

theorem outgoing_eq_nil (h : Fusible n₀ n a b)
    (hp : ∀ p', redirect a b n.arena.size p' = p → n.outgoing p' = []) :
    (n.merge a b).2.outgoing p = [] := by
  refine List.eq_nil_iff_forall_not_mem.2 fun ⟨q, l⟩ he => ?_
  obtain ⟨p', q', he', hp', -⟩ :=
    (mem_outgoing_merge h.linked h.ne h.left_live h.right_live).1 he
  rw [hp p' hp'] at he'
  cases he'

section
variable {K : StateId → Language Step} (hKab : K a = K b)
include hKab

theorem update_redirect (hp : n.isLive p = true) :
    Function.update K n.arena.size (K a) (redirect a b n.arena.size p) = K p := by
  by_cases hpab : p = a ∨ p = b
  · rw [redirect, if_pos hpab, Function.update_self]
    rcases hpab with rfl | rfl
    exacts [rfl, hKab]
  · rw [redirect, if_neg hpab, Function.update_of_ne (Nat.ne_of_lt (lt_size_of_isLive hp))]

/-- Languages that absorb the edges and agree on the fused states bound the paths of the fused
automaton, too. -/
theorem mem_of_path (h : Fusible n₀ n a b) (hK : Absorbs n.outgoing K) (hp : n.isLive p = true)
    (hq : n.isLive q = true) (hnil : [] ∈ K q) (hpath : Path (n.merge a b).2.outgoing
      (redirect a b n.arena.size p) w (redirect a b n.arena.size q)) : w ∈ K p := by
  have habs : Absorbs (n.merge a b).2.outgoing (Function.update K n.arena.size (K a)) := by
    intro x y l he v hv
    obtain ⟨p', q', he', rfl, rfl⟩ :=
      (mem_outgoing_merge h.linked h.ne h.left_live h.right_live).1 he
    rw [update_redirect hKab (h.linked.isLive_right he')] at hv
    rw [update_redirect hKab (isLive_of_mem_outgoing he')]
    exact hK _ _ _ he' v hv
  rw [← update_redirect hKab hq] at hnil
  have hw := habs.mem_of_path hnil hpath
  rwa [update_redirect hKab hp] at hw

end

end Fusible

/-! ### Parts -/

/-- `n` is `n₀` with a part of its own that reads the words of `L` from `f.first` to `f.last`. -/
structure Grows (n₀ n : Nfa) (f : Fragment) (L : Language Step) : Prop where
  linked : n.Linked
  ext : Extends n₀ n
  first_new : n₀.arena.size ≤ f.first
  first_live : n.isLive f.first = true
  last_new : n₀.arena.size ≤ f.last
  last_live : n.isLive f.last = true
  ne : f.first ≠ f.last
  last_outgoing : n.outgoing f.last = []
  path_iff : ∀ w, Path n.outgoing f.first w f.last ↔ w ∈ L
  /-- No state of the part is a dead end. -/
  trim : ∀ q, n₀.arena.size ≤ q → n.isLive q = true → ∃ v, Path n.outgoing q v f.last

/-- Fusing two states of a new part that reads as `K` says. -/
theorem Fusible.grows {first last : Nat} {K : StateId → Language Step} {L : Language Step}
    (h : Fusible n₀ n a b) (hf : n.isLive first = true) (hfn : n₀.arena.size ≤ first)
    (hl : n.isLive last = true) (hln : n₀.arena.size ≤ last)
    (hne : redirect a b n.arena.size first ≠ redirect a b n.arena.size last)
    (hout : ∀ p, redirect a b n.arena.size p = redirect a b n.arena.size last → n.outgoing p = [])
    (hK : Absorbs n.outgoing K) (hKab : K a = K b) (hKf : K first = L) (hKl : [] ∈ K last)
    (hread : ∀ w ∈ L, Path (n.merge a b).2.outgoing (redirect a b n.arena.size first) w
      (redirect a b n.arena.size last))
    (htrim : ∀ q, n₀.arena.size ≤ q → n.isLive q = true → ∃ v r u, Path n.outgoing q v r ∧
      Path (n.merge a b).2.outgoing (redirect a b n.arena.size r) u
        (redirect a b n.arena.size last)) :
    Grows n₀ (n.merge a b).2
      ⟨redirect a b n.arena.size first, redirect a b n.arena.size last⟩ L where
  linked := h.linked.merge h.ne h.left_live h.right_live
  ext := h.ext.merge h.old_linked h.linked h.ne h.left_new h.right_new
  first_new := h.le_redirect hfn
  first_live := isLive_merge h.ne hf
  last_new := h.le_redirect hln
  last_live := isLive_merge h.ne hl
  ne := hne
  last_outgoing := h.outgoing_eq_nil hout
  path_iff := fun w => ⟨fun hw => hKf ▸ h.mem_of_path hKab hK hf hl hKl hw, hread w⟩
  trim := by
    intro q hq hlive
    obtain ⟨q', hq', rfl⟩ := exists_of_isLive_merge h.ne h.left_live hlive
    obtain ⟨v, r, u, hv, hu⟩ := htrim q' (h.le_of_le_redirect hq) hq'
    exact ⟨v ++ u, (h.path hv).append hu⟩

theorem grows_step (h₀ : n₀.Linked) (s : Step) :
    Grows n₀ (n₀.addFragment (.step s)).2 (n₀.addFragment (.step s)).1 {[s]} := by
  show Grows n₀ (n₀.addState.2.addState.2.addEdge n₀.arena.size n₀.addState.2.arena.size (some s))
    ⟨n₀.arena.size, n₀.addState.2.arena.size⟩ {[s]}
  rw [size_addState]
  have hlive : ∀ q, n₀.addState.2.addState.2.isLive q = true ↔
      q = n₀.arena.size + 1 ∨ q = n₀.arena.size ∨ n₀.isLive q = true := by
    intro q
    rw [isLive_addState, isLive_addState, size_addState]
  have hfirst := (hlive n₀.arena.size).2 (.inr (.inl rfl))
  have hlast := (hlive (n₀.arena.size + 1)).2 (.inl rfl)
  have hout : (n₀.addState.2.addState.2.addEdge n₀.arena.size (n₀.arena.size + 1)
      (some s)).outgoing (n₀.arena.size + 1) = [] := by
    rw [outgoing_addEdge_of_ne (Nat.succ_ne_self _), outgoing_addState, outgoing_addState,
      outgoing_of_size_le (Nat.le_succ _)]
  have hedge : Path (n₀.addState.2.addState.2.addEdge n₀.arena.size (n₀.arena.size + 1)
      (some s)).outgoing n₀.arena.size [s] (n₀.arena.size + 1) := path_addEdge hfirst
  exact {
    linked := h₀.addState.addState.addEdge hfirst hlast
    ext := (Extends.refl n₀).addState.addState.addEdge (Nat.le_refl _) (Nat.le_succ _)
    first_new := Nat.le_refl _
    first_live := by rwa [isLive_addEdge]
    last_new := Nat.le_succ _
    last_live := by rwa [isLive_addEdge]
    ne := Nat.ne_of_lt (Nat.lt_succ_self _)
    last_outgoing := hout
    path_iff := by
      intro w
      constructor
      · intro h
        rcases h.head_cases with ⟨h', -⟩ | ⟨q, l, v, he, rfl, h'⟩
        · exact absurd h' (Nat.succ_ne_self _)
        rw [mem_outgoing_addEdge hfirst, outgoing_addState, outgoing_addState,
          outgoing_of_size_le (Nat.le_refl _)] at he
        rcases he with he | ⟨-, he⟩
        · cases he
        obtain ⟨rfl, rfl⟩ := Prod.mk.inj he
        rw [(Path.eq_of_outgoing_nil hout h').2]
        rfl
      · rintro rfl
        exact hedge
    trim := by
      intro q hq hqlive
      rw [isLive_addEdge] at hqlive
      rcases (hlive q).1 hqlive with rfl | rfl | hq'
      · exact ⟨[], .nil _⟩
      · exact ⟨[s], hedge⟩
      · have := lt_size_of_isLive hq'
        omega }

namespace Grows
variable {l r i f : Fragment} {L R : Language Step}

theorem first_lt (h : Grows n₀ n f L) : f.first < n.arena.size := lt_size_of_isLive h.first_live

theorem last_lt (h : Grows n₀ n f L) : f.last < n.arena.size := lt_size_of_isLive h.last_live

theorem residual_first (h : Grows n₀ n f L) : residual n.outgoing f.last f.first = L :=
  Language.ext h.path_iff

theorem residual_last (h : Grows n₀ n f L) : residual n.outgoing f.last f.last = 1 :=
  residual_self h.last_outgoing

theorem absorbs_ite (hl : Grows n₀ n₁ l L) (hr : Grows n₁ n r R) (E : Language Step) :
    Absorbs n.outgoing fun q =>
      if q < n₁.arena.size then residual n.outgoing l.last q * E else residual n.outgoing r.last q :=
  ((absorbs_residual _ _).mul E).ite (absorbs_residual _ _)
    fun _ _ _ he => hr.ext.lt_iff hl.linked hr.linked he

theorem outgoing_left_last (hl : Grows n₀ n₁ l L) (hr : Grows n₁ n r R) : n.outgoing l.last = [] :=
  (hr.ext.outgoing_eq hl.last_lt).trans hl.last_outgoing

theorem path_left_iff (hl : Grows n₀ n₁ l L) (hr : Grows n₁ n r R) :
    Path n.outgoing l.first w l.last ↔ w ∈ L :=
  (hr.ext.path_iff hl.linked hl.first_lt).trans (hl.path_iff w)

theorem trim_cases (hl : Grows n₀ n₁ l L) (hr : Grows n₁ n r R) (hq : n₀.arena.size ≤ q)
    (hlive : n.isLive q = true) :
    (∃ v, Path n.outgoing q v l.last) ∨ ∃ v, Path n.outgoing q v r.last := by
  by_cases hlt : q < n₁.arena.size
  · rw [isLive_congr (hr.ext.state?_eq q hlt)] at hlive
    obtain ⟨v, hv⟩ := hl.trim q hq hlive
    exact .inl ⟨v, (hr.ext.path_iff hl.linked hlt).2 hv⟩
  · exact .inr (hr.trim q (Nat.not_lt.1 hlt) hlive)

theorem fusible_concat (h₀ : n₀.Linked) (hl : Grows n₀ n₁ l L) (hr : Grows n₁ n r R) :
    Fusible n₀ n l.last r.first where
  old_linked := h₀
  linked := hr.linked
  ext := hl.ext.trans hr.ext
  ne := Nat.ne_of_lt (Nat.lt_of_lt_of_le hl.last_lt hr.first_new)
  left_live := hr.ext.isLive hl.last_live
  right_live := hr.first_live
  left_new := hl.last_new
  right_new := Nat.le_trans hl.ext.size_le hr.first_new

theorem concat (h₀ : n₀.Linked) (hl : Grows n₀ n₁ l L) (hr : Grows n₁ n r R) :
    Grows n₀ (n.merge l.last r.first).2 ⟨l.first, r.last⟩ (L * R) := by
  have hlf := hl.first_lt
  have hll := hl.last_lt
  have hrf := hr.first_new
  have hrl := hr.last_new
  have hsz := hl.ext.size_le
  have hfuse := hl.fusible_concat h₀ hr
  have hfirst : redirect l.last r.first n.arena.size l.first = l.first :=
    redirect_of_ne hl.ne (Nat.ne_of_lt (Nat.lt_of_lt_of_le hlf hrf))
  have hlast : redirect l.last r.first n.arena.size r.last = r.last :=
    redirect_of_ne (Nat.ne_of_gt (Nat.lt_of_lt_of_le hll hrl)) hr.ne.symm
  have hright : ∀ v ∈ R, Path (n.merge l.last r.first).2.outgoing
      (redirect l.last r.first n.arena.size l.last) v
      (redirect l.last r.first n.arena.size r.last) := by
    intro v hv
    have hmeet : redirect l.last r.first n.arena.size l.last =
        redirect l.last r.first n.arena.size r.first := by
      rw [redirect_left, redirect_right]
    rw [hmeet]
    exact hfuse.path ((hr.path_iff v).2 hv)
  have hgrows := hfuse.grows (hr.ext.isLive hl.first_live) hl.first_new hr.last_live
    (Nat.le_trans hsz hrl) (by rw [hfirst, hlast]; exact Nat.ne_of_lt (Nat.lt_of_lt_of_le hlf hrl))
    ?_ (hl.absorbs_ite hr R) ?_ (L := L * R) ?_ ?_ ?_ ?_
  · rwa [hfirst, hlast] at hgrows
  · intro p hp
    rw [hlast] at hp
    rw [eq_of_redirect_eq hp (Nat.ne_of_lt hr.last_lt)]
    exact hr.last_outgoing
  · rw [if_pos hll, if_neg (Nat.not_lt.2 hrf), residual_self (hl.outgoing_left_last hr), one_mul,
      hr.residual_first]
  · rw [if_pos hlf, hr.ext.residual_eq hl.linked hlf, hl.residual_first]
  · rw [if_neg (Nat.not_lt.2 hrl)]
    exact .nil _
  · rintro _ ⟨u, hu, v, hv, rfl⟩
    exact (hfuse.path ((hl.path_left_iff hr).2 hu)).append (hright v hv)
  · intro q hq hlive
    rcases hl.trim_cases hr hq hlive with ⟨u, hu⟩ | ⟨u, hu⟩
    · obtain ⟨v, hv⟩ := hr.trim r.first hrf hr.first_live
      exact ⟨u, l.last, v, hu, hright v ((hr.path_iff v).1 hv)⟩
    · exact ⟨u, r.last, [], hu, .nil _⟩

end Grows

/-! ### Forks -/

/-- `n'` is `n` with a new state from which empty edges lead to `s` and to `t`. -/
structure Forks (n n' : Nfa) (s t : StateId) : Prop where
  linked : n'.Linked
  size_eq : n'.arena.size = n.arena.size + 1
  live_iff : ∀ q, n'.isLive q = true ↔ q = n.arena.size ∨ n.isLive q = true
  outgoing_eq : ∀ p ≠ n.arena.size, n'.outgoing p = n.outgoing p
  path : ∀ {p q w}, Path n.outgoing p w q → Path n'.outgoing p w q
  left : Path n'.outgoing n.arena.size [] s
  right : Path n'.outgoing n.arena.size [] t
  absorbs : ∀ {K : StateId → Language Step} {E : Language Step}, Absorbs n.outgoing K →
    (∀ v ∈ K s, v ∈ E) → (∀ v ∈ K t, v ∈ E) →
    Absorbs n'.outgoing (Function.update K n.arena.size E)

theorem forks_addEdge {s t : Nat} (hn : n.Linked) (hs : n.isLive s = true) (ht : n.isLive t = true) :
    Forks n ((n.addState.2.addEdge n.arena.size s none).addEdge n.arena.size t none) s t := by
  have hf : n.addState.2.isLive n.arena.size = true := isLive_addState.2 (.inl rfl)
  have hs' : n.addState.2.isLive s = true := isLive_addState.2 (.inr hs)
  have ht' : n.addState.2.isLive t = true := isLive_addState.2 (.inr ht)
  have hf' : (n.addState.2.addEdge n.arena.size s none).isLive n.arena.size = true := by
    rwa [isLive_addEdge]
  have ht'' : (n.addState.2.addEdge n.arena.size s none).isLive t = true := by
    rwa [isLive_addEdge]
  exact {
    linked := (hn.addState.addEdge hf hs').addEdge hf' ht''
    size_eq := by rw [size_addEdge, size_addEdge, size_addState]
    live_iff := by
      intro q
      rw [isLive_addEdge, isLive_addEdge, isLive_addState]
    outgoing_eq := by
      intro p hp
      rw [outgoing_addEdge_of_ne hp, outgoing_addEdge_of_ne hp, outgoing_addState]
    path := fun h => (h.addState.addEdge hf).addEdge hf'
    left := (path_addEdge hf).addEdge hf'
    right := path_addEdge hf'
    absorbs := by
      intro K E hK hKs hKt
      have hle : ∀ q, n.isLive q = true → (∀ v ∈ K q, v ∈ E) →
          ∀ v ∈ Function.update K n.arena.size E q,
            v ∈ Function.update K n.arena.size E n.arena.size := by
        intro q hq hKq
        rw [Function.update_self, Function.update_of_ne (Nat.ne_of_lt (lt_size_of_isLive hq))]
        exact hKq
      exact ((hK.addState hn E).addEdge hf (hle s hs hKs)).addEdge hf' (hle t ht hKt) }

theorem Grows.fusible_union {l r : Fragment} {L R : Language Step} {m : Nfa} (h₀ : n₀.Linked)
    (hl : Grows n₀ n₁ l L) (hr : Grows n₁ n r R) (hm : Forks n m l.first r.first)
    (hx : Extends n₀ m) : Fusible n₀ m l.last r.last where
  old_linked := h₀
  linked := hm.linked
  ext := hx
  ne := Nat.ne_of_lt (Nat.lt_of_lt_of_le hl.last_lt hr.last_new)
  left_live := (hm.live_iff _).2 (.inr (hr.ext.isLive hl.last_live))
  right_live := (hm.live_iff _).2 (.inr hr.last_live)
  left_new := hl.last_new
  right_new := Nat.le_trans hl.ext.size_le hr.last_new

theorem Grows.union {l r : Fragment} {L R : Language Step} {m : Nfa} (h₀ : n₀.Linked)
    (hl : Grows n₀ n₁ l L) (hr : Grows n₁ n r R) (hm : Forks n m l.first r.first)
    (hx : Extends n₀ m) :
    Grows n₀ (m.merge l.last r.last).2 ⟨n.arena.size, (m.merge l.last r.last).1⟩ (L + R) := by
  have hlf := hl.first_lt
  have hll := hl.last_lt
  have hrl := hr.last_lt
  have hsz := hr.ext.size_le
  have hsz₀ := hl.ext.size_le
  have hln : l.last ≠ n.arena.size := Nat.ne_of_lt (Nat.lt_of_lt_of_le hll hsz)
  have hfuse := hl.fusible_union h₀ hr hm hx
  have hfirst : redirect l.last r.last m.arena.size n.arena.size = n.arena.size :=
    redirect_of_ne hln.symm (Nat.ne_of_gt hrl)
  have hlast : redirect l.last r.last m.arena.size r.last =
      redirect l.last r.last m.arena.size l.last := by
    rw [redirect_left, redirect_right]
  have hKl : residual n.outgoing l.last l.first * 1 = L := by
    rw [mul_one, hr.ext.residual_eq hl.linked hlf, hl.residual_first]
  have hK := hm.absorbs (hl.absorbs_ite hr 1) (E := L + R)
    (by rw [if_pos hlf, hKl]; exact fun _ h => .inl h)
    (by rw [if_neg (Nat.not_lt.2 hr.first_new), hr.residual_first]; exact fun _ h => .inr h)
  have hKlast : ∀ q, q = l.last ∨ q = r.last → Function.update (fun q =>
      if q < n₁.arena.size then residual n.outgoing l.last q * 1 else residual n.outgoing r.last q)
        n.arena.size (L + R) q = 1 := by
    rintro q (rfl | rfl)
    · rw [Function.update_of_ne hln, if_pos hll, mul_one, residual_self (hl.outgoing_left_last hr)]
    · rw [Function.update_of_ne (Nat.ne_of_lt hrl), if_neg (Nat.not_lt.2 hr.last_new),
        hr.residual_last]
  have hgrows := hfuse.grows ((hm.live_iff _).2 (.inl rfl)) (Nat.le_trans hsz₀ hsz) hfuse.left_live
    hl.last_new ?_ ?_ hK ?_ (Function.update_self ..) ?_ ?_ ?_
  · rw [fst_merge hfuse.ne]
    rwa [hfirst, redirect_left] at hgrows
  · rw [hfirst, redirect_left, hm.size_eq]
    exact Nat.ne_of_lt (Nat.lt_succ_self _)
  · intro p hp
    by_cases hpab : p = l.last ∨ p = r.last
    · rcases hpab with rfl | rfl
      · rw [hm.outgoing_eq _ hln, hl.outgoing_left_last hr]
      · rw [hm.outgoing_eq _ (Nat.ne_of_lt hrl), hr.last_outgoing]
    · rw [redirect_left, redirect, if_neg hpab] at hp
      rw [hp]
      exact outgoing_of_size_le (Nat.le_refl _)
  · rw [hKlast _ (.inl rfl), hKlast _ (.inr rfl)]
  · rw [hKlast _ (.inl rfl)]
    exact Language.nil_mem_one
  · rintro w (hw | hw)
    · exact hfuse.path (hm.left.append (hm.path ((hl.path_left_iff hr).2 hw)))
    · rw [← hlast]
      exact hfuse.path (hm.right.append (hm.path ((hr.path_iff w).2 hw)))
  · intro q hq hlive
    rcases (hm.live_iff q).1 hlive with rfl | hlive
    · obtain ⟨v, hv⟩ := hr.trim r.first hr.first_new hr.first_live
      exact ⟨v, r.last, [], hm.right.append (hm.path hv), hlast ▸ .nil _⟩
    rcases hl.trim_cases hr hq hlive with ⟨v, hv⟩ | ⟨v, hv⟩
    · exact ⟨v, l.last, [], hm.path hv, .nil _⟩
    · exact ⟨v, r.last, [], hm.path hv, hlast ▸ .nil _⟩

/-! ### Entries -/

/-- `e` is an entry to `first`: no edge leads to `e`, and it is `first` itself or a new state with a
single empty edge to it. -/
structure Entry (n n' : Nfa) (first e : StateId) : Prop where
  linked : n'.Linked
  live_iff : ∀ q, n'.isLive q = true ↔ q = e ∨ n.isLive q = true
  eq_or_new : e = first ∨ e = n.arena.size
  mem_outgoing : ∀ p q l, (q, l) ∈ n'.outgoing p ↔
    (q, l) ∈ n.outgoing p ∨ e ≠ first ∧ p = e ∧ q = first ∧ l = none
  not_entered : ∀ p l, (e, l) ∉ n'.outgoing p

theorem entry_addEntry {first : Nat} (hn : n.Linked) (hf : n.isLive first = true) :
    Entry n (n.addEntry first).2 first (n.addEntry first).1 := by
  have hflt := lt_size_of_isLive hf
  unfold addEntry
  by_cases hin : (n.incoming first).isEmpty
  · rw [if_pos hin]
    have hnil : n.incoming first = [] := List.isEmpty_iff.1 hin
    exact {
      linked := hn
      live_iff := fun q => ⟨.inr, fun h => h.elim (fun h => h ▸ hf) fun h => h⟩
      eq_or_new := .inl rfl
      mem_outgoing := fun p q l => ⟨.inl, fun h => h.elim (fun h => h) fun h => absurd rfl h.1⟩
      not_entered := fun p l he => by
        have := (hn _ _ _).2 he
        rw [hnil] at this
        cases this }
  · rw [if_neg hin]
    have hne : n.arena.size ≠ first := Nat.ne_of_gt hflt
    have hs : n.addState.2.isLive n.arena.size = true := isLive_addState.2 (.inl rfl)
    have hout : ∀ p q l, (q, l) ∈ (n.addState.2.addEdge n.arena.size first none).outgoing p ↔
        (q, l) ∈ n.outgoing p ∨ n.arena.size ≠ first ∧ p = n.arena.size ∧ q = first ∧ l = none := by
      intro p q l
      rw [mem_outgoing_addEdge hs, outgoing_addState, Prod.mk.injEq]
      exact or_congr_right ⟨fun h => ⟨hne, h⟩, fun h => h.2⟩
    exact {
      linked := hn.addState.addEdge hs (isLive_addState.2 (.inr hf))
      live_iff := fun q => by
        show (n.addState.2.addEdge n.arena.size first none).isLive q = true ↔ _
        rw [isLive_addEdge, isLive_addState]
        exact Iff.rfl
      eq_or_new := .inr rfl
      mem_outgoing := hout
      not_entered := fun p l he => by
        rcases (hout _ _ _).1 he with he | ⟨-, -, he, -⟩
        · exact absurd (lt_size_of_isLive (hn.isLive_right he)) (Nat.lt_irrefl _)
        · exact hne he }

theorem Extends.addEntry {first : Nat} (h : Extends n₀ n) (hf : n₀.arena.size ≤ first) :
    Extends n₀ (n.addEntry first).2 := by
  unfold Nfa.addEntry
  split
  · exact h
  · exact h.addState.addEdge h.size_le hf

namespace Entry
variable {first e : Nat}

theorem mono (h : Entry n n' first e) (hp : Path n.outgoing p w q) : Path n'.outgoing p w q :=
  hp.mono fun p q l he => (h.mem_outgoing p q l).2 (.inl he)

theorem path (h : Entry n n' first e) : Path n'.outgoing e [] first := by
  by_cases he : e = first
  · rw [he]
    exact .nil _
  · exact .silent ((h.mem_outgoing _ _ _).2 (.inr ⟨he, rfl, rfl, rfl⟩)) (.nil _)

theorem ne_of_live (h : Entry n n' first e) (hq : n.isLive q = true) (hne : q ≠ first) : q ≠ e := by
  rintro rfl
  rcases h.eq_or_new with h | h
  · exact hne h
  · exact absurd (lt_size_of_isLive hq) (h ▸ Nat.lt_irrefl _)

theorem outgoing_eq (h : Entry n n' first e) (hp : p ≠ e) {l : Label} :
    (q, l) ∈ n'.outgoing p ↔ (q, l) ∈ n.outgoing p :=
  (h.mem_outgoing p q l).trans ⟨fun he => he.resolve_right fun he => hp he.2.1, .inl⟩

/-- The entry may be given what `first` is, and more. -/
theorem absorbs {K : StateId → Language Step} {E : Language Step} (h : Entry n n' first e)
    (hK : Absorbs n.outgoing K) (hE : ∀ v ∈ K first, v ∈ E) :
    Absorbs n'.outgoing (Function.update K e E) := by
  intro p q l hpq v hv
  have hq : q ≠ e := by
    rintro rfl
    exact h.not_entered p l hpq
  rw [Function.update_of_ne hq] at hv
  by_cases hp : p = e
  · subst hp
    rw [Function.update_self]
    rcases (h.mem_outgoing p q l).1 hpq with hpq | ⟨-, -, rfl, rfl⟩
    · -- an entry that has edges of its own is `first`
      have hpf : p = first := h.eq_or_new.resolve_right fun hnew => by
        rw [hnew, outgoing_of_size_le (Nat.le_refl _)] at hpq
        cases hpq
      exact hE _ (hpf ▸ hK p q l hpq v hv)
    · exact hE _ hv
  · rw [Function.update_of_ne hp]
    exact hK p q l ((h.outgoing_eq hp).1 hpq) v hv

end Entry

/-! ### Repetitions -/

/-- What a part reads and then any words of `L`. The state added behind it reads nothing. -/
def loopFamily (n : Nfa) (last : StateId) (L : Language Step) : StateId → Language Step :=
  Function.update (fun q => residual n.outgoing last q * L∗) n.arena.size 1

namespace Grows
variable {i : Fragment} {L : Language Step} {m : Nfa} {e : Nat}

theorem loopFamily_new (n : Nfa) (last : StateId) (L : Language Step) :
    loopFamily n last L n.arena.size = 1 := Function.update_self ..

theorem loopFamily_first (hi : Grows n₀ n₁ i L) : loopFamily n₁ i.last L i.first = L * L∗ := by
  rw [loopFamily, Function.update_of_ne (Nat.ne_of_lt hi.first_lt),
    hi.residual_first]

theorem loopFamily_last (hi : Grows n₀ n₁ i L) : loopFamily n₁ i.last L i.last = L∗ := by
  rw [loopFamily, Function.update_of_ne (Nat.ne_of_lt hi.last_lt),
    hi.residual_last, one_mul]

theorem entry_star (hi : Grows n₀ n₁ i L) :
    Entry (n₁.addState.2.addEdge i.last n₁.arena.size none)
      ((n₁.addState.2.addEdge i.last n₁.arena.size none).addEntry i.first).2 i.first
      ((n₁.addState.2.addEdge i.last n₁.arena.size none).addEntry i.first).1 := by
  have hl : n₁.addState.2.isLive i.last = true := isLive_addState.2 (.inr hi.last_live)
  have ht : n₁.addState.2.isLive n₁.arena.size = true := isLive_addState.2 (.inl rfl)
  refine entry_addEntry (hi.linked.addState.addEdge hl ht) ?_
  rw [isLive_addEdge]
  exact isLive_addState.2 (.inr hi.first_live)

theorem absorbs_loopFamily (hi : Grows n₀ n₁ i L) :
    Absorbs n₁.addState.2.outgoing (loopFamily n₁ i.last L) :=
  ((absorbs_residual _ _).mul _).addState hi.linked 1

theorem optional (hi : Grows n₀ n₁ i L) (hm : Entry n₁ m i.first e) (hx : Extends n₀ m) :
    Grows n₀ (m.addEdge e i.last none) ⟨e, i.last⟩ (L + 1) := by
  have he : m.isLive e = true := (hm.live_iff e).2 (.inl rfl)
  have hl : m.isLive i.last = true := (hm.live_iff _).2 (.inr hi.last_live)
  have hle : i.last ≠ e := hm.ne_of_live hi.last_live hi.ne.symm
  have hen : n₀.arena.size ≤ e := by
    rcases hm.eq_or_new with h | h
    · exact h ▸ hi.first_new
    · exact h ▸ hi.ext.size_le
  have hskip : Path (m.addEdge e i.last none).outgoing e [] i.last := path_addEdge he
  have hK : Absorbs (m.addEdge e i.last none).outgoing
      (Function.update (residual n₁.outgoing i.last) e (L + 1)) := by
    refine (hm.absorbs (absorbs_residual _ _) ?_).addEdge he ?_
    · rw [hi.residual_first]
      exact fun _ h => .inl h
    · rw [Function.update_of_ne hle, Function.update_self, hi.residual_last]
      exact fun _ h => .inr h
  exact {
    linked := hm.linked.addEdge he hl
    ext := hx.addEdge hen hi.last_new
    first_new := hen
    first_live := by rwa [isLive_addEdge]
    last_new := hi.last_new
    last_live := by rwa [isLive_addEdge]
    ne := hle.symm
    last_outgoing := by
      rw [outgoing_addEdge_of_ne hle]
      refine List.eq_nil_iff_forall_not_mem.2 fun ⟨q, l⟩ h => ?_
      rw [hm.outgoing_eq hle, hi.last_outgoing] at h
      cases h
    path_iff := by
      intro w
      constructor
      · intro h
        have hnil : [] ∈ Function.update (residual n₁.outgoing i.last) e (L + 1) i.last := by
          rw [Function.update_of_ne hle]
          exact .nil _
        have hw := hK.mem_of_path hnil h
        rwa [Function.update_self] at hw
      · rintro (hw | rfl)
        · exact (hm.path.append (hm.mono ((hi.path_iff w).2 hw))).addEdge he
        · exact hskip
    trim := by
      intro q hq hlive
      rw [isLive_addEdge] at hlive
      rcases (hm.live_iff q).1 hlive with rfl | hlive
      · exact ⟨[], hskip⟩
      · obtain ⟨v, hv⟩ := hi.trim q hq hlive
        exact ⟨v, (hm.mono hv).addEdge he⟩ }

theorem plus (hi : Grows n₀ n₁ i L) :
    Grows n₀ ((n₁.addState.2.addEdge i.last i.first none).addEdge i.last n₁.arena.size none)
      ⟨i.first, n₁.arena.size⟩ (L * L∗) := by
  have hf := hi.first_lt
  have hll := hi.last_lt
  have hnew : n₁.addState.2.isLive n₁.arena.size = true := isLive_addState.2 (.inl rfl)
  have hfl : n₁.addState.2.isLive i.first = true := isLive_addState.2 (.inr hi.first_live)
  have hl : n₁.addState.2.isLive i.last = true := isLive_addState.2 (.inr hi.last_live)
  have hl' : (n₁.addState.2.addEdge i.last i.first none).isLive i.last = true := by
    rwa [isLive_addEdge]
  have hlive : ∀ q, ((n₁.addState.2.addEdge i.last i.first none).addEdge i.last n₁.arena.size
      none).isLive q = true ↔ q = n₁.arena.size ∨ n₁.isLive q = true := by
    intro q
    rw [isLive_addEdge, isLive_addEdge, isLive_addState]
  have hK : Absorbs ((n₁.addState.2.addEdge i.last i.first none).addEdge i.last n₁.arena.size
      none).outgoing (loopFamily n₁ i.last L) := by
    refine (hi.absorbs_loopFamily.addEdge hl ?_).addEdge hl' ?_
    · rw [hi.loopFamily_first, hi.loopFamily_last]
      exact fun _ => mem_kstar_of_mem_mul
    · rw [loopFamily_new, hi.loopFamily_last]
      rintro _ rfl
      exact Language.nil_mem_kstar L
  have hmono : ∀ {p w q}, Path n₁.outgoing p w q → Path ((n₁.addState.2.addEdge i.last i.first
      none).addEdge i.last n₁.arena.size none).outgoing p w q :=
    fun h => (h.addState.addEdge hl).addEdge hl'
  have hback : Path ((n₁.addState.2.addEdge i.last i.first none).addEdge i.last n₁.arena.size
      none).outgoing i.last [] i.first := (path_addEdge hl).addEdge hl'
  have hexit : Path ((n₁.addState.2.addEdge i.last i.first none).addEdge i.last n₁.arena.size
      none).outgoing i.last [] n₁.arena.size := path_addEdge hl'
  exact {
    linked := (hi.linked.addState.addEdge hl hfl).addEdge hl' (by rwa [isLive_addEdge])
    ext := (hi.ext.addState.addEdge hi.last_new hi.first_new).addEdge hi.last_new hi.ext.size_le
    first_new := hi.first_new
    first_live := (hlive _).2 (.inr hi.first_live)
    last_new := hi.ext.size_le
    last_live := (hlive _).2 (.inl rfl)
    ne := Nat.ne_of_lt hf
    last_outgoing := by
      rw [outgoing_addEdge_of_ne (Nat.ne_of_gt hll), outgoing_addEdge_of_ne (Nat.ne_of_gt hll),
        outgoing_addState, outgoing_of_size_le (Nat.le_refl _)]
    path_iff := by
      intro w
      constructor
      · intro h
        rw [← hi.loopFamily_first]
        refine hK.mem_of_path ?_ h
        rw [loopFamily_new]
        exact Language.nil_mem_one
      · rintro ⟨u, hu, v, hv, rfl⟩
        have hround := path_of_mem_kstar (fun w hw => hback.append (hmono ((hi.path_iff w).2 hw))) hv
        have hw := ((hmono ((hi.path_iff u).2 hu)).append hround).append hexit
        rwa [List.append_nil] at hw
    trim := by
      intro q hq hqlive
      rcases (hlive q).1 hqlive with rfl | hqlive
      · exact ⟨[], .nil _⟩
      · obtain ⟨v, hv⟩ := hi.trim q hq hqlive
        exact ⟨v ++ [], (hmono hv).append hexit⟩ }

theorem fusible_star (h₀ : n₀.Linked) (hi : Grows n₀ n₁ i L)
    (hm : Entry (n₁.addState.2.addEdge i.last n₁.arena.size none) m i.first e) (hx : Extends n₀ m) :
    Fusible n₀ m e i.last where
  old_linked := h₀
  linked := hm.linked
  ext := hx
  ne := (hm.ne_of_live (by rw [isLive_addEdge]; exact isLive_addState.2 (.inr hi.last_live))
    hi.ne.symm).symm
  left_live := (hm.live_iff e).2 (.inl rfl)
  right_live := (hm.live_iff _).2
    (.inr (by rw [isLive_addEdge]; exact isLive_addState.2 (.inr hi.last_live)))
  left_new := by
    rcases hm.eq_or_new with h | h
    · exact h ▸ hi.first_new
    · rw [h, size_addEdge, size_addState]
      exact Nat.le_succ_of_le hi.ext.size_le
  right_new := hi.last_new

theorem star (h₀ : n₀.Linked) (hi : Grows n₀ n₁ i L)
    (hm : Entry (n₁.addState.2.addEdge i.last n₁.arena.size none) m i.first e) (hx : Extends n₀ m) :
    Grows n₀ (m.merge e i.last).2 ⟨(m.merge e i.last).1, n₁.arena.size⟩ L∗ := by
  have hf := hi.first_lt
  have hll := hi.last_lt
  have hl : n₁.addState.2.isLive i.last = true := isLive_addState.2 (.inr hi.last_live)
  have hlive : ∀ q, m.isLive q = true ↔ q = e ∨ q = n₁.arena.size ∨ n₁.isLive q = true := by
    intro q
    rw [hm.live_iff, isLive_addEdge, isLive_addState]
  have hnew : m.isLive n₁.arena.size = true := (hlive _).2 (.inr (.inl rfl))
  have hle : i.last ≠ e := hm.ne_of_live (by rwa [isLive_addEdge]) hi.ne.symm
  have hne : n₁.arena.size ≠ e :=
    hm.ne_of_live (by rw [isLive_addEdge]; exact isLive_addState.2 (.inl rfl)) (Nat.ne_of_gt hf)
  have hfuse := hi.fusible_star h₀ hm hx
  have hlast : redirect e i.last m.arena.size n₁.arena.size = n₁.arena.size :=
    redirect_of_ne hne (Nat.ne_of_gt hll)
  have hmono : ∀ {p w q}, Path n₁.outgoing p w q → Path m.outgoing p w q :=
    fun h => hm.mono (h.addState.addEdge hl)
  have hexit : Path m.outgoing i.last [] n₁.arena.size := hm.mono (path_addEdge hl)
  have hK : Absorbs m.outgoing (Function.update (loopFamily n₁ i.last L) e L∗) := by
    refine hm.absorbs (hi.absorbs_loopFamily.addEdge hl ?_) ?_
    · rw [loopFamily_new, hi.loopFamily_last]
      rintro _ rfl
      exact Language.nil_mem_kstar L
    · rw [hi.loopFamily_first]
      exact fun _ => mem_kstar_of_mem_mul
  have hmeet : redirect e i.last m.arena.size i.last = redirect e i.last m.arena.size e := by
    rw [redirect_left, redirect_right]
  have hround : ∀ w ∈ L, Path (m.merge e i.last).2.outgoing (redirect e i.last m.arena.size e) w
      (redirect e i.last m.arena.size e) := by
    intro w hw
    have := hfuse.path (hm.path.append (hmono ((hi.path_iff w).2 hw)))
    rwa [hmeet] at this
  have hleave : Path (m.merge e i.last).2.outgoing (redirect e i.last m.arena.size e) []
      (redirect e i.last m.arena.size n₁.arena.size) := by
    rw [← hmeet]
    exact hfuse.path hexit
  have hgrows := hfuse.grows hfuse.left_live hfuse.left_new hnew hi.ext.size_le ?_ ?_ hK ?_
    (Function.update_self ..) ?_ ?_ ?_
  · rw [fst_merge hfuse.ne]
    rwa [hlast, redirect_left] at hgrows
  · rw [hlast, redirect_left]
    exact Nat.ne_of_gt (lt_size_of_isLive hnew)
  · intro p hp
    rw [hlast] at hp
    rw [eq_of_redirect_eq hp (Nat.ne_of_lt (lt_size_of_isLive hnew))]
    refine List.eq_nil_iff_forall_not_mem.2 fun ⟨q, l⟩ h => ?_
    rw [hm.outgoing_eq hne, outgoing_addEdge_of_ne (Nat.ne_of_gt hll), outgoing_addState,
      outgoing_of_size_le (Nat.le_refl _)] at h
    cases h
  · rw [Function.update_self, Function.update_of_ne hle, hi.loopFamily_last]
  · rw [Function.update_of_ne hne, loopFamily_new]
    exact Language.nil_mem_one
  · intro w hw
    have := (path_of_mem_kstar hround hw).append hleave
    rwa [List.append_nil] at this
  · intro q hq hqlive
    rcases (hlive q).1 hqlive with rfl | rfl | hqlive
    · exact ⟨[], q, [], .nil _, hleave⟩
    · exact ⟨[], n₁.arena.size, [], .nil _, .nil _⟩
    · obtain ⟨v, hv⟩ := hi.trim q hq hqlive
      exact ⟨v ++ [], n₁.arena.size, [], (hmono hv).append hexit, .nil _⟩

end Grows

/-! ### Patterns -/

theorem grows_addFragment (p : Pattern) (hn : n.Linked) :
    Grows n (n.addFragment p).2 (n.addFragment p).1 p.language := by
  induction p generalizing n with
  | step s => exact grows_step hn s
  | concat left right ihl ihr =>
    have hl := ihl hn
    exact hl.concat hn (ihr hl.linked)
  | union left right ihl ihr =>
    have hl := ihl hn
    have hr := ihr hl.linked
    have hx := hl.ext.trans hr.ext
    have hm := forks_addEdge hr.linked (hr.ext.isLive hl.first_live) hr.first_live
    exact hl.union hn hr hm ((hx.addState.addEdge hx.size_le hl.first_new).addEdge hx.size_le
      (Nat.le_trans hl.ext.size_le hr.first_new))
  | star inner ih =>
    have hi := ih hn
    have hx := (hi.ext.addState.addEdge (l := none) hi.last_new hi.ext.size_le).addEntry hi.first_new
    unfold addFragment
    exact hi.star hn hi.entry_star hx
  | plus inner ih => exact (ih hn).plus
  | optional inner ih =>
    have hi := ih hn
    have he := entry_addEntry hi.linked hi.first_live
    exact hi.optional he (hi.ext.addEntry hi.first_new)

theorem grows_ofPattern (p : Pattern) :
    Grows empty (ofPattern p) ⟨(ofPattern p).start, (ofPattern p).accept⟩ p.language :=
  have h := grows_addFragment p linked_empty
  { linked := h.linked
    ext := ⟨h.ext.size_le, h.ext.state?_eq⟩
    first_new := h.first_new
    first_live := h.first_live
    last_new := h.last_new
    last_live := h.last_live
    ne := h.ne
    last_outgoing := h.last_outgoing
    path_iff := h.path_iff
    trim := h.trim }

/-- The automaton of a pattern reads the words that the pattern stands for. -/
theorem accepts_ofPattern_iff (p : Pattern) (w : List Step) :
    (ofPattern p).Accepts w ↔ w ∈ p.language :=
  (grows_ofPattern p).path_iff w

/-- What leads anywhere begins a word, since no state is a dead end. -/
theorem exists_path_ofPattern_iff (p : Pattern) (u : List Step) :
    (∃ q, Path (ofPattern p).outgoing (ofPattern p).start u q) ↔ ∃ v, u ++ v ∈ p.language := by
  have hg := grows_ofPattern p
  constructor
  · rintro ⟨q, hu⟩
    have hq := hu.isLive hg.linked hg.first_live
    obtain ⟨v, hv⟩ := hg.trim q (Nat.zero_le _) hq
    exact ⟨v, (hg.path_iff _).1 (hu.append hv)⟩
  · rintro ⟨v, hv⟩
    obtain ⟨q, hu, -⟩ := ((hg.path_iff _).2 hv).split
    exact ⟨q, hu⟩

end Nfa
end BoardGame
