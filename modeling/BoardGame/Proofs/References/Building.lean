import BoardGame.Proofs.Game.Generation
import BoardGame.Proofs.References.Resolution

/-!
# References when rules are built

Building the rules of a fitting program fails of no reference (`Fitting.cleanBuild_build`). If it
succeeds, the variables are bound (`binds_build`) and the automata of the pieces read steps that fit
(`Fitting.fits_of_mem_transitions`).
-/

namespace BoardGame
variable {α β : Type} {counted : Bool}

/-- The result is no failure of building that comes from a failure of a reference. -/
def CleanBuild (counted : Bool) (r : Except BuildError α) : Prop :=
  ∀ e, r = .error e → ∀ err ∈ e.source?, ¬ err.Misrefers counted

@[simp] theorem cleanBuild_ok (a : α) : CleanBuild counted (.ok a) := fun _ h => by cases h

theorem cleanBuild_error {e : BuildError} (h : ∀ err ∈ e.source?, ¬ err.Misrefers counted) :
    CleanBuild counted (.error e : Except BuildError α) := fun _ he => Except.error.inj he ▸ h

theorem CleanBuild.bind {x : Except BuildError α} {f : α → Except BuildError β}
    (hx : CleanBuild counted x) (hf : ∀ a, x = .ok a → CleanBuild counted (f a)) :
    CleanBuild counted (x >>= f) := by
  cases hxe : x with
  | error e => exact cleanBuild_error (hx e hxe)
  | ok a => exact hf a hxe

theorem cleanBuild_foldlM {f : β → α → Except BuildError β} {as : List α}
    (hf : ∀ b, ∀ a ∈ as, CleanBuild counted (f b a)) (b : β) :
    CleanBuild counted (as.foldlM f b) := by
  induction as generalizing b with
  | nil => exact cleanBuild_ok _
  | cons a as ih =>
    rw [List.foldlM_cons]
    exact (hf b a (List.mem_cons_self ..)).bind fun b' _ =>
      ih (fun b a ha => hf b a (List.mem_cons_of_mem _ ha)) b'

theorem cleanBuild_mapM {f : α → Except BuildError β} {as : List α}
    (hf : ∀ a ∈ as, CleanBuild counted (f a)) : CleanBuild counted (as.mapM f) := by
  induction as with
  | nil => exact cleanBuild_ok _
  | cons a as ih =>
    rw [List.mapM_cons]
    exact (hf a (List.mem_cons_self ..)).bind fun _ _ =>
      (ih fun a ha => hf a (List.mem_cons_of_mem _ ha)).bind fun _ _ => cleanBuild_ok _

namespace Program
variable {p : Program} {d : Definitions} {vars : Variables} {rules : Rules}

/-! ### Parts that evaluate nothing -/

theorem cleanBuild_definitions (p : Program) : CleanBuild counted p.definitions := by
  refine (cleanBuild_foldlM (fun d q _ => ?_) _).bind fun d _ => cleanBuild_foldlM (fun d x _ => ?_) _
  · unfold Definitions.addPiece
    split
    · exact cleanBuild_error (by simp [BuildError.source?])
    · exact cleanBuild_ok _
  · unfold Definitions.addDeclaration
    split
    all_goals try exact cleanBuild_ok _
    split
    · exact cleanBuild_error (by simp [BuildError.source?])
    · exact cleanBuild_ok _

theorem cleanBuild_placeCells {decl : BoardDecl} {width height k : Nat} {b : Board}
    {cells : List Cell} : CleanBuild counted (placeCells d decl width height k b cells) := by
  induction cells generalizing k b with
  | nil => exact cleanBuild_ok _
  | cons cell cells ih =>
    have hcell : CleanBuild counted (cellPiece d cell) := by
      unfold cellPiece
      repeat' split
      · exact cleanBuild_ok _
      · exact cleanBuild_error (by simp [BuildError.source?])
      · exact cleanBuild_ok _
    refine hcell.bind fun piece _ => ?_
    split
    · exact cleanBuild_error (by simp [BuildError.source?])
    · exact ih

theorem cleanBuild_initialBoard (decl : BoardDecl) (d : Definitions) :
    CleanBuild counted (initialBoard decl d) := by
  unfold initialBoard
  split
  · exact cleanBuild_error (by simp [BuildError.source?])
  · split
    · exact cleanBuild_placeCells
    · exact cleanBuild_error (by simp [BuildError.source?])

/-! ### Variables -/

theorem bindVariable_eq_ok_iff {v : VariableDecl} {vars' : Variables} :
    bindVariable d vars v = .ok vars' ↔
      ∃ n, ({ definitions := d, vars := vars } : Env).eval [] v.value = .ok n ∧
        vars' = SortedMap.insert v.name (.int n) vars := by
  rw [bindVariable]
  split <;> simp [*, eq_comm]

/-- Bound before or declared here, a variable is bound afterwards. -/
theorem binds_bindVariables {vs : List VariableDecl} {vars' : Variables}
    (h : vs.foldlM (bindVariable d) vars = .ok vars') {x : String}
    (hx : x ∈ vs.map (·.name) ∨ (SortedMap.find? x vars).isSome) :
    (SortedMap.find? x vars').isSome := by
  induction vs generalizing vars with
  | nil =>
    obtain rfl := Except.ok.inj h
    simpa using hx
  | cons v vs ih =>
    rw [List.foldlM_cons, bind_eq_ok_iff] at h
    obtain ⟨vars₁, h₁, h⟩ := h
    refine ih h ?_
    obtain ⟨n, -, rfl⟩ := bindVariable_eq_ok_iff.1 h₁
    by_cases hname : x = v.name
    · simp [hname, SortedMap.find?_insert_self]
    · rw [SortedMap.find?_insert_ne hname]
      simpa [hname] using hx

theorem binds_build (h : p.build = .ok rules) :
    ∀ x ∈ p.declared .var, (SortedMap.find? x rules.vars).isSome := by
  intro x hx
  rw [declared_var] at hx
  exact binds_bindVariables (build_eq_ok_iff.1 h).2.1 (.inl hx)

/-! ### Fitting programs -/

namespace Fitting

theorem cleanBuild_initialVariables (hp : p.Fitting counted) (hd : p.Defines d) :
    CleanBuild counted (p.initialVariables d) := by
  refine cleanBuild_foldlM (fun vars v hv => ?_) _
  have heval : Clean counted (({ definitions := d, vars := vars } : Env).eval [] v.value) :=
    (hp.variableDecl hv).clean_eval hp hd (by simp)
  unfold bindVariable
  split
  · rename_i e he
    exact cleanBuild_error (by simpa [BuildError.source?] using heval e he)
  · exact cleanBuild_ok _

theorem cleanBuild_compilePiece (hp : p.Fitting counted) (hd : p.Defines d)
    (hvars : ∀ x ∈ p.declared .var, (SortedMap.find? x vars).isSome) (type : PieceType) :
    CleanBuild counted (p.compilePiece { definitions := d, vars := vars } type) := by
  unfold compilePiece
  split
  · exact cleanBuild_ok _
  rename_i rule hrule
  have hclean : Clean counted (({ definitions := d, vars := vars } : Env).resolve [] rule.movement) :=
    (Env.resolves_resolve hp hd hvars (hp.rule (List.mem_of_find?_eq_some hrule))).1
  split
  · rename_i e he
    exact cleanBuild_error (by simpa [BuildError.source?] using hclean e he)
  · exact cleanBuild_ok _

theorem cleanBuild_build (hp : p.Fitting counted) : CleanBuild counted p.build := by
  refine (cleanBuild_definitions p).bind fun d hd => ?_
  have hd := defines_definitions hd
  refine (hp.cleanBuild_initialVariables hd).bind fun vars hvars => ?_
  have hvars : ∀ x ∈ p.declared .var, (SortedMap.find? x vars).isSome := fun x hx =>
    binds_bindVariables hvars (.inl (declared_var ▸ hx))
  refine (cleanBuild_mapM fun type _ => hp.cleanBuild_compilePiece hd hvars type).bind fun _ _ => ?_
  exact (cleanBuild_initialBoard _ _).bind fun _ _ => cleanBuild_ok _

/-- The automaton of a piece reads steps that fit. -/
theorem fits_of_mem_transitions (hp : p.Fitting counted) (h : p.build = .ok rules)
    {bp : BoardPiece} (hbp : bp ∈ rules.pieces) {q r : StateId} {s : Step}
    (hs : (s, r) ∈ bp.dfa.transitions q) : s.Fits p counted (p.declared .var) := by
  obtain ⟨hd, -, hpieces, -⟩ := build_eq_ok_iff.1 h
  obtain ⟨type, -, hc⟩ := exists_of_mem_mapM hpieces hbp
  rcases compilePiece_eq_ok_iff.1 hc with ⟨-, heq⟩ | ⟨rule, pattern, hrule, hpattern, heq⟩
  · rw [heq] at hs
    cases q <;> cases hs
  rw [heq] at hs
  have hresolves : Resolves p counted (p.declared .var)
      (({ definitions := rules.definitions, vars := rules.vars } : Env).resolve [] rule.movement) :=
    Env.resolves_resolve hp (defines_definitions hd) (binds_build h)
      (hp.rule (List.mem_of_find?_eq_some hrule))
  exact hresolves.2 pattern hpattern s (Dfa.mem_steps_of_mem_transitions hs)

end Fitting
end Program
end BoardGame
