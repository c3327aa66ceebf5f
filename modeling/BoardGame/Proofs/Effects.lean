import BoardGame.Effect
import BoardGame.Proofs.Board

/-!
# What an effect changes

The assignments of an effect are done one after the other (`World.Assigns`), each evaluated in the world
that those before it left, with the arguments as they were on entry. A write changes one name or one tile
(`Write.agreesOff_apply`), so a row of them leaves every name and every tile alone that none of them writes
(`World.Assigns.agreesOff`), and this is so for an effect that fails on its way (`World.perform_agreesOff`).
-/

namespace BoardGame

/-! ### Single writes -/

/-- The tile that is written. -/
def Write.tile? : Write → Option Tile
  | .tile t _ => some t
  | .var .. => none

/-- The worlds differ at most in these names and tiles. -/
structure World.AgreesOff (names : List String) (tiles : List Tile) (w w' : World) : Prop where
  vars : ∀ name ∉ names, SortedMap.find? name w'.vars = SortedMap.find? name w.vars
  tiles : ∀ t ∉ tiles, w'.board.get t = w.board.get t
  width_eq : w'.board.width = w.board.width
  height_eq : w'.board.height = w.board.height

namespace World.AgreesOff
variable {names names' : List String} {tiles tiles' : List Tile} {w w₁ w' : World}

theorem refl (w : World) : AgreesOff [] [] w w := ⟨fun _ _ => rfl, fun _ _ => rfl, rfl, rfl⟩

theorem trans (h : AgreesOff names tiles w w₁) (h' : AgreesOff names' tiles' w₁ w') :
    AgreesOff (names ++ names') (tiles ++ tiles') w w' where
  vars name hname := by
    rw [List.mem_append, not_or] at hname
    rw [h'.vars name hname.2, h.vars name hname.1]
  tiles t ht := by
    rw [List.mem_append, not_or] at ht
    rw [h'.tiles t ht.2, h.tiles t ht.1]
  width_eq := h'.width_eq.trans h.width_eq
  height_eq := h'.height_eq.trans h.height_eq

end World.AgreesOff

theorem Env.target_of_write {env : Env} {scope : Scope} {a : Assignment} {name : String} {path : List Int}
    {n : Int} (h : env.write scope a = .ok (.var name path n)) : a.target = name := by
  obtain ⟨indices, -, h⟩ := bind_eq_ok_iff.1 h
  split at h
  · split at h
    · obtain ⟨occupant, -, h⟩ := bind_eq_ok_iff.1 h
      cases h
    · cases h
  · obtain ⟨m, -, h⟩ := bind_eq_ok_iff.1 h
    cases h
    rfl

theorem Write.agreesOff_apply {x : Write} {w w' : World} {target : String}
    (htarget : ∀ name path n, x = .var name path n → target = name) (h : x.apply w = .ok w') :
    w.AgreesOff [target] x.tile?.toList w' := by
  cases x with
  | tile t p =>
    obtain ⟨b, hset, h⟩ := bind_eq_ok_iff.1 h
    obtain rfl := Except.ok.inj h
    have hget : ∀ t' ∉ [t], b.get t' = w.board.get t' := fun t' ht' =>
      Board.get_set_of_ne hset (mt List.mem_singleton.2 ht')
    obtain ⟨i, -, rfl⟩ := Board.set_eq_ok_iff.1 hset
    exact ⟨fun _ _ => rfl, hget, rfl, rfl⟩
  | var name path n =>
    obtain ⟨v, -, h⟩ := bind_eq_ok_iff.1 h
    obtain rfl := Except.ok.inj h
    obtain rfl := htarget name path n rfl
    exact ⟨fun name' hname' => SortedMap.find?_insert_ne (mt List.mem_singleton.2 hname') v w.vars,
      fun _ _ => rfl, rfl, rfl⟩

/-! ### Rows of assignments -/

namespace World

/-- The assignments are done from `w` on and lead to `w'`. Each is evaluated in the world that those before
it left; `xs` is what they write. -/
inductive Assigns (d : Definitions) (focus : Focus) (scope : Scope) :
    World → List Assignment → List Write → World → Prop
  | nil (w : World) : Assigns d focus scope w [] [] w
  | cons {w w₁ w' : World} {a : Assignment} {as : List Assignment} {x : Write} {xs : List Write}
    (evaluates : (w.env d focus).write scope a = .ok x) (writes : x.apply w = .ok w₁)
    (rest : Assigns d focus scope w₁ as xs w') : Assigns d focus scope w (a :: as) (x :: xs) w'

/-- The assignment fails in `w`, when it is evaluated or when it writes. -/
def Stuck (d : Definitions) (focus : Focus) (scope : Scope) (w : World) (a : Assignment) (e : EvalError) :
    Prop :=
  (w.env d focus).write scope a = .error e ∨
    ∃ x, (w.env d focus).write scope a = .ok x ∧ x.apply w = .error e

variable {d : Definitions} {focus : Focus} {scope : Scope} {w w' : World} {as : List Assignment}
  {xs : List Write}

theorem Assigns.agreesOff (h : Assigns d focus scope w as xs w') :
    w.AgreesOff (as.map (·.target)) (xs.filterMap Write.tile?) w' := by
  induction h with
  | nil w => exact .refl w
  | @cons w w₁ w' a as x xs evaluates writes _ ih =>
    have htarget : ∀ name path n, x = .var name path n → a.target = name := fun name path n heq =>
      Env.target_of_write (heq ▸ evaluates)
    have hwrite := Write.agreesOff_apply htarget writes
    have htiles : (x :: xs).filterMap Write.tile? = x.tile?.toList ++ xs.filterMap Write.tile? := by
      cases htile : x.tile? <;> simp [htile]
    rw [htiles]
    exact hwrite.trans ih

/-- The assignments are done up to the first that fails, or to the end. -/
theorem exists_assigns (d : Definitions) (focus : Focus) (scope : Scope) (w : World) (as : List Assignment) :
    ∃ done rest xs, as = done ++ rest ∧ Assigns d focus scope w done xs (w.assign d focus scope as).2 ∧
      match (w.assign d focus scope as).1 with
      | .ok _ => rest = []
      | .error e => ∃ a later, rest = a :: later ∧ Stuck d focus scope (w.assign d focus scope as).2 a e := by
  induction as generalizing w with
  | nil => exact ⟨[], [], [], rfl, .nil w, rfl⟩
  | cons a as ih =>
    rw [assign]
    cases hstep : (w.env d focus).write scope a >>= Write.apply w with
    | error e => exact ⟨[], a :: as, [], rfl, .nil w, a, as, rfl, bind_eq_error_iff.1 hstep⟩
    | ok w₁ =>
      obtain ⟨x, hevaluates, hwrites⟩ := bind_eq_ok_iff.1 hstep
      obtain ⟨done, rest, xs, rfl, hdone, hend⟩ := ih w₁
      exact ⟨a :: done, rest, x :: xs, rfl, .cons hevaluates hwrites hdone, hend⟩

/-! ### Effects -/

/-- An effect touches only what it assigns. Where it is not declared, takes another number of arguments, or
one of them has no value, nothing changes. Else its assignments are done one after the other, with the
arguments as they are on entry, all of them or up to the first that fails; every name that is no target of
those that are done and every tile that none of them writes is as it was, and so are the sides of the
board. -/
theorem perform_agreesOff (d : Definitions) (focus : Focus) (w : World) (c : Call) :
    match d.effect? c.name with
    | none => w.perform d focus c = (.error (.undefined .effect c.name), w)
    | some effect =>
      if effect.params.length = c.args.length then
        match (w.env d focus).evalAll [] c.args with
        | .error e => w.perform d focus c = (.error e, w)
        | .ok args =>
          let scope := Scope.bind effect.params args []
          let w' := (w.perform d focus c).2
          ∃ done rest xs, effect.assignments = done ++ rest ∧ Assigns d focus scope w done xs w' ∧
            w.AgreesOff (done.map (·.target)) (xs.filterMap Write.tile?) w' ∧
            match (w.perform d focus c).1 with
            | .ok _ => rest = []
            | .error e => ∃ a later, rest = a :: later ∧ Stuck d focus scope w' a e
      else w.perform d focus c = (.error (.arity c.name effect.params.length c.args.length), w) := by
  unfold perform
  cases d.effect? c.name with
  | none => rfl
  | some effect =>
    by_cases hparams : effect.params.length = c.args.length
    · simp only [if_pos hparams]
      cases (w.env d focus).evalAll [] c.args with
      | error e => rfl
      | ok args =>
        obtain ⟨done, rest, xs, hsplit, hdone, hend⟩ :=
          exists_assigns d focus (Scope.bind effect.params args []) w effect.assignments
        exact ⟨done, rest, xs, hsplit, hdone, hdone.agreesOff, hend⟩
    · simp only [if_neg hparams]

/-- `k` stands for 1, the value of `n` on entry, also when `n` has been assigned to. -/
example :
    let twice : Effect := ⟨"twice", ["k"], [⟨"n", [], .binary .add (.var "n") (.var "k")⟩,
      ⟨"n", [], .binary .add (.var "n") (.var "k")⟩]⟩
    (⟨[("n", .int 1)], .empty 1 1⟩ : World).perform { effects := [twice] } {} ⟨"twice", [.var "n"]⟩ =
      (.ok (), ⟨[("n", .int 3)], .empty 1 1⟩) := rfl

end World
end BoardGame
