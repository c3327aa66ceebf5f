import BoardGame.Effect
import BoardGame.Proofs.Results

/-!
# Storing along a path

A store that succeeds does to a value what a map of paths makes one expect (`Value.Stores`). It goes down
through the maps on the way and makes those that are missing before it has come to the end, and an
assignment binds its name before it stores. `Value.storeInPlace` and `World.assignInPlace` show what is
there when they fail: nothing has been made by then (`Value.storeInPlace_of_error`), so effects done in
place are those of `World.assign` (`World.assignInPlace_eq_assign`).
-/

namespace BoardGame

/-! ### Maps with increasing keys -/

namespace SortedMap
variable {κ α : Type} [LT κ] [DecidableLT κ] [DecidableEq κ] {k : κ} {a : α} {m : List (κ × α)}
  {entry : κ × α}

/-- The keys increase. -/
def Ordered (m : List (κ × α)) : Prop := (m.map Prod.fst).Pairwise (· < ·)

omit [LT κ] [DecidableLT κ] in
theorem mem_of_find? (h : find? k m = some a) : (k, a) ∈ m := by
  induction m with
  | nil => cases h
  | cons e m ih =>
    obtain ⟨k', a'⟩ := e
    rw [find?] at h
    split at h
    · rename_i heq
      rw [heq, Option.some.inj h]
      exact List.mem_cons_self ..
    · exact List.mem_cons_of_mem _ (ih h)

theorem mem_insert (h : entry ∈ insert k a m) : entry = (k, a) ∨ entry ∈ m := by
  induction m with
  | nil => exact .inl (List.mem_singleton.1 h)
  | cons e m ih =>
    rw [insert] at h
    split at h
    · exact List.mem_cons.1 h
    split at h
    · exact (List.mem_cons.1 h).imp_right (List.mem_cons_of_mem _)
    · rcases List.mem_cons.1 h with rfl | h
      · exact .inr (List.mem_cons_self ..)
      · exact (ih h).imp_right (List.mem_cons_of_mem _)

omit [DecidableLT κ] [DecidableEq κ] in
theorem ordered_nil : Ordered ([] : List (κ × α)) := .nil

omit [DecidableLT κ] [DecidableEq κ] in
theorem ordered_cons_iff : Ordered (entry :: m) ↔ (∀ e ∈ m, entry.1 < e.1) ∧ Ordered m := by
  rw [Ordered, List.map_cons, List.pairwise_cons, List.forall_mem_map]
  rfl

namespace Ordered

/-- What is found in a map is there already. -/
theorem insert_eq_self [Std.Asymm (α := κ) (· < ·)] (hm : Ordered m) (h : find? k m = some a) :
    insert k a m = m := by
  induction m with
  | nil => cases h
  | cons e m ih =>
    obtain ⟨k', a'⟩ := e
    obtain ⟨hlt, hm⟩ := ordered_cons_iff.1 hm
    rw [find?] at h
    split at h
    · rename_i heq
      obtain rfl := Option.some.inj h
      subst heq
      have hirrefl : ¬ k < k := fun hk => Std.Asymm.asymm _ _ hk hk
      rw [insert, if_neg hirrefl, if_pos rfl]
    · rename_i hne
      have hnot : ¬ k < k' := Std.Asymm.asymm _ _ (hlt _ (mem_of_find? h))
      rw [insert, if_neg hnot, if_neg hne, ih hm h]

theorem insert [Trans (α := κ) (· < ·) (· < ·) (· < ·)] [Std.Trichotomous (α := κ) (· < ·)]
    (hm : Ordered m) (k : κ) (a : α) : Ordered (SortedMap.insert k a m) := by
  induction m with
  | nil => exact ordered_cons_iff.2 ⟨nofun, ordered_nil⟩
  | cons e m ih =>
    obtain ⟨k', a'⟩ := e
    obtain ⟨hlt, hm'⟩ := ordered_cons_iff.1 hm
    rw [SortedMap.insert]
    split
    · rename_i hk
      refine ordered_cons_iff.2 ⟨fun e he => ?_, hm⟩
      rcases List.mem_cons.1 he with rfl | he
      · exact hk
      · exact Trans.trans hk (hlt e he)
    split
    · rename_i hk
      subst hk
      exact ordered_cons_iff.2 ⟨hlt, hm'⟩
    · rename_i hnot hne
      refine ordered_cons_iff.2 ⟨fun e he => ?_, ih hm'⟩
      rcases mem_insert he with rfl | he
      · by_contra h
        exact hne (Std.Trichotomous.trichotomous _ _ hnot h)
      · exact hlt e he

end Ordered
end SortedMap

namespace Value
variable {name : String} {v w : Value} {es : List (Int × Value)} {k n : Int} {p q path : List Int}
  {e : EvalError}

/-- The keys of every map in the value increase. -/
inductive Ordered : Value → Prop
  | int (n : Int) : Ordered (.int n)
  | map {es : List (Int × Value)} (hkeys : SortedMap.Ordered es) (hvalues : ∀ e ∈ es, Ordered e.2) :
    Ordered (.map es)

/-! ### Reading -/

theorem read_cons_of_find? (h : SortedMap.find? k es = some v) :
    (map es).read name (k :: path) = v.read name path := by rw [read, h]

theorem read_cons_of_none (h : SortedMap.find? k es = none) :
    (map es).read name (k :: path) = .error (.missingKey name k) := by rw [read, h]

/-- Reading on behind what was read. -/
theorem read_append_of_ok (h : v.read name p = .ok w) : v.read name (p ++ q) = w.read name q := by
  induction p generalizing v with
  | nil =>
    obtain rfl := Except.ok.inj h
    rfl
  | cons k p ih =>
    cases v with
    | int m => cases h
    | map es =>
      cases hk : SortedMap.find? k es with
      | none =>
        rw [read_cons_of_none hk] at h
        cases h
      | some u =>
        rw [read_cons_of_find? hk] at h
        rw [List.cons_append, read_cons_of_find? hk, ih h]

/-! ### When a store fails -/

/-- Where `store` goes on with the rest of the path. -/
def slot (es : List (Int × Value)) (k : Int) (path : List Int) : Value :=
  (SortedMap.find? k es).getD (fresh path)

theorem store_cons_eq_ok_iff : v.store name (k :: path) n = .ok w ↔
    ∃ es u, v = map es ∧ (slot es k path).store name path n = .ok u ∧
      w = map (SortedMap.insert k u es) := by
  cases v with
  | int m => simp [store]
  | map es => simp only [store, slot, bind_eq_ok_iff, pure_eq_ok_iff, map.injEq, exists_and_left,
      exists_eq_left']

theorem store_cons_eq_error_iff : (map es).store name (k :: path) n = .error e ↔
    (slot es k path).store name path n = .error e := by
  rw [store, bind_eq_error_iff]
  simp [slot, pure, Except.pure]

/-- What starts afresh has room for the path. -/
theorem exists_store_fresh (name : String) (path : List Int) (n : Int) :
    ∃ w, (fresh path).store name path n = .ok w := by
  induction path with
  | nil => exact ⟨.int n, rfl⟩
  | cons k path ih =>
    obtain ⟨w, hw⟩ := ih
    exact ⟨_, store_cons_eq_ok_iff.2 ⟨[], w, rfl, hw, rfl⟩⟩

/-- A store fails only below an entry that was there. -/
theorem exists_find?_of_store_slot (h : (slot es k path).store name path n = .error e) :
    ∃ v, SortedMap.find? k es = some v ∧ v.store name path n = .error e := by
  rw [slot] at h
  cases hk : SortedMap.find? k es with
  | some v =>
    rw [hk] at h
    exact ⟨v, rfl, h⟩
  | none =>
    obtain ⟨w, hw⟩ := exists_store_fresh name path n
    rw [hk, Option.getD_none, hw] at h
    cases h

/-- A store fails exactly if the path goes on behind an integer. -/
theorem store_eq_error_iff : v.store name p n = .error e ↔
    e = .notIndexable name ∧ ∃ q m, q <+: p ∧ q ≠ p ∧ v.read name q = .ok (.int m) := by
  induction p generalizing v with
  | nil =>
    refine ⟨fun h => ?_, ?_⟩
    · rw [store] at h
      cases h
    · rintro ⟨-, q, m, hq, hne, -⟩
      exact absurd (List.prefix_nil.1 hq) hne
  | cons k p ih =>
    cases v with
    | int m =>
      rw [store]
      refine ⟨fun h => ?_, fun h => congrArg _ h.1.symm⟩
      exact ⟨(Except.error.inj h).symm, [], m, List.nil_prefix, nofun, rfl⟩
    | map es =>
      rw [store_cons_eq_error_iff]
      constructor
      · intro h
        obtain ⟨v, hk, hv⟩ := exists_find?_of_store_slot h
        obtain ⟨he, q, m, hq, hne, hread⟩ := ih.1 hv
        refine ⟨he, k :: q, m, List.cons_prefix_cons.2 ⟨rfl, hq⟩, fun heq => ?_, ?_⟩
        · exact hne (List.cons.inj heq).2
        · rw [read_cons_of_find? hk, hread]
      · rintro ⟨he, q, m, hq, hne, hread⟩
        cases q with
        | nil => cases hread
        | cons k' q =>
          obtain ⟨rfl, hq'⟩ := List.cons_prefix_cons.1 hq
          cases hk : SortedMap.find? k' es with
          | none =>
            rw [read_cons_of_none hk] at hread
            cases hread
          | some v =>
            rw [read_cons_of_find? hk] at hread
            rw [slot, hk, Option.getD_some]
            exact ih.2 ⟨he, q, m, hq', fun heq => hne (heq ▸ rfl), hread⟩

/-! ### What a store does -/

theorem read_of_store (h : v.store name p n = .ok w) : w.read name p = .ok (.int n) := by
  induction p generalizing v w with
  | nil =>
    rw [store] at h
    rw [← Except.ok.inj h, read]
  | cons k p ih =>
    obtain ⟨es, u, rfl, hu, rfl⟩ := store_cons_eq_ok_iff.1 h
    rw [read_cons_of_find? (SortedMap.find?_insert_self ..), ih hu]

theorem exists_map_of_store (h : v.store name p n = .ok w) (hq : q <+: p) (hne : q ≠ p) :
    ∃ es, w.read name q = .ok (.map es) := by
  induction p generalizing v w q with
  | nil => exact absurd (List.prefix_nil.1 hq) hne
  | cons k p ih =>
    obtain ⟨es, u, rfl, hu, rfl⟩ := store_cons_eq_ok_iff.1 h
    cases q with
    | nil => exact ⟨_, rfl⟩
    | cons k' q =>
      obtain ⟨rfl, hq'⟩ := List.cons_prefix_cons.1 hq
      rw [read_cons_of_find? (SortedMap.find?_insert_self ..)]
      exact ih hu hq' fun heq => hne (heq ▸ rfl)

theorem fails_read_of_store (h : v.store name p n = .ok w) (hq : p <+: q) (hne : q ≠ p) :
    Fails (w.read name q) := by
  obtain ⟨rest, rfl⟩ := hq
  rw [read_append_of_ok (read_of_store h)]
  cases rest with
  | nil => exact absurd (List.append_nil p) hne
  | cons k rest => exact ⟨_, rfl⟩

/-- Both readings give the same, or there was no entry and there is none, perhaps farther on. -/
def SameReading (name : String) (x y : Except EvalError Value) : Prop :=
  x = y ∨ ∃ k k', x = .error (.missingKey name k) ∧ y = .error (.missingKey name k')

theorem read_fresh (name : String) (hqp : ¬ q <+: p) (hpq : ¬ p <+: q) :
    ∃ k, (fresh p).read name q = .error (.missingKey name k) := by
  cases p with
  | nil => exact absurd List.nil_prefix hpq
  | cons =>
    cases q with
    | nil => exact absurd List.nil_prefix hqp
    | cons k q => exact ⟨k, rfl⟩

theorem sameReading_of_store (h : v.store name p n = .ok w) (hqp : ¬ q <+: p) (hpq : ¬ p <+: q) :
    SameReading name (v.read name q) (w.read name q) := by
  induction p generalizing v w q with
  | nil => exact absurd List.nil_prefix hpq
  | cons k p ih =>
    obtain ⟨es, u, rfl, hu, rfl⟩ := store_cons_eq_ok_iff.1 h
    cases q with
    | nil => exact absurd List.nil_prefix hqp
    | cons k' q =>
      by_cases hne : k' = k
      · subst hne
        rw [List.prefix_cons_inj] at hqp hpq
        have hrest := ih hu hqp hpq
        rw [read_cons_of_find? (SortedMap.find?_insert_self ..)]
        cases hk : SortedMap.find? k' es with
        | some v =>
          rw [slot, hk, Option.getD_some] at hrest
          rwa [read_cons_of_find? hk]
        | none =>
          -- The map below was made by the store and holds nothing beside the path.
          obtain ⟨l, hl⟩ := read_fresh name hqp hpq
          rw [slot, hk, Option.getD_none, hl] at hrest
          rw [read_cons_of_none hk]
          rcases hrest with heq | ⟨-, l', -, hl'⟩
          · exact .inr ⟨k', l, rfl, heq.symm⟩
          · exact .inr ⟨k', l', rfl, hl'⟩
      · rw [read, read, SortedMap.find?_insert_ne hne]
        exact .inl rfl

/-- What storing `n` at the end of `p` makes of `v`: there is the integer, above it are maps, below it
is nothing, and beside the path is what was there. -/
structure Stores (name : String) (p : List Int) (n : Int) (v w : Value) : Prop where
  at_end : w.read name p = .ok (.int n)
  above : ∀ q, q <+: p → q ≠ p → ∃ es, w.read name q = .ok (.map es)
  below : ∀ q, p <+: q → q ≠ p → Fails (w.read name q)
  beside : ∀ q, ¬ q <+: p → ¬ p <+: q → SameReading name (v.read name q) (w.read name q)

theorem stores_of_store (h : v.store name p n = .ok w) : Stores name p n v w :=
  ⟨read_of_store h, fun _ => exists_map_of_store h, fun _ => fails_read_of_store h,
    fun _ => sameReading_of_store h⟩

/-! ### Stores in place -/

/-- The outcome of a store and the value that it leaves. On the way down the entry of a key is made, if it
is missing, before the store goes on with the rest of the path. -/
def storeInPlace (name : String) : Value → List Int → Int → Except EvalError Unit × Value
  | _, [], n => (.ok (), int n)
  | int m, _ :: _, _ => (.error (.notIndexable name), int m)
  | map es, k :: path, n =>
    let (result, v) := storeInPlace name (slot es k path) path n
    (result, map (SortedMap.insert k v es))

theorem storeInPlace_of_ok (h : v.store name p n = .ok w) : v.storeInPlace name p n = (.ok (), w) := by
  induction p generalizing v w with
  | nil =>
    rw [store] at h
    rw [← Except.ok.inj h, storeInPlace]
  | cons k p ih =>
    obtain ⟨es, u, rfl, hu, rfl⟩ := store_cons_eq_ok_iff.1 h
    rw [storeInPlace, ih hu]

/-- A store that fails leaves the value as it was. -/
theorem storeInPlace_of_error (hv : v.Ordered) (h : v.store name p n = .error e) :
    v.storeInPlace name p n = (.error e, v) := by
  induction p generalizing v with
  | nil =>
    rw [store] at h
    cases h
  | cons k p ih =>
    cases hv with
    | int m =>
      rw [store] at h
      rw [storeInPlace, Except.error.inj h]
    | map hkeys hvalues =>
      obtain ⟨v, hk, hv⟩ := exists_find?_of_store_slot (store_cons_eq_error_iff.1 h)
      have hrest := ih (hvalues _ (SortedMap.mem_of_find? hk)) hv
      rw [storeInPlace, slot, hk, Option.getD_some, hrest]
      dsimp only
      rw [hkeys.insert_eq_self hk]

/-! ### Values with increasing keys -/

theorem ordered_fresh (path : List Int) : (fresh path).Ordered := by
  cases path with
  | nil => exact .int 0
  | cons => exact .map SortedMap.ordered_nil nofun

namespace Ordered

theorem slot (h : Ordered (.map es)) (k : Int) (path : List Int) : (slot es k path).Ordered := by
  cases h with
  | map hkeys hvalues =>
    rw [Value.slot]
    cases hk : SortedMap.find? k es with
    | none => exact ordered_fresh path
    | some v => exact hvalues _ (SortedMap.mem_of_find? hk)

theorem store (hv : v.Ordered) (h : v.store name p n = .ok w) : w.Ordered := by
  induction p generalizing v w with
  | nil =>
    rw [Value.store] at h
    exact Except.ok.inj h ▸ .int n
  | cons k p ih =>
    obtain ⟨es, u, rfl, hu, rfl⟩ := store_cons_eq_ok_iff.1 h
    have hu := ih (hv.slot k p) hu
    cases hv with
    | map hkeys hvalues =>
      refine .map (hkeys.insert k u) fun e he => ?_
      rcases SortedMap.mem_insert he with rfl | he
      · exact hu
      · exact hvalues e he

end Ordered
end Value

/-! ### Effects in place -/

/-- The outcome of a write and the world that it leaves. A name that is not bound is bound before the
store begins. -/
def Write.applyInPlace (w : World) : Write → Except EvalError Unit × World
  | .tile t p =>
    match w.board.set t p with
    | .error e => (.error e, w)
    | .ok b => (.ok (), { w with board := b })
  | .var name path n =>
    let (result, v) := ((SortedMap.find? name w.vars).getD (.fresh path)).storeInPlace name path n
    (result, { w with vars := SortedMap.insert name v w.vars })

namespace World
variable {d : Definitions} {focus : Focus} {scope : Scope} {w w' : World} {x : Write} {e : EvalError}

/-- `assign` with every write done in place. -/
def assignInPlace (d : Definitions) (focus : Focus) (scope : Scope) (w : World) :
    List Assignment → Except EvalError Unit × World
  | [] => (.ok (), w)
  | a :: as =>
    match (w.env d focus).write scope a with
    | .error e => (.error e, w)
    | .ok x =>
      match x.applyInPlace w with
      | (.error e, w') => (.error e, w')
      | (.ok _, w') => assignInPlace d focus scope w' as

/-- The names of the variables increase, and so do the keys of the maps in them. -/
structure Ordered (w : World) : Prop where
  names : SortedMap.Ordered w.vars
  values : ∀ e ∈ w.vars, e.2.Ordered

theorem Ordered.start (hw : w.Ordered) (name : String) (path : List Int) :
    ((SortedMap.find? name w.vars).getD (.fresh path)).Ordered := by
  cases h : SortedMap.find? name w.vars with
  | none => exact Value.ordered_fresh path
  | some v => exact hw.values _ (SortedMap.mem_of_find? h)

theorem Ordered.insert (hw : w.Ordered) (name : String) {v : Value} (hv : v.Ordered) :
    Ordered { w with vars := SortedMap.insert name v w.vars } := by
  refine ⟨hw.names.insert name v, fun e he => ?_⟩
  rcases SortedMap.mem_insert he with rfl | he
  · exact hv
  · exact hw.values e he

theorem Ordered.apply (hw : w.Ordered) (h : x.apply w = .ok w') : w'.Ordered := by
  cases x with
  | tile t p =>
    obtain ⟨b, -, h⟩ := bind_eq_ok_iff.1 h
    obtain rfl := Except.ok.inj h
    exact ⟨hw.names, hw.values⟩
  | var name path n =>
    obtain ⟨v, hv, h⟩ := bind_eq_ok_iff.1 h
    obtain rfl := Except.ok.inj h
    exact hw.insert name ((hw.start name path).store hv)

theorem applyInPlace_of_ok (h : x.apply w = .ok w') : x.applyInPlace w = (.ok (), w') := by
  cases x with
  | tile t p =>
    obtain ⟨b, hb, h⟩ := bind_eq_ok_iff.1 h
    rw [Write.applyInPlace, hb, ← Except.ok.inj h]
  | var name path n =>
    obtain ⟨v, hv, h⟩ := bind_eq_ok_iff.1 h
    rw [Write.applyInPlace, Value.storeInPlace_of_ok hv, ← Except.ok.inj h]

/-- A write that fails leaves the world as it was: it binds no name and makes no map. -/
theorem applyInPlace_of_error (hw : w.Ordered) (h : x.apply w = .error e) :
    x.applyInPlace w = (.error e, w) := by
  cases x with
  | tile t p =>
    rcases bind_eq_error_iff.1 h with h | ⟨b, -, h⟩
    · rw [Write.applyInPlace, h]
    · cases h
  | var name path n =>
    rcases bind_eq_error_iff.1 h with h | ⟨v, -, h⟩
    · rw [Write.applyInPlace, Value.storeInPlace_of_error (hw.start name path) h]
      cases hname : SortedMap.find? name w.vars with
      | some v =>
        rw [Option.getD_some]
        dsimp only
        rw [hw.names.insert_eq_self hname]
      | none =>
        obtain ⟨v, hv⟩ := Value.exists_store_fresh name path n
        rw [hname, Option.getD_none, hv] at h
        cases h
    · cases h

theorem assignInPlace_eq_assign (hw : w.Ordered) (as : List Assignment) :
    w.assignInPlace d focus scope as = w.assign d focus scope as := by
  induction as generalizing w with
  | nil => rfl
  | cons a as ih =>
    rw [assignInPlace, assign]
    cases hx : (w.env d focus).write scope a with
    | error e => rfl
    | ok x =>
      have hbind : (Except.ok x >>= Write.apply w) = x.apply w := rfl
      rw [hbind]
      cases happly : x.apply w with
      | error e =>
        dsimp only
        rw [applyInPlace_of_error hw happly]
      | ok w' =>
        dsimp only
        rw [applyInPlace_of_ok happly]
        exact ih (hw.apply happly)

end World

/-- A store fails exactly if a beginning of the path leads to an integer, as a value that cannot be
indexed, and then leaves the value as it was. Otherwise it does what is expected of a map of paths. So an
assignment that fails changes nothing, also if it is to a name that is not bound. What happens in place is
what `store` and `assign` give. -/
theorem stores_or_keeps :
    (∀ (name : String) (v : Value) (p : List Int) (n : Int) (result : Except EvalError Unit) (left : Value),
      v.Ordered → v.storeInPlace name p n = (result, left) →
        (Fails result ↔ ∃ q m, q <+: p ∧ q ≠ p ∧ v.read name q = .ok (.int m)) ∧
        (∀ e, result = .error e →
          e = .notIndexable name ∧ left = v ∧ v.store name p n = .error e) ∧
        (result = .ok () → v.Stores name p n left ∧ v.store name p n = .ok left)) ∧
    ∀ (d : Definitions) (focus : Focus) (scope : Scope) (w : World), w.Ordered →
      (∀ a e, (w.assignInPlace d focus scope [a]).1 = .error e →
        (w.assignInPlace d focus scope [a]).2 = w) ∧
      ∀ as, w.assignInPlace d focus scope as = w.assign d focus scope as := by
  refine ⟨fun name v p n result left hv h => ?_, fun d focus scope w hw => ⟨fun a e h => ?_, ?_⟩⟩
  · cases hstore : v.store name p n with
    | error e =>
      obtain ⟨rfl, hpath⟩ := Value.store_eq_error_iff.1 hstore
      rw [Value.storeInPlace_of_error hv hstore] at h
      obtain ⟨rfl, rfl⟩ := Prod.mk.inj h
      refine ⟨iff_of_true ⟨_, rfl⟩ hpath, fun e he => ?_, nofun⟩
      obtain rfl := Except.error.inj he
      exact ⟨rfl, rfl, rfl⟩
    | ok u =>
      rw [Value.storeInPlace_of_ok hstore] at h
      obtain ⟨rfl, rfl⟩ := Prod.mk.inj h
      refine ⟨iff_of_false Fails.not_ok fun hpath => ?_, nofun, fun _ =>
        ⟨Value.stores_of_store hstore, rfl⟩⟩
      have herror : v.store name p n = _ := Value.store_eq_error_iff.2 ⟨rfl, hpath⟩
      rw [hstore] at herror
      cases herror
  · rw [World.assignInPlace_eq_assign hw] at h ⊢
    rw [World.assign] at h ⊢
    split at h
    · rfl
    · cases h
  · exact World.assignInPlace_eq_assign hw

/-- In `m = {1: 5}` there is room for 7 at `m[2][3]` but not at `m[1][0]`. By `n = 1`, neither
`n[0] = 2` nor `k[0] = 1 / 0` changes anything. -/
theorem stores_or_keeps_room :
    let v : Value := .map [(1, .int 5)]
    let left : Value := .map [(1, .int 5), (2, .map [(3, .int 7)])]
    let w : World := ⟨[("n", .int 1)], .empty 1 1⟩
    let a : Assignment := ⟨"n", [.literal 0], .literal 2⟩
    let b : Assignment := ⟨"k", [.literal 0], .binary .div (.literal 1) (.literal 0)⟩
    v.Ordered ∧ v.storeInPlace "m" [2, 3] 7 = (.ok (), left) ∧ v.Stores "m" [2, 3] 7 left ∧
      v.storeInPlace "m" [1, 0] 7 = (.error (.notIndexable "m"), v) ∧
      (∃ q m, q <+: [1, 0] ∧ q ≠ [1, 0] ∧ v.read "m" q = .ok (.int m)) ∧ w.Ordered ∧
      (w.assignInPlace {} {} [] [a]).1 = .error (.notIndexable "n") ∧
      (w.assignInPlace {} {} [] [a]).2 = w ∧
      (w.assignInPlace {} {} [] [b]).1 = .error .divisionByZero ∧
      (w.assignInPlace {} {} [] [b]).2 = w := by
  intro v left w a b
  have hv : v.Ordered := .map (.cons nofun .nil) fun e he => by
    rw [List.mem_singleton.1 he]
    exact .int 5
  have hw : w.Ordered := ⟨.cons nofun .nil, fun e he => by
    rw [List.mem_singleton.1 he]
    exact .int 1⟩
  have hroom : v.storeInPlace "m" [2, 3] 7 = (.ok (), left) := rfl
  have hfull : v.storeInPlace "m" [1, 0] 7 = (.error (.notIndexable "m"), v) := rfl
  have ha : (w.assignInPlace {} {} [] [a]).1 = .error (.notIndexable "n") := rfl
  have hb : (w.assignInPlace {} {} [] [b]).1 = .error .divisionByZero := rfl
  obtain ⟨hstore, hassign⟩ := stores_or_keeps
  obtain ⟨hkeeps, -⟩ := hassign {} {} [] w hw
  exact ⟨hv, hroom, ((hstore _ _ _ _ _ _ hv hroom).2.2 rfl).1, hfull,
    (hstore _ _ _ _ _ _ hv hfull).1.1 ⟨_, rfl⟩, hw, ha, hkeeps a _ ha, hb, hkeeps b _ hb⟩

end BoardGame
