import BoardGame.Grammar.Parser

/-!
# What a parser reads

A parser sees of a token its kind and its text, and its result depends on no more than the tokens from
the cursor on: not on places in the text, nor on earlier failures. `read p` is `p` as a function of the
lexemes that are left, and `ReadsAs` ties the two together. A grammar that is put together from the
combinators is `Readable` by instances, and what follows about it is said of `read`.
-/

namespace BoardGame

/-- A token without its place. -/
@[ext]
structure Lexeme where
  kind : TokenKind
  literal : String
deriving DecidableEq

def Token.lexeme (t : Token) : Lexeme := ⟨t.kind, t.literal⟩

namespace Lexeme

def ending : Lexeme := ⟨.endOfInput, ""⟩

def toToken (x : Lexeme) : Token := ⟨x.kind, x.literal, .start⟩

/-- The lexeme at the head; behind the last one the end of input. -/
def next (xs : List Lexeme) : Lexeme := xs.headD ending

@[simp] theorem next_cons (x : Lexeme) (xs : List Lexeme) : next (x :: xs) = x := rfl

@[simp] theorem next_nil : next [] = ending := rfl

end Lexeme

namespace Parser
open Lexeme (next)
variable {α β γ δ : Type}

/-! ### Tokens as lexemes -/

/-- What is written from the token `i` on. -/
def written (ts : Array Token) (i : Nat) : List Lexeme := (ts.toList.drop i).map Token.lexeme

/-- The last token is the end of input. -/
def Closed (ts : Array Token) : Prop := ∃ t, ts.back? = some t ∧ t.lexeme = .ending

section
variable {ts : Array Token} {i j : Nat}

theorem written_eq_cons (h : i < ts.size) : written ts i = ts[i].lexeme :: written ts (i + 1) := by
  have hdrop : ts.toList.drop i = ts[i] :: ts.toList.drop (i + 1) :=
    List.drop_eq_getElem_cons (by simpa using h)
  rw [written, hdrop, List.map_cons, written]

theorem written_size (ts : Array Token) : written ts ts.size = [] := by
  simp [written]

theorem length_written (ts : Array Token) (i : Nat) : (written ts i).length = ts.size - i := by
  simp [written]

theorem written_lt_iff (hi : i ≤ ts.size) (hj : j ≤ ts.size) :
    (written ts j).length < (written ts i).length ↔ i < j := by
  rw [length_written, length_written]
  omega

/-- The token at the cursor. -/
def tokenAt (ts : Array Token) (i : Nat) : Token := (ts[i]?.or ts.back?).getD (.endOfInput .start)

theorem lexeme_tokenAt (hts : Closed ts) (hi : i ≤ ts.size) :
    (tokenAt ts i).lexeme = next (written ts i) := by
  rcases Nat.lt_or_eq_of_le hi with hlt | rfl
  · rw [written_eq_cons hlt, Lexeme.next_cons, tokenAt, Array.getElem?_eq_getElem hlt]
    rfl
  · obtain ⟨t, hback, ht⟩ := hts
    rw [written_size, Lexeme.next_nil, tokenAt, hback]
    simpa using ht

/-- The cursor after one more token. -/
theorem exists_advance (hi : i ≤ ts.size) (f : Option ParseError) : ∃ j, i ≤ j ∧ j ≤ ts.size ∧
    written ts j = (written ts i).tail ∧ advance ts ⟨i, f⟩ = (some (), ⟨j, f⟩) := by
  rcases Nat.lt_or_eq_of_le hi with hlt | rfl
  · refine ⟨i + 1, by omega, hlt, ?_, ?_⟩
    · rw [written_eq_cons hlt, List.tail_cons]
    · simp [advance, hlt]
  · refine ⟨ts.size, Nat.le_refl _, Nat.le_refl _, ?_, ?_⟩
    · rw [written_size, List.tail_nil]
    · simp [advance]

end

/-! ### Readings of the combinators -/

/-- A result `a` with what is left of the lexemes. -/
abbrev Reading (α : Type) := List Lexeme → Option (α × List Lexeme)

/-- What `t` reads behind what `r` reads. -/
def Reading.bind (r : Reading α) (t : α → Reading β) : Reading β := fun xs =>
  (r xs).bind fun x => t x.1 x.2

theorem Reading.bind_assoc (r : Reading α) (t : α → Reading β) (u : β → Reading γ) :
    Reading.bind (Reading.bind r t) u = Reading.bind r fun a => Reading.bind (t a) u :=
  funext fun xs => Option.bind_assoc (r xs) _ _

/-- Up to `g`, the parser gives what `read` finds in the lexemes from the cursor on. -/
def ReadsAs (g : α → β) (p : Parser α) (read : Reading β) : Prop :=
  ∀ ts i f, Closed ts → i ≤ ts.size →
    match read (written ts i) with
    | none => (p ts ⟨i, f⟩).1 = none
    | some (b, ys) => ∃ a j f', p ts ⟨i, f⟩ = (some a, ⟨j, f'⟩) ∧ g a = b ∧
        i ≤ j ∧ j ≤ ts.size ∧ written ts j = ys

variable {g : α → β} {p q : Parser α} {r s : Reading β}

theorem ReadsAs.of_none (hp : ReadsAs g p r) {ts : Array Token} {i : Nat} {f : Option ParseError}
    (hts : Closed ts) (hi : i ≤ ts.size) (h : r (written ts i) = none) : (p ts ⟨i, f⟩).1 = none := by
  have hrun := hp ts i f hts hi
  rw [h] at hrun
  exact hrun

theorem ReadsAs.of_some (hp : ReadsAs g p r) {ts : Array Token} {i : Nat} {f : Option ParseError}
    (hts : Closed ts) (hi : i ≤ ts.size) {b : β} {ys : List Lexeme}
    (h : r (written ts i) = some (b, ys)) :
    ∃ a j f', p ts ⟨i, f⟩ = (some a, ⟨j, f'⟩) ∧ g a = b ∧ i ≤ j ∧ j ≤ ts.size ∧
      written ts j = ys := by
  have hrun := hp ts i f hts hi
  rw [h] at hrun
  exact hrun

theorem readsAs_pure (a : α) : ReadsAs g (pure a) fun xs => some (g a, xs) :=
  fun _ i f _ hi => ⟨a, i, f, rfl, rfl, Nat.le_refl _, hi, rfl⟩

theorem readsAs_stop : ReadsAs g stop fun _ => none := fun _ _ _ _ _ => rfl

theorem readsAs_fail (expected : String) : ReadsAs g (fail expected) fun _ => none :=
  fun _ _ _ _ _ => rfl

theorem run_bind_of_some {k : α → Parser β} {ts : Array Token} {x y : Reader} {a : α}
    (h : p ts x = (some a, y)) : (p >>= k) ts x = k a ts y := by
  simp only [Bind.bind, h]

theorem run_bind_of_none {k : α → Parser β} {ts : Array Token} {x : Reader} (h : (p ts x).1 = none) :
    ((p >>= k) ts x).1 = none := by
  simp only [Bind.bind]
  rw [← Prod.eta (p ts x), h]

theorem ReadsAs.bind {h : γ → δ} {k : α → Parser γ} {t : β → Reading δ} (hp : ReadsAs g p r)
    (hk : ∀ a, ReadsAs h (k a) (t (g a))) :
    ReadsAs h (p >>= k) (r.bind t) := by
  intro ts i f hts hi
  cases hr : r (written ts i) with
  | none =>
    simp only [Reading.bind, hr, Option.bind_none]
    exact run_bind_of_none (hp.of_none hts hi hr)
  | some x =>
    obtain ⟨a, j, f', hrun, ha, hij, hj, hys⟩ := hp.of_some (f := f) hts hi hr
    simp only [Reading.bind, hr, Option.bind_some, run_bind_of_some hrun]
    have hrest := hk a ts j f' hts hj
    rw [hys, ha] at hrest
    cases ht : t x.1 x.2 with
    | none => simpa [ht] using hrest
    | some y =>
      rw [ht] at hrest
      obtain ⟨c, l, f'', hrun', hc, hjl, hl, hzs⟩ := hrest
      exact ⟨c, l, f'', hrun', hc, Nat.le_trans hij hjl, hl, hzs⟩

theorem ReadsAs.attempt (hp : ReadsAs g p r) : ReadsAs g (attempt p) r := by
  intro ts i f hts hi
  cases hr : r (written ts i) with
  | none =>
    have hnone : (p ts ⟨i, f⟩).1 = none := hp.of_none hts hi hr
    simp only [Parser.attempt]
    rw [← Prod.eta (p ts ⟨i, f⟩), hnone]
  | some x =>
    obtain ⟨a, j, f', hrun, hrest⟩ := hp.of_some (f := f) hts hi hr
    exact ⟨a, j, f', by simp only [Parser.attempt, hrun], hrest⟩

/-- A parser that fails in an attempt leaves the cursor where it was. -/
theorem attempt_eq_none {ts : Array Token} {i : Nat} {f : Option ParseError}
    (h : (p ts ⟨i, f⟩).1 = none) : ∃ f', attempt p ts ⟨i, f⟩ = (none, ⟨i, f'⟩) := by
  refine ⟨(p ts ⟨i, f⟩).2.furthest, ?_⟩
  simp only [attempt]
  rw [← Prod.eta (p ts ⟨i, f⟩), h]

theorem ReadsAs.orElse (hp : ReadsAs g p r) (hq : ReadsAs g q s) :
    ReadsAs g (orElse p q) fun xs => (r xs).or (s xs) := by
  intro ts i f hts hi
  cases hr : r (written ts i) with
  | none =>
    obtain ⟨f', hnone⟩ := attempt_eq_none (hp.of_none (f := f) hts hi hr)
    simp only [hr, Option.none_or, Parser.orElse, hnone]
    exact hq ts i f' hts hi
  | some x =>
    obtain ⟨a, j, f', hrun, hrest⟩ := hp.attempt.of_some (f := f) hts hi hr
    simp only [hr, Option.some_or, Parser.orElse, hrun]
    exact ⟨a, j, f', rfl, hrest⟩

theorem ReadsAs.optional (hp : ReadsAs g p r) : ReadsAs (Option.map g) (optional p) fun xs =>
    some (((r xs).map Prod.fst), ((r xs).map Prod.snd).getD xs) := by
  intro ts i f hts hi
  cases hr : r (written ts i) with
  | none =>
    obtain ⟨f', hnone⟩ := attempt_eq_none (hp.of_none (f := f) hts hi hr)
    simp only [hr, Parser.optional, hnone]
    exact ⟨none, i, f', rfl, rfl, Nat.le_refl _, hi, rfl⟩
  | some x =>
    obtain ⟨a, j, f', hrun, ha, hrest⟩ := hp.attempt.of_some (f := f) hts hi hr
    simp only [hr, Parser.optional, hrun]
    exact ⟨some a, j, f', rfl, by rw [Option.map_some, ha]; rfl, hrest⟩

/-- Everything that `r` reads until it fails, or until it reads nothing. -/
def readMany (r : Reading β) (xs : List Lexeme) : List β × List Lexeme :=
  match r xs with
  | none => ([], xs)
  | some (b, ys) =>
    if ys.length < xs.length then (b :: (readMany r ys).1, (readMany r ys).2) else ([b], ys)
termination_by xs.length

/-- `r` reads the results one after another. -/
inductive Chain (r : Reading β) : List Lexeme → List β → List Lexeme → Prop
  | nil (xs : List Lexeme) : Chain r xs [] xs
  | cons {xs ys zs : List Lexeme} {b : β} {bs : List β} (head : r xs = some (b, ys))
    (tail : Chain r ys bs zs) : Chain r xs (b :: bs) zs

theorem chain_readMany (r : Reading β) (xs : List Lexeme) :
    Chain r xs (readMany r xs).1 (readMany r xs).2 := by
  induction h : xs.length using Nat.strongRecOn generalizing xs with
  | ind n ih =>
    rw [readMany]
    cases hr : r xs with
    | none => exact .nil xs
    | some x =>
      by_cases hlt : x.2.length < xs.length
      · simp only [hlt, if_true]
        exact .cons hr (ih _ (h ▸ hlt) x.2 rfl)
      · simp only [hlt, if_false]
        exact .cons hr (.nil x.2)

/-- Never reads nothing. -/
def Advances (r : Reading β) : Prop := ∀ xs b ys, r xs = some (b, ys) → ys.length < xs.length

/-- A chain that cannot be continued is all that is read, if each link reads something. -/
theorem Chain.readMany_eq {xs ys : List Lexeme} {bs : List β} (h : Chain r xs bs ys)
    (hr : Advances r) (hys : r ys = none) :
    readMany r xs = (bs, ys) := by
  induction h with
  | nil => rw [readMany, hys]
  | cons head _ ih =>
    rw [readMany, head]
    simp only [hr _ _ _ head, if_true, ih hys]

/-- A row of items is read one by one, if each is read whatever item comes next. `P` says what can
come next, and `n` limits how long the row is. -/
theorem chain_flatMap {r : Reading β} {write : γ → List Lexeme} {f : γ → β} {n : Nat} {items : List γ}
    {ys : List Lexeme} (P : Lexeme → Prop) (hys : P (next ys))
    (hwrite : ∀ c ∈ items, ∀ zs, P (next (write c ++ zs)))
    (hr : ∀ c ∈ items, ∀ zs, P (next zs) → (write c ++ zs).length ≤ n → r (write c ++ zs) = some (f c, zs))
    (hn : (items.flatMap write ++ ys).length ≤ n) :
    Chain r (items.flatMap write ++ ys) (items.map f) ys := by
  induction items with
  | nil => exact .nil ys
  | cons c items ih =>
    rw [List.flatMap_cons, List.append_assoc] at hn ⊢
    have hnext : P (next (items.flatMap write ++ ys)) := by
      cases items with
      | nil => exact hys
      | cons d items =>
        rw [List.flatMap_cons, List.append_assoc]
        exact hwrite d (List.mem_cons_of_mem c List.mem_cons_self) _
    refine .cons (hr c List.mem_cons_self _ hnext hn)
      (ih (fun d hd => hwrite d (List.mem_cons_of_mem c hd)) (fun d hd => hr d (List.mem_cons_of_mem c hd)) ?_)
    rw [List.length_append] at hn
    exact Nat.le_of_add_left_le hn

theorem ReadsAs.many (hp : ReadsAs g p r) :
    ReadsAs (List.map g) (many p) fun xs => some (readMany r xs) := by
  intro ts i f hts hi
  obtain ⟨n, hn⟩ : ∃ n, n = ts.size - i := ⟨_, rfl⟩
  show ∃ as j f', Parser.many p ts ⟨i, f⟩ = (some as, ⟨j, f'⟩) ∧ as.map g = (readMany r (written ts i)).1 ∧
    i ≤ j ∧ j ≤ ts.size ∧ written ts j = (readMany r (written ts i)).2
  suffices h : ∃ as j f', manyFrom p ts ⟨i, f⟩ = (as, ⟨j, f'⟩) ∧
      as.map g = (readMany r (written ts i)).1 ∧ i ≤ j ∧ j ≤ ts.size ∧
      written ts j = (readMany r (written ts i)).2 by
    obtain ⟨as, j, f', hrun, hrest⟩ := h
    exact ⟨as, j, f', by simp only [Parser.many, hrun], hrest⟩
  -- by induction on the number of tokens that are left
  induction n using Nat.strongRecOn generalizing i f with
  | ind n ih =>
    cases hr : r (written ts i) with
    | none =>
      obtain ⟨f', hnone⟩ := attempt_eq_none (hp.of_none (f := f) hts hi hr)
      refine ⟨[], i, f', ?_, ?_, Nat.le_refl _, hi, ?_⟩
      · rw [manyFrom, hnone]
      · rw [readMany, hr]; rfl
      · rw [readMany, hr]
    | some x =>
      obtain ⟨b, ys⟩ := x
      obtain ⟨a, j, f', hrun, ha, hij, hj, hys⟩ := hp.attempt.of_some (f := f) hts hi hr
      have hguard : (i < j ∧ j ≤ ts.size) ↔ ys.length < (written ts i).length := by
        rw [← hys, written_lt_iff hi hj]
        exact and_iff_left hj
      by_cases hlt : ys.length < (written ts i).length
      · obtain ⟨as, l, f'', hmany, has, hjl, hl, hzs⟩ :=
          ih (ts.size - j) (by have := (hguard.2 hlt).1; omega) j f' hj rfl
        rw [hys] at has hzs
        refine ⟨a :: as, l, f'', ?_, ?_, Nat.le_trans hij hjl, hl, ?_⟩
        · rw [manyFrom, hrun]
          simp only [hguard.2 hlt, and_self, if_true, hmany]
        · rw [readMany, hr]
          simp only [hlt, if_true, List.map_cons, ha, has]
        · rw [readMany, hr]
          simp only [hlt, if_true, hzs]
      · refine ⟨[a], j, f', ?_, ?_, hij, hj, ?_⟩
        · rw [manyFrom, hrun]
          simp only [hguard, hlt, if_false]
        · rw [readMany, hr]
          simp only [hlt, if_false, List.map_cons, List.map_nil, ha]
        · rw [readMany, hr]
          simp only [hlt, if_false, hys]

/-- A place does not show in the reading. -/
theorem ReadsAs.spanned (hp : ReadsAs g p r) : ReadsAs (fun s => g s.value) (spanned p) r := by
  intro ts i f hts hi
  cases hr : r (written ts i) with
  | none =>
    obtain ⟨f', hnone⟩ := attempt_eq_none (hp.of_none (f := f) hts hi hr)
    simp only [Parser.spanned, Bind.bind, peek, hnone]
  | some x =>
    obtain ⟨a, j, f', hrun, ha, hrest⟩ := hp.attempt.of_some (f := f) hts hi hr
    simp only [Parser.spanned, Bind.bind, peek, hrun, lastStop]
    exact ⟨_, j, f', rfl, ha, hrest⟩

/-! ### Readable parsers -/

/-- A parser whose result depends on the lexemes from the cursor on. -/
class Readable (p : Parser α) where
  read : Reading α
  suffix : ∀ {xs a ys}, read xs = some (a, ys) → ys <:+ xs
  readsAs : ReadsAs id p read

def read (p : Parser α) [Readable p] : Reading α := Readable.read p

theorem readsAs (p : Parser α) [Readable p] : ReadsAs id p (read p) := Readable.readsAs

theorem read_mk (p : Parser α) (r : Reading α) (hsuffix : ∀ {xs a ys}, r xs = some (a, ys) → ys <:+ xs)
    (hr : ReadsAs id p r) : @read α p ⟨r, hsuffix, hr⟩ = r := rfl

theorem suffix_of_read {p : Parser α} [Readable p] {xs ys : List Lexeme} {a : α}
    (h : read p xs = some (a, ys)) : ys <:+ xs := Readable.suffix h

theorem length_le_of_read {p : Parser α} [Readable p] {xs ys : List Lexeme} {a : α}
    (h : read p xs = some (a, ys)) : ys.length ≤ xs.length := (suffix_of_read h).length_le

instance (a : α) : Readable (pure a) where
  read xs := some (a, xs)
  suffix h := by cases h; exact List.suffix_rfl
  readsAs := readsAs_pure a

instance : Readable (stop : Parser α) where
  read _ := none
  suffix := nofun
  readsAs := readsAs_stop

instance (expected : String) : Readable (fail expected : Parser α) where
  read _ := none
  suffix := nofun
  readsAs := readsAs_fail expected

instance readableBind (p : Parser α) (k : α → Parser β) [Readable p] [∀ a, Readable (k a)] :
    Readable (p >>= k) where
  read xs := (read p xs).bind fun x => read (k x.1) x.2
  suffix h := by
    obtain ⟨x, hx, hy⟩ := Option.bind_eq_some_iff.1 h
    exact (suffix_of_read hy).trans (suffix_of_read hx)
  readsAs := (readsAs p).bind (t := fun a => read (k a)) fun a => readsAs (k a)

instance readableAttempt (p : Parser α) [Readable p] : Readable (attempt p) where
  read := read p
  suffix := suffix_of_read
  readsAs := (readsAs p).attempt

instance (p q : Parser α) [Readable p] [Readable q] : Readable (orElse p q) where
  read xs := (read p xs).or (read q xs)
  suffix h := by
    rcases Option.or_eq_some_iff.1 h with h | ⟨-, h⟩
    · exact suffix_of_read h
    · exact suffix_of_read h
  readsAs := (readsAs p).orElse (readsAs q)

instance (p : Parser α) [Readable p] : Readable (optional p) where
  read xs := some ((read p xs).map Prod.fst, ((read p xs).map Prod.snd).getD xs)
  suffix {xs a ys} h := by
    cases hp : read p xs with
    | none =>
      simp only [hp] at h
      cases h
      exact List.suffix_rfl
    | some x =>
      simp only [hp] at h
      cases h
      exact suffix_of_read hp
  readsAs := by simpa using (readsAs p).optional

instance (p : Parser α) [Readable p] : Readable (many p) where
  read xs := some (readMany (read p) xs)
  suffix {xs as ys} h := by
    have hchain : Chain (read p) xs as ys := by
      have hall := chain_readMany (read p) xs
      rwa [Option.some_inj.1 h] at hall
    -- each link of the chain leaves a suffix
    clear h
    induction hchain with
    | nil => exact List.suffix_rfl
    | cons head _ ih => exact ih.trans (suffix_of_read head)
  readsAs := by simpa using (readsAs p).many

instance readableIte (c : Prop) [Decidable c] (p q : Parser α) [Readable p] [Readable q] :
    Readable (if c then p else q) where
  read xs := if c then read p xs else read q xs
  suffix h := by
    split at h
    · exact suffix_of_read h
    · exact suffix_of_read h
  readsAs := by
    split
    · exact readsAs p
    · exact readsAs q

instance : Readable advance where
  read xs := some ((), xs.tail)
  suffix h := by cases h; exact List.tail_suffix _
  readsAs := by
    intro ts i f _ hi
    obtain ⟨j, hij, hj, hys, hrun⟩ := exists_advance hi f
    exact ⟨(), j, f, hrun, rfl, hij, hj, hys⟩

/-- A parser that looks at the kind and the text of the next token. -/
@[reducible] def readableOfPeek (k : Token → Parser α) [∀ t, Readable (k t)]
    (hk : ∀ t, k t = k t.lexeme.toToken) : Readable (peek >>= k) where
  read xs := read (k (next xs).toToken) xs
  suffix := suffix_of_read
  readsAs := by
    intro ts i f hts hi
    have hrun : (peek >>= k) ts ⟨i, f⟩ = k (next (written ts i)).toToken ts ⟨i, f⟩ := by
      rw [← lexeme_tokenAt hts hi, ← hk]
      rfl
    rw [hrun]
    exact readsAs (k (next (written ts i)).toToken) ts i f hts hi

section
variable (p : Parser α) [Readable p] (xs : List Lexeme)

@[simp] theorem read_pure (a : α) : read (pure a) xs = some (a, xs) := rfl

@[simp] theorem read_bind (k : α → Parser β) [∀ a, Readable (k a)] :
    read (p >>= k) xs = (read p xs).bind fun x => read (k x.1) x.2 := rfl

@[simp] theorem read_optional : read (optional p) xs =
    some ((read p xs).map Prod.fst, ((read p xs).map Prod.snd).getD xs) := rfl

@[simp] theorem read_many : read (many p) xs = some (readMany (read p) xs) := rfl

end

section
variable {p q : Parser α} [Readable p] [Readable q]

theorem Advances.bind {k : α → Parser β} [∀ a, Readable (k a)] (h : Advances (read p)) :
    Advances (read (p >>= k)) := by
  intro xs b ys hread
  obtain ⟨x, hx, hrest⟩ := Option.bind_eq_some_iff.1 hread
  exact Nat.lt_of_le_of_lt (length_le_of_read hrest) (h xs x.1 x.2 hx)

theorem Advances.attempt (h : Advances (read p)) : Advances (read (attempt p)) := h

theorem Advances.orElse (h : Advances (read p)) (h' : Advances (read q)) :
    Advances (read (orElse p q)) := by
  intro xs a ys hread
  rcases Option.or_eq_some_iff.1 hread with hread | ⟨-, hread⟩
  · exact h xs a ys hread
  · exact h' xs a ys hread

end

/-! ### Single tokens -/

/-- What `look` makes of the next lexeme. -/
def readNext (look : Lexeme → Option α) : Reading α := fun xs => (look (next xs)).map (·, xs.tail)

theorem suffix_of_readNext {look : Lexeme → Option α} {xs ys : List Lexeme} {a : α}
    (h : readNext look xs = some (a, ys)) : ys <:+ xs := by
  obtain ⟨b, -, hb⟩ := Option.map_eq_some_iff.1 h
  cases hb
  exact List.tail_suffix _

theorem readNext_eq_some_iff {look : Lexeme → Option α} (h : look .ending = none)
    {xs ys : List Lexeme} {a : α} :
    readNext look xs = some (a, ys) ↔ ∃ x, xs = x :: ys ∧ look x = some a := by
  cases xs with
  | nil => simp [readNext, h]
  | cons x xs =>
    simp only [readNext, Lexeme.next_cons, List.tail_cons, Option.map_eq_some_iff, Prod.mk.injEq]
    constructor
    · rintro ⟨b, hb, rfl, rfl⟩
      exact ⟨x, rfl, hb⟩
    · rintro ⟨y, hxs, hy⟩
      obtain ⟨rfl, rfl⟩ := List.cons.inj hxs
      exact ⟨a, hy, rfl, rfl⟩

/-- A parser that looks up the text of the next token, if that has a certain kind. -/
theorem readsAs_lookup {p : Parser α} (c : TokenKind → Prop) [DecidablePred c]
    (lookup : String → Option α) (expected : String)
    (hp : p = peek >>= fun t => if c t.kind then
        (match lookup t.literal with
        | some a => advance >>= fun _ => pure a
        | none => fail expected)
      else fail expected) :
    ReadsAs id p (readNext fun x => if c x.kind then lookup x.literal else none) := by
  intro ts i f hts hi
  have hrun : p ts ⟨i, f⟩ = (if c (tokenAt ts i).kind then
        (match lookup (tokenAt ts i).literal with
        | some a => advance >>= fun _ => pure a
        | none => fail expected)
      else fail expected : Parser α) ts ⟨i, f⟩ := by rw [hp]; rfl
  have hkind : (next (written ts i)).kind = (tokenAt ts i).kind := by
    rw [← lexeme_tokenAt hts hi]; rfl
  have hliteral : (next (written ts i)).literal = (tokenAt ts i).literal := by
    rw [← lexeme_tokenAt hts hi]; rfl
  rw [hrun, readNext, hkind, hliteral]
  by_cases hc : c (tokenAt ts i).kind
  · simp only [hc, if_true]
    cases lookup (tokenAt ts i).literal with
    | none => rfl
    | some a =>
      obtain ⟨j, hij, hj, hys, hadvance⟩ := exists_advance hi f
      refine ⟨a, j, f, ?_, rfl, hij, hj, hys⟩
      show (match advance ts ⟨i, f⟩ with
        | (some _, r) => (some a, r)
        | (none, r) => (none, r)) = _
      rw [hadvance]
  · simp only [hc, if_false]
    rfl

section
variable {k : TokenKind} {literal : String} {xs ys : List Lexeme} {x : Lexeme}

instance (k : TokenKind) : Readable (kind k) := readableOfPeek _ fun _ => rfl

instance (k : TokenKind) (literal : String) : Readable (exactly k literal) :=
  readableOfPeek _ fun _ => rfl

instance : Readable word := by delta word; infer_instance

instance (literal : String) : Readable (keyword literal) := by delta keyword; infer_instance

instance (literal : String) : Readable (symbol literal) := by delta symbol; infer_instance

instance (literal : String) : Readable (operator literal) := by delta operator; infer_instance

instance : Readable comma := by delta comma; infer_instance

instance : Readable semicolon := by delta semicolon; infer_instance

instance : Readable endOfInput := by delta endOfInput; infer_instance

theorem read_kind : read (kind k) xs =
    if (next xs).kind = k then some ((next xs).literal, xs.tail) else none := rfl

theorem read_exactly : read (exactly k literal) xs =
    if next xs = ⟨k, literal⟩ then some ((), xs.tail) else none := by
  have his : (next xs).toToken.is k literal = true ↔ next xs = ⟨k, literal⟩ := by
    cases next xs
    simp [Token.is, Lexeme.toToken]
  have hread : read (exactly k literal) xs =
      if (next xs).toToken.is k literal then some ((), xs.tail) else none := rfl
  rw [hread]
  simp only [his]

theorem read_word_eq_none (h : (next xs).kind ≠ .word) : read word xs = none := by
  have hread : read word xs = read (kind .word) xs := rfl
  rw [hread, read_kind, if_neg h]

theorem read_kind_eq_some_iff (hk : k ≠ .endOfInput) :
    read (kind k) xs = some (literal, ys) ↔ xs = ⟨k, literal⟩ :: ys := by
  rw [read_kind]
  cases xs with
  | nil => simp [Lexeme.ending, hk.symm]
  | cons x xs =>
    obtain ⟨k', literal'⟩ := x
    by_cases h : k' = k <;> simp [h]

theorem read_exactly_eq_some_iff (hk : k ≠ .endOfInput) {u : Unit} :
    read (exactly k literal) xs = some (u, ys) ↔ xs = ⟨k, literal⟩ :: ys := by
  rw [read_exactly]
  cases xs with
  | nil => simp [Lexeme.ending, hk.symm]
  | cons x xs =>
    by_cases h : x = ⟨k, literal⟩ <;> simp [h]

theorem read_word_eq_some_iff : read word xs = some (literal, ys) ↔ xs = ⟨.word, literal⟩ :: ys :=
  read_kind_eq_some_iff (by decide)

theorem read_keyword_eq_some_iff {u : Unit} :
    read (keyword literal) xs = some (u, ys) ↔ xs = ⟨.word, literal⟩ :: ys :=
  read_exactly_eq_some_iff (by decide)

theorem read_symbol_eq_some_iff {u : Unit} :
    read (symbol literal) xs = some (u, ys) ↔ xs = ⟨.symbol, literal⟩ :: ys :=
  read_exactly_eq_some_iff (by decide)

theorem read_operator_eq_some_iff {u : Unit} :
    read (operator literal) xs = some (u, ys) ↔ xs = ⟨.operator, literal⟩ :: ys :=
  read_exactly_eq_some_iff (by decide)

theorem read_kind_unit_eq_some_iff (hk : k ≠ .endOfInput) {u : Unit} :
    read (kind k >>= fun _ => pure ()) xs = some (u, ys) ↔ ∃ literal, xs = ⟨k, literal⟩ :: ys := by
  simp only [read_bind, read_pure, Option.bind_eq_some_iff, Option.some_inj, Prod.mk.injEq, true_and]
  constructor
  · rintro ⟨⟨literal, zs⟩, hread, rfl⟩
    exact ⟨literal, (read_kind_eq_some_iff hk).1 hread⟩
  · rintro ⟨literal, hxs⟩
    exact ⟨(literal, ys), (read_kind_eq_some_iff hk).2 hxs, rfl⟩

theorem read_comma_eq_some_iff {u : Unit} :
    read comma xs = some (u, ys) ↔ ∃ literal, xs = ⟨.comma, literal⟩ :: ys :=
  read_kind_unit_eq_some_iff (by decide)

theorem read_semicolon_eq_some_iff {u : Unit} :
    read semicolon xs = some (u, ys) ↔ ∃ literal, xs = ⟨.semicolon, literal⟩ :: ys :=
  read_kind_unit_eq_some_iff (by decide)

theorem advances_kind (hk : k ≠ .endOfInput) : Advances (read (kind k)) := by
  intro xs literal ys hread
  rw [(read_kind_eq_some_iff hk).1 hread]
  exact Nat.lt_succ_self _

theorem advances_exactly (hk : k ≠ .endOfInput) : Advances (read (exactly k literal)) := by
  intro xs u ys hread
  rw [(read_exactly_eq_some_iff hk).1 hread]
  exact Nat.lt_succ_self _

theorem advances_word : Advances (read word) := advances_kind (by decide)

theorem advances_keyword : Advances (read (keyword literal)) := advances_exactly (by decide)

theorem advances_symbol : Advances (read (symbol literal)) := advances_exactly (by decide)

theorem advances_comma : Advances (read comma) := (advances_kind (by decide)).bind

theorem read_word_cons : read word (⟨.word, literal⟩ :: xs) = some (literal, xs) :=
  read_word_eq_some_iff.2 rfl

theorem read_keyword_cons : read (keyword literal) (⟨.word, literal⟩ :: xs) = some ((), xs) :=
  read_keyword_eq_some_iff.2 rfl

theorem read_symbol_cons : read (symbol literal) (⟨.symbol, literal⟩ :: xs) = some ((), xs) :=
  read_symbol_eq_some_iff.2 rfl

theorem read_operator_cons : read (operator literal) (⟨.operator, literal⟩ :: xs) = some ((), xs) :=
  read_operator_eq_some_iff.2 rfl

theorem read_comma_cons : read comma (⟨.comma, literal⟩ :: xs) = some ((), xs) :=
  read_comma_eq_some_iff.2 ⟨literal, rfl⟩

theorem read_semicolon_cons : read semicolon (⟨.semicolon, literal⟩ :: xs) = some ((), xs) :=
  read_semicolon_eq_some_iff.2 ⟨literal, rfl⟩

end

/-! ### Brackets and lists -/

section
variable (p : Parser α) [Readable p] {xs ys : List Lexeme}

instance (left right : String) : Readable (between left right p) := by
  delta between; infer_instance

instance : Readable (separated p) := by
  delta separated; infer_instance

instance : Readable (separatedOrNone p) := by
  delta separatedOrNone; infer_instance

theorem read_between_eq_some_iff {left right : String} {a : α} :
    read (between left right p) xs = some (a, ys) ↔
      ∃ zs, xs = ⟨.symbol, left⟩ :: zs ∧ read p zs = some (a, ⟨.symbol, right⟩ :: ys) := by
  have hread : read (between left right p) xs = (read (symbol left) xs).bind fun x =>
      (read p x.2).bind fun y => (read (symbol right) y.2).bind fun z => some (y.1, z.2) := rfl
  simp only [hread, Option.bind_eq_some_iff, Option.some_inj, Prod.exists, Prod.mk.injEq,
    read_symbol_eq_some_iff]
  constructor
  · rintro ⟨-, zs, hxs, a, ws, hp, -, ys, hws, rfl, rfl⟩
    exact ⟨zs, hxs, hws ▸ hp⟩
  · rintro ⟨zs, hxs, hp⟩
    exact ⟨(), zs, hxs, a, _, hp, (), ys, rfl, rfl, rfl⟩

variable {p} in
theorem read_between_eq_none {left right : String} (h : next xs ≠ ⟨.symbol, left⟩) :
    read (between left right p) xs = none := by
  refine Option.eq_none_iff_forall_ne_some.2 fun x hx => ?_
  obtain ⟨zs, rfl, -⟩ := (read_between_eq_some_iff p).1 hx
  exact h rfl

theorem advances_between {left right : String} : Advances (read (between left right p)) :=
  advances_symbol.bind.attempt

/-- What comes after the first of a list: a comma and one more. -/
def readItem (p : Parser α) [Readable p] : Reading α := read (comma >>= fun _ => p)

theorem read_separated : read (separated p) xs = (read p xs).map fun x =>
    (x.1 :: (readMany (readItem p) x.2).1, (readMany (readItem p) x.2).2) := by
  cases h : read p xs with
  | none =>
    have hread : read (separated p) xs = (read p xs).bind _ := rfl
    rw [hread, h]
    rfl
  | some x =>
    have hread : read (separated p) xs = (read p xs).bind _ := rfl
    rw [hread, h]
    rfl

theorem ReadsAs.separated {g : β → α} {q : Parser β} (hq : ReadsAs g q (read p)) :
    ReadsAs (List.map g) (separated q) (read (separated p)) := by
  have hitem : ReadsAs g (comma >>= fun _ => q) (readItem p) :=
    (readsAs comma).bind (t := fun _ => read p) fun _ => hq
  exact (hq.bind (t := fun b => Reading.bind (fun xs => some (readMany (readItem p) xs))
    fun bs xs => some (b :: bs, xs)) fun a => hitem.many.bind fun as => readsAs_pure (a :: as)).attempt

theorem read_separatedOrNone : read (separatedOrNone p) xs =
    some (((read (separated p) xs).map Prod.fst).getD [],
      ((read (separated p) xs).map Prod.snd).getD xs) := rfl

variable {p} in
/-- A list of one item is that item. -/
theorem read_of_read_separatedOrNone {a : α} (h : read (separatedOrNone p) xs = some ([a], ys)) :
    read p xs = some (a, ys) := by
  rw [read_separatedOrNone, read_separated] at h
  cases hp : read p xs with
  | none => simp [hp] at h
  | some x =>
    simp only [hp, Option.map_some, Option.getD_some, Option.some_inj, Prod.mk.injEq, List.cons.injEq] at h
    obtain ⟨⟨rfl, hnil⟩, rfl⟩ := h
    have hchain := chain_readMany (readItem p) x.2
    rw [hnil] at hchain
    generalize (readMany (readItem p) x.2).2 = zs at hchain ⊢
    cases hchain
    rfl

theorem readItem_eq_some_iff {a : α} : readItem p xs = some (a, ys) ↔
    ∃ literal zs, xs = ⟨.comma, literal⟩ :: zs ∧ read p zs = some (a, ys) := by
  have hread : readItem p xs = (read comma xs).bind fun x => read p x.2 := rfl
  simp only [hread, Option.bind_eq_some_iff, Prod.exists, read_comma_eq_some_iff]
  constructor
  · rintro ⟨-, zs, ⟨literal, hxs⟩, hp⟩
    exact ⟨literal, zs, hxs, hp⟩
  · rintro ⟨literal, zs, hxs, hp⟩
    exact ⟨(), zs, ⟨literal, hxs⟩, hp⟩

variable {p} in
theorem readItem_eq_none (h : (next xs).kind ≠ .comma) : readItem p xs = none := by
  refine Option.eq_none_iff_forall_ne_some.2 fun x hx => ?_
  obtain ⟨_, zs, rfl, -⟩ := (readItem_eq_some_iff p).1 hx
  exact h rfl

theorem advances_readItem : Advances (readItem p) := advances_comma.bind

end

end Parser
end BoardGame
