import BoardGame.Token.Scan

/-!
# Layout and places

What stands before a token is layout: blanks, and comments that reach to the end of their line
(`skips_skipLayout`). The position of a character is counted from the text before it
(`Position.advance_after`).
-/

namespace BoardGame

/-! ### Places -/

/-- The position behind the text `before`: its bytes, its line feeds, and the code points behind the
last of them. -/
def Position.after (before : List Char) : Position where
  offset := byteLength before
  line := 1 + before.count '\n'
  column := 1 + (before.reverse.takeWhile (· ≠ '\n')).length

theorem Position.next_after (before : List Char) (c : Char) :
    (after before).next c = after (before ++ [c]) := by
  by_cases hc : c = '\n'
  · subst hc
    simp [next, after, List.count_append, Nat.add_assoc]
  · simp [next, after, hc, List.count_append, List.count_eq_zero_of_not_mem, Ne.symm hc, Nat.add_assoc,
      Nat.add_comm 1]

theorem Position.advance_after (before cs : List Char) : (after before).advance cs = after (before ++ cs) := by
  induction cs generalizing before with
  | nil => rw [advance_nil, List.append_nil]
  | cons c cs ih => rw [advance_cons, next_after, ih, List.append_assoc, List.singleton_append]

theorem byteLength_toList (s : String) : byteLength s.toList = s.utf8ByteSize := by
  suffices h : ∀ cs : List Char, byteLength cs = (String.ofList cs).utf8ByteSize by
    rw [h, String.ofList_toList]
  intro cs
  induction cs with
  | nil => rfl
  | cons c cs ih => rw [byteLength_cons, ih, String.ofList_cons, String.utf8ByteSize_append,
      String.utf8ByteSize_singleton]

/-! ### Layout -/

/-- The text consists of blanks and of comments; a comment ends where a line ends, or with the whole
text. What comes after the layout is `after`. -/
inductive IsLayout (after : List Char) : List Char → Prop
  | nil : IsLayout after []
  | blank {c : Char} {cs : List Char} (hc : isBlank c = true) (rest : IsLayout after cs) :
    IsLayout after (c :: cs)
  | comment {body cs : List Char} (hbody : '\n' ∉ body) (hend : ∀ c ∈ (cs ++ after).head?, c = '\n')
    (rest : IsLayout after cs) : IsLayout after ('#' :: (body ++ cs))

/-- Nothing that layout begins with. -/
def Visible (cs : List Char) : Prop := ∀ c ∈ cs.head?, isBlank c = false ∧ c ≠ '#'

/-- The layout `gap` at the head of the text at `p` leads to `rest` at `q`. -/
structure Skips (p : Position) (gap : List Char) (q : Position) (rest : List Char) : Prop where
  layout : IsLayout rest gap
  place : q = p.advance gap
  visible : Visible rest

/-- One character of the layout more. -/
theorem Skips.blank {p q : Position} {c : Char} {gap rest : List Char} (h : Skips (p.next c) gap q rest)
    (hc : isBlank c = true) : Skips p (c :: gap) q rest :=
  ⟨.blank hc h.layout, h.place.trans (Position.advance_cons p c gap).symm, h.visible⟩

/-- In an open comment, the layout goes on behind the line. -/
theorem skips_skipLayout_both (cs : List Char) :
    (∀ p q rest, skipLayout false p cs = (q, rest) → ∃ gap, cs = gap ++ rest ∧ Skips p gap q rest) ∧
    ∀ p q rest, skipLayout true p cs = (q, rest) → ∃ body gap, cs = body ++ (gap ++ rest) ∧
      '\n' ∉ body ∧ (∀ c ∈ (gap ++ rest).head?, c = '\n') ∧ Skips (p.advance body) gap q rest := by
  induction cs with
  | nil =>
    refine ⟨fun p q rest h => ?_, fun p q rest h => ?_⟩
    · cases h
      exact ⟨[], rfl, .nil, rfl, nofun⟩
    · cases h
      exact ⟨[], [], rfl, List.not_mem_nil, nofun, .nil, rfl, nofun⟩
  | cons c cs ih =>
    obtain ⟨ihPlain, ihComment⟩ := ih
    refine ⟨fun p q rest h => ?_, fun p q rest h => ?_⟩
    · rw [skipLayout] at h
      by_cases hblank : isBlank c
      · rw [if_pos hblank] at h
        obtain ⟨gap, rfl, hgap⟩ := ihPlain _ _ _ h
        exact ⟨c :: gap, rfl, hgap.blank hblank⟩
      rw [if_neg hblank] at h
      by_cases hcomment : c = '#'
      · rw [if_pos hcomment] at h
        obtain ⟨body, gap, rfl, hbody, hend, hgap⟩ := ihComment _ _ _ h
        subst hcomment
        refine ⟨'#' :: (body ++ gap), by simp, .comment hbody hend hgap.layout, ?_, hgap.visible⟩
        rw [hgap.place, Position.advance_cons, Position.advance_append]
      · rw [if_neg hcomment] at h
        cases h
        refine ⟨[], rfl, .nil, rfl, ?_⟩
        rintro d ⟨⟩
        exact ⟨Bool.eq_false_iff.2 hblank, hcomment⟩
    · rw [skipLayout] at h
      by_cases hnewline : c = '\n'
      · subst hnewline
        obtain ⟨gap, rfl, hgap⟩ := ihPlain _ _ _ h
        refine ⟨[], '\n' :: gap, rfl, List.not_mem_nil, ?_, hgap.blank isBlank_newline⟩
        rintro d ⟨⟩
        rfl
      · rw [decide_eq_true hnewline] at h
        obtain ⟨body, gap, rfl, hbody, hend, hgap⟩ := ihComment _ _ _ h
        exact ⟨c :: body, gap, rfl, List.not_mem_cons_of_ne_of_not_mem (Ne.symm hnewline) hbody, hend, hgap⟩

theorem skips_skipLayout {p q : Position} {cs rest : List Char} (h : skipLayout false p cs = (q, rest)) :
    ∃ gap, cs = gap ++ rest ∧ Skips p gap q rest := (skips_skipLayout_both cs).1 p q rest h

end BoardGame
