import Mathlib.Data.List.Induction
import BoardGame.Diagnostic
import BoardGame.Proofs.Token.Splitting

/-!
# Excerpts show the right lines

An excerpt is cut from the lines of a text (`Lines`): it begins with the line of the first byte of its
span and is the shortest row of lines from there on that takes in the last one (`Touches`). Its number
counts the line feeds before the span, as the scanner does for the positions of tokens and errors
(`excerpt?_touches`).
-/

namespace BoardGame
variable {text : List Char} {ls before run after : List (List Char)} {l : List Char} {s e : Nat}

/-! ### Lines -/

/-- The lines of a text: each ends with its only line feed, and the last one perhaps with the text. -/
inductive Lines : List Char → List (List Char) → Prop
  | nil : Lines [] []
  | last {body : List Char} (hbody : '\n' ∉ body) (hne : body ≠ []) : Lines body [body]
  | cons {body text : List Char} {ls : List (List Char)} (hbody : '\n' ∉ body) (rest : Lines text ls) :
    Lines (body ++ '\n' :: text) ((body ++ ['\n']) :: ls)

theorem lines_splitLines (text : List Char) : Lines text (splitLines text) := by
  fun_induction splitLines text with
  | case1 => exact .nil
  | case2 cs ih => exact @Lines.cons [] _ _ List.not_mem_nil ih
  | case3 c cs hc hnil ih =>
    rw [hnil] at ih
    cases ih with
    | nil => exact .last (List.not_mem_cons_of_ne_of_not_mem (Ne.symm hc) List.not_mem_nil) (List.cons_ne_nil _ _)
  | case4 c cs hc l ls hcons ih =>
    rw [hcons] at ih
    cases ih with
    | last hbody hne => exact .last (List.not_mem_cons_of_ne_of_not_mem (Ne.symm hc) hbody) (List.cons_ne_nil _ _)
    | @cons body _ _ hbody rest =>
      exact @Lines.cons (c :: body) _ _ (List.not_mem_cons_of_ne_of_not_mem (Ne.symm hc) hbody) rest

theorem Lines.flatten_eq (h : Lines text ls) : ls.flatten = text := by
  induction h with
  | nil => rfl
  | last => simp
  | cons _ _ ih => simp [ih]

/-- A line that is not the last one ends with a line feed. -/
theorem Lines.of_cons (h : Lines text (l :: ls)) (hls : ls ≠ []) :
    ∃ body text', '\n' ∉ body ∧ l = body ++ ['\n'] ∧ Lines text' ls := by
  cases h with
  | last => exact absurd rfl hls
  | cons hbody rest => exact ⟨_, _, hbody, rfl, rest⟩

theorem Lines.count_flatten (h : Lines text (before ++ l :: after)) :
    before.flatten.count '\n' = before.length := by
  induction before generalizing text with
  | nil => rfl
  | cons k before ih =>
    obtain ⟨body, text', hbody, rfl, rest⟩ := h.of_cons (by simp)
    rw [List.flatten_cons, List.count_append, ih rest, List.count_append, List.count_eq_zero_of_not_mem hbody,
      List.length_cons, List.count_singleton_self, Nat.zero_add, Nat.add_comm]

theorem Lines.exists_body (h : Lines text (before ++ l :: after)) :
    ∃ body, '\n' ∉ body ∧ (l = body ∨ l = body ++ ['\n']) := by
  induction before generalizing text with
  | nil =>
    cases h with
    | last hbody _ => exact ⟨l, hbody, .inl rfl⟩
    | cons hbody _ => exact ⟨_, hbody, .inr rfl⟩
  | cons k before ih =>
    obtain ⟨body, text', -, -, rest⟩ := h.of_cons (by simp)
    exact ih rest

/-! ### Characters in front of a byte -/

/-- The line feeds in front of the byte `s`. -/
def newlinesBefore (s : Nat) (text : List Char) : Nat := (text.take (charsWithin s text)).count '\n'

theorem charsWithin_cons {s : Nat} (hs : 0 < s) (c : Char) (cs : List Char) :
    charsWithin s (c :: cs) = 1 + charsWithin (s - c.utf8Size) cs := by
  obtain ⟨s, rfl⟩ := Nat.exists_eq_succ_of_ne_zero (Nat.ne_of_gt hs)
  rfl

theorem charsWithin_append (pre rest : List Char) (s : Nat) :
    charsWithin (byteLength pre + s) (pre ++ rest) = pre.length + charsWithin s rest := by
  induction pre with
  | nil => simp
  | cons c pre ih =>
    have hc := c.utf8Size_pos
    have hrest : byteLength (c :: pre) + s - c.utf8Size = byteLength pre + s := by
      rw [byteLength_cons]
      omega
    rw [List.cons_append, charsWithin_cons (by rw [byteLength_cons]; omega), hrest, ih, List.length_cons]
    omega

theorem newlinesBefore_append (pre rest : List Char) (s : Nat) :
    newlinesBefore (byteLength pre + s) (pre ++ rest) = pre.count '\n' + newlinesBefore s rest := by
  rw [newlinesBefore, charsWithin_append, List.take_length_add_append, List.count_append, newlinesBefore]

theorem charsWithin_le (pre rest : List Char) (h : s ≤ byteLength pre) :
    charsWithin s (pre ++ rest) ≤ pre.length := by
  induction pre generalizing s with
  | nil =>
    obtain rfl : s = 0 := Nat.le_zero.1 h
    simp [charsWithin]
  | cons c pre ih =>
    rcases Nat.eq_zero_or_pos s with rfl | hpos
    · simp [charsWithin]
    · rw [byteLength_cons] at h
      rw [List.cons_append, charsWithin_cons hpos, List.length_cons, Nat.add_comm]
      exact Nat.succ_le_succ (ih (by omega))

/-- Up to its line feed a line has none. -/
theorem newlinesBefore_body {body rest : List Char} (hbody : '\n' ∉ body) (h : s ≤ byteLength body) :
    newlinesBefore s (body ++ rest) = 0 := by
  rw [newlinesBefore, List.take_append_of_le_length (charsWithin_le body rest h)]
  exact List.count_eq_zero_of_not_mem fun hmem => hbody (List.mem_of_mem_take hmem)

theorem Lines.newlinesBefore_eq (h : Lines text (before ++ l :: after)) (hs : byteLength before.flatten ≤ s)
    (hl : s < byteLength before.flatten + byteLength l) : newlinesBefore s text = before.length := by
  obtain ⟨s, rfl⟩ := Nat.exists_eq_add_of_le hs
  have hlt : s < byteLength l := Nat.lt_of_add_lt_add_left hl
  rw [← h.flatten_eq, List.flatten_append, newlinesBefore_append, h.count_flatten, List.flatten_cons]
  obtain ⟨body, hbody, rfl | rfl⟩ := h.exists_body
  · rw [newlinesBefore_body hbody (Nat.le_of_lt hlt), Nat.add_zero]
  · have hle : s ≤ byteLength body := by
      have hfeed : byteLength ['\n'] = 1 := rfl
      rw [byteLength_append, hfeed] at hlt
      omega
    rw [List.append_assoc, newlinesBefore_body hbody hle, Nat.add_zero]

theorem newlinesBefore_byteLength (pre rest : List Char) :
    newlinesBefore (byteLength pre) (pre ++ rest) = pre.count '\n' := by
  have h := newlinesBefore_append pre rest 0
  rw [Nat.add_zero] at h
  rw [h, newlinesBefore, charsWithin, List.take_zero, List.count_nil, Nat.add_zero]

/-! ### The two passes over the lines -/

theorem exists_lineAt? {offset start : Nat} (number : Nat) (hstart : start ≤ offset)
    (h : offset < start + byteLength ls.flatten) : ∃ before l after, ls = before ++ l :: after ∧
      lineAt? offset number start ls =
        some ⟨number + before.length, start + byteLength before.flatten, l, after⟩ ∧
      start + byteLength before.flatten ≤ offset ∧
      offset < start + byteLength before.flatten + byteLength l := by
  induction ls generalizing number start with
  | nil =>
    rw [List.flatten_nil, byteLength_nil] at h
    omega
  | cons l ls ih =>
    rw [lineAt?]
    by_cases hl : offset < start + byteLength l
    · rw [if_pos hl]
      exact ⟨[], l, ls, rfl, rfl, hstart, hl⟩
    · rw [if_neg hl]
      rw [List.flatten_cons, byteLength_append] at h
      have hbelow : offset < start + byteLength l + byteLength ls.flatten := by omega
      obtain ⟨before, k, after, rfl, hline, hle, hlt⟩ := ih (number + 1) (Nat.le_of_not_lt hl) hbelow
      refine ⟨l :: before, k, after, rfl, ?_, ?_, ?_⟩
      · rw [hline, List.length_cons, List.flatten_cons, byteLength_append]
        simp only [Nat.add_assoc, Nat.add_comm 1]
      · rw [List.flatten_cons, byteLength_append]
        omega
      · rw [List.flatten_cons, byteLength_append]
        omega

theorem exists_extendTo {stop start : Nat} (text : List Char) (h : stop ≤ start + byteLength ls.flatten) :
    ∃ taken after, ls = taken ++ after ∧ extendTo stop start text ls = text ++ taken.flatten ∧
      stop ≤ start + byteLength taken.flatten ∧
      ∀ n < taken.length, start + byteLength (taken.take n).flatten < stop := by
  induction ls generalizing start text with
  | nil => exact ⟨[], [], rfl, (List.append_nil text).symm, h, nofun⟩
  | cons l ls ih =>
    rw [extendTo]
    by_cases hstop : stop ≤ start
    · rw [if_pos hstop]
      exact ⟨[], l :: ls, rfl, (List.append_nil text).symm, hstop, nofun⟩
    · rw [if_neg hstop]
      rw [List.flatten_cons, byteLength_append] at h
      have hbelow : stop ≤ start + byteLength l + byteLength ls.flatten := by omega
      obtain ⟨taken, after, rfl, htext, hreach, hshort⟩ := ih (text ++ l) hbelow
      refine ⟨l :: taken, after, rfl, ?_, ?_, fun n hn => ?_⟩
      · rw [htext, List.flatten_cons, List.append_assoc]
      · rw [List.flatten_cons, byteLength_append]
        omega
      · cases n with
        | zero => exact Nat.lt_of_not_le hstop
        | succ n =>
          have hn := hshort n (Nat.lt_of_succ_lt_succ hn)
          rw [List.take_succ_cons, List.flatten_cons, byteLength_append]
          omega

/-! ### Line feeds at the end -/

theorem dropNewlines_concat (cs : List Char) (c : Char) :
    dropNewlines (cs ++ [c]) = if c = '\n' then dropNewlines cs else cs ++ [c] := by
  rw [dropNewlines, List.reverse_concat, List.dropWhile_cons]
  by_cases hc : c = '\n' <;> simp [hc, dropNewlines]

theorem exists_dropNewlines (text : List Char) :
    (∃ k, text = dropNewlines text ++ List.replicate k '\n') ∧ (dropNewlines text).getLast? ≠ some '\n' := by
  induction text using List.reverseRecOn with
  | nil => exact ⟨⟨0, rfl⟩, nofun⟩
  | append_singleton cs c ih =>
    rw [dropNewlines_concat]
    by_cases hc : c = '\n'
    · rw [if_pos hc]
      obtain ⟨⟨k, hk⟩, hlast⟩ := ih
      refine ⟨⟨k + 1, ?_⟩, hlast⟩
      rw [List.replicate_succ', ← List.append_assoc, ← hk, hc]
    · rw [if_neg hc]
      exact ⟨⟨0, (List.append_nil _).symm⟩, by simpa using hc⟩

/-- Of a text that begins with a line, no character of the line before its line feed is dropped. -/
theorem byteLength_le_dropNewlines {body rest : List Char} (hbody : '\n' ∉ body) :
    byteLength body ≤ byteLength (dropNewlines (body ++ rest)) := by
  obtain ⟨k, hk⟩ := (exists_dropNewlines (body ++ rest)).1
  rcases List.append_eq_append_iff.1 hk with ⟨more, hdrop, -⟩ | ⟨feeds, hsplit, hfeeds⟩
  · rw [hdrop, byteLength_append]
    exact Nat.le_add_right _ _
  · -- what is missing of the line would be line feeds
    have hnil : feeds = [] := by
      refine List.eq_nil_iff_forall_not_mem.2 fun c hc => hbody ?_
      have hfeed : c ∈ List.replicate k '\n' := hfeeds ▸ List.mem_append_left rest hc
      rw [hsplit, ← List.eq_of_mem_replicate hfeed]
      exact List.mem_append_right _ hc
    rw [hnil, List.append_nil] at hsplit
    exact Nat.le_of_eq (congrArg byteLength hsplit)

/-! ### Excerpts -/

/-- Of the lines of the text, `before` stand above that of the byte `s`, and `run` are the fewest from there on
that take in the byte before `e`. -/
structure Touches (text : List Char) (s e : Nat) (before run : List (List Char)) : Prop where
  lines : ∃ after, Lines text (before ++ (run ++ after))
  above : byteLength before.flatten ≤ s
  first : ∃ l ∈ run.head?, s < byteLength (before ++ [l]).flatten
  reaches : e ≤ byteLength (before ++ run).flatten
  fewest : ∀ n < run.length, byteLength (before ++ run.take n).flatten < e

/-- The excerpt shows these lines, without the line feeds at their end. -/
structure Excerpt.ShowsLines (x : Excerpt) (s e : Nat) (before run : List (List Char)) : Prop where
  text : ∃ k, run.flatten = x.text.toList ++ List.replicate k '\n'
  trimmed : x.text.toList.getLast? ≠ some '\n'
  first : x.first = s - byteLength before.flatten
  last : x.last = e - byteLength before.flatten
  marked : x.marked.1 ≤ x.marked.2 ∧ x.marked.2 ≤ byteLength x.text.toList

/-- A position that the scanner gives, of a token or of an error. -/
def ScanPosition (source : String) (p : Position) : Prop :=
  (∃ ts t, scan source = .ok ts ∧ t ∈ ts ∧ t.position = p) ∨ ∃ e, scan source = .error e ∧ e.position = p

theorem ScanPosition.exists_after {source : String} {p : Position} (h : ScanPosition source p) :
    ∃ before rest, source.toList = before ++ rest ∧ p = .after before := by
  have htokenizes := scan_tokenizes source
  rcases h with ⟨ts, t, hts, ht, rfl⟩ | ⟨e, he, rfl⟩
  · rw [hts] at htokenizes
    obtain ⟨us, rfl, -, -, htokens⟩ := htokenizes
    rcases List.mem_append.1 ht with ht | ht
    · obtain ⟨before, rest, htext, hstands⟩ := htokens.stands t ht
      exact ⟨before, _, htext, hstands.place⟩
    · obtain rfl := List.mem_singleton.1 ht
      exact ⟨source.toList, [], (List.append_nil _).symm, rfl⟩
  · rw [he] at htokenizes
    obtain ⟨-, before, rest, htext, -, hdescribes⟩ := htokenizes
    refine ⟨before, rest, htext, ?_⟩
    cases e with
    | unexpectedChar c p => exact hdescribes.1
    | integerOverflow s p => exact hdescribes.1

/-- The two passes over the lines find those that a span touches. -/
theorem exists_touches (hs : s < byteLength text) (hse : s < e) (he : e ≤ byteLength text) :
    ∃ before l taken after,
      lineAt? s 1 0 (splitLines text) = some ⟨1 + before.length, byteLength before.flatten, l, after⟩ ∧
      extendTo e (byteLength before.flatten + byteLength l) l after = (l :: taken).flatten ∧
      Touches text s e before (l :: taken) := by
  have hlines := lines_splitLines text
  have hsize := congrArg byteLength hlines.flatten_eq
  have hbelow : s < 0 + byteLength (splitLines text).flatten := by omega
  obtain ⟨before, l, later, hsplit, hline, hle, hlt⟩ := exists_lineAt? 1 (Nat.zero_le s) hbelow
  rw [Nat.zero_add] at hline hle hlt
  rw [hsplit, List.flatten_append, List.flatten_cons, byteLength_append, byteLength_append] at hsize
  have hbelow : e ≤ byteLength before.flatten + byteLength l + byteLength later.flatten := by omega
  obtain ⟨taken, after, rfl, hextend, hreach, hfewest⟩ := exists_extendTo l hbelow
  refine ⟨before, l, taken, _, hline, hextend, ⟨after, hsplit ▸ hlines⟩, hle, ⟨l, rfl, ?_⟩, ?_, fun n hn => ?_⟩
  · simpa using hlt
  · simpa [Nat.add_assoc] using hreach
  · cases n with
    | zero => simpa using Nat.lt_of_le_of_lt hle hse
    | succ n => simpa [Nat.add_assoc] using hfewest n (Nat.lt_of_succ_lt_succ hn)

/-- In its first line a span begins in front of the line feed, or at it. -/
theorem Touches.le_dropNewlines (h : Touches text s e before run) :
    s - byteLength before.flatten ≤ byteLength (dropNewlines run.flatten) := by
  obtain ⟨l, hhead, hlt⟩ := h.first
  obtain ⟨taken, rfl⟩ : ∃ taken, run = l :: taken := List.head?_eq_some_iff.1 hhead
  obtain ⟨after, hlines⟩ := h.lines
  have habove := h.above
  rw [List.flatten_append, byteLength_append, List.flatten_singleton] at hlt
  obtain ⟨body, hbody, rfl | rfl⟩ := hlines.exists_body
  · have hle : byteLength l ≤ byteLength (dropNewlines (l ++ taken.flatten)) := byteLength_le_dropNewlines hbody
    rw [List.flatten_cons]
    omega
  · have hle : byteLength body ≤ byteLength (dropNewlines (body ++ ('\n' :: taken.flatten))) :=
      byteLength_le_dropNewlines hbody
    have hfeed : byteLength ['\n'] = 1 := rfl
    rw [byteLength_append, hfeed] at hlt
    rw [List.flatten_cons, List.append_assoc, List.singleton_append]
    omega

theorem exists_excerpt? {source : String} (hne : source ≠ "") (start stop : Nat) :
    let s := min start (byteLength source.toList - 1)
    let e := max (s + 1) (min stop (byteLength source.toList))
    ∃ x before run, excerpt? source start stop = some x ∧ Touches source.toList s e before run ∧
      x.ShowsLines s e before run ∧ x.line = 1 + newlinesBefore s source.toList := by
  intro s e
  have hpos : 0 < byteLength source.toList := by
    refine byteLength_pos fun hnil => hne ?_
    rw [← String.ofList_toList (s := source), hnil]
  have hs : s < byteLength source.toList := by omega
  have hse : s < e := by omega
  have he : e ≤ byteLength source.toList := by omega
  obtain ⟨before, l, taken, after, hline, hextend, htouches⟩ := exists_touches hs hse he
  obtain ⟨x, hx⟩ : ∃ x : Excerpt, x = ⟨String.ofList (dropNewlines (l :: taken).flatten), 1 + before.length,
    s - byteLength before.flatten, min e (byteLength before.flatten + byteLength (l :: taken).flatten) -
      byteLength before.flatten⟩ := ⟨_, rfl⟩
  refine ⟨x, before, l :: taken, ?_, htouches, ?_, ?_⟩
  · have hexcerpt : excerpt? source start stop = (lineAt? s 1 0 (splitLines source.toList)).map _ := rfl
    rw [hexcerpt, hline, Option.map_some, hextend, hx]
  · have htext : x.text.toList = dropNewlines (l :: taken).flatten := by rw [hx, String.toList_ofList]
    have hdrop := exists_dropNewlines (l :: taken).flatten
    have hfirst := htouches.le_dropNewlines
    have hreach := htouches.reaches
    rw [List.flatten_append, byteLength_append] at hreach
    rw [← htext] at hdrop hfirst
    refine ⟨hdrop.1, hdrop.2, by rw [hx], by rw [hx, Nat.min_eq_left hreach], ?_⟩
    have hmarked : x.first ≤ byteLength x.text.toList := by rwa [hx] at hfirst ⊢
    rw [Excerpt.marked]
    exact ⟨Nat.le_max_left _ _, Nat.max_le.2 ⟨hmarked, Nat.min_le_right _ _⟩⟩
  · obtain ⟨rest, hlines⟩ := htouches.lines
    obtain ⟨k, hk, hlt⟩ := htouches.first
    obtain rfl : l = k := Option.some.inj hk
    rw [List.flatten_append, byteLength_append, List.flatten_singleton] at hlt
    rw [hx, hlines.newlinesBefore_eq htouches.above hlt]

/-- The excerpt for a span of a text that is not empty shows the lines that the span touches, from that of
its first byte to that of its last one, and the number is that of the first of them. Marked is a range of
what is shown. At a position that the scanner gives, in front of the end, the number is the line of the
position. -/
theorem excerpt?_touches {source : String} (hne : source ≠ "") :
    (∀ start stop,
      let s := min start (source.utf8ByteSize - 1)
      let e := max (s + 1) (min stop source.utf8ByteSize)
      ∃ x before run, excerpt? source start stop = some x ∧ Touches source.toList s e before run ∧
        x.ShowsLines s e before run ∧ x.line = 1 + newlinesBefore s source.toList) ∧
    ∀ p, ScanPosition source p → p.offset < source.utf8ByteSize → ∀ stop,
      ∃ x, excerpt? source p.offset stop = some x ∧ x.line = p.line := by
  simp only [← byteLength_toList]
  refine ⟨exists_excerpt? hne, fun p hp hlt stop => ?_⟩
  obtain ⟨x, before, run, hx, -, -, hline⟩ := exists_excerpt? hne p.offset stop
  refine ⟨x, hx, ?_⟩
  obtain ⟨pre, rest, htext, rfl⟩ := hp.exists_after
  have hoffset : (Position.after pre).offset = byteLength pre := rfl
  rw [hline, Nat.min_eq_left (by omega), hoffset, htext, newlinesBefore_byteLength]
  rfl

/-- A comment with a character of two bytes, an error in the next line, and empty lines. -/
theorem excerpt?_touches_comment :
    let source := "x; # é\n$\n\n"
    source ≠ "" ∧ excerpt? source 5 20 = some ⟨"x; # é\n$", 1, 5, 11⟩ ∧
      (∃ x before run, excerpt? source 5 20 = some x ∧ Touches source.toList 5 11 before run ∧
        x.ShowsLines 5 11 before run ∧ x.line = 1 + newlinesBefore 5 source.toList) ∧
      ScanPosition source ⟨8, 2, 1⟩ ∧ ∃ x, excerpt? source 8 9 = some x ∧ x.line = 2 := by
  intro source
  have hne : source ≠ "" := by decide
  have hscan : scan source = .error (.unexpectedChar '$' ⟨8, 2, 1⟩) := by decide +kernel
  have hposition : ScanPosition source ⟨8, 2, 1⟩ := .inr ⟨_, hscan, rfl⟩
  obtain ⟨hspans, hpositions⟩ := excerpt?_touches hne
  exact ⟨hne, by decide +kernel, hspans 5 20, hposition, hpositions ⟨8, 2, 1⟩ hposition (by decide) 9⟩

end BoardGame
