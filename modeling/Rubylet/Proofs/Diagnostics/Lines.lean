import Mathlib.Data.List.TakeWhile
import Rubylet.Diagnostic
import Rubylet.Proofs.Token.Positions

/-!
# Lines of the lexer and lines of a display

A position is counted in the lines of the lexer, which only line feeds end. A diagnostic quotes the
lines of a display (`Text.breakLines`), which other characters end, too. So a display never has
fewer lines, and wherever a character stands by the count of the lexer, there is a line to quote
(`Lexer.CharAt.lt_length`). But it need not be the line on which the character stands.

`Text.feedLines` are the lines of the lexer. Up to the first line that holds one of those other
characters, they are the lines of the display (`getElem?_breakLines`).
-/

namespace Rubylet

namespace Text

/-! ### Lines of a display -/

theorem breakLines_eq_nil_iff {cs : List Char} : breakLines cs = [] ↔ cs = [] := by
  refine ⟨fun h => ?_, fun h => by rw [h, breakLines_nil]⟩
  unfold breakLines at h
  split at h
  · rfl
  · cases h
  · split at h
    · cases h
    · split at h <;> cases h

theorem count_dropLast_cons (c : Char) {cs : List Char} (h : cs ≠ []) :
    (c :: cs).dropLast.count '\n' = cs.dropLast.count '\n' + if c = '\n' then 1 else 0 := by
  rw [List.dropLast_cons_of_ne_nil h, List.count_cons]
  simp

/-- **A display has a line for every line feed**, and one more if anything follows the last one. -/
theorem count_lt_length_breakLines {cs : List Char} (h : cs ≠ []) :
    cs.dropLast.count '\n' < (breakLines cs).length := by
  -- A line feed always ends a line of the display, and the other breaks only add lines.
  fun_induction breakLines cs with
  | case1 => exact absurd rfl h
  | case2 rest ih =>
    by_cases hrest : rest = []
    · subst hrest
      simp
    · rw [count_dropLast_cons _ (List.cons_ne_nil _ _), count_dropLast_cons _ hrest]
      exact Nat.succ_lt_succ (ih hrest)
  | case3 c rest _ _ ih =>
    by_cases hrest : rest = []
    · subst hrest
      simp
    · have := ih hrest
      rw [count_dropLast_cons _ hrest, List.length_cons]
      split <;> omega
  | case4 c rest _ _ hnil _ =>
    obtain rfl := breakLines_eq_nil_iff.mp hnil
    simp
  | case5 c rest _ hbreak line others hlines ih =>
    have hrest : rest ≠ [] := fun hnil => by rw [hnil, breakLines_nil] at hlines; cases hlines
    have hfeed : c ≠ '\n' := fun hc => hbreak (by rw [hc]; rfl)
    have hlt := ih hrest
    rw [hlines] at hlt
    rw [count_dropLast_cons _ hrest, if_neg hfeed]
    exact hlt

/-! ### Lines of the lexer -/

/-- The lines that line feeds end, without the line feed and a carriage return right before it. What
follows the last line feed is a line as well. -/
def feedLinesOf : List Char → List (List Char)
  | [] => [[]]
  | '\r' :: '\n' :: rest => [] :: feedLinesOf rest
  | c :: rest =>
    if c = '\n' then [] :: feedLinesOf rest
    else
      match feedLinesOf rest with
      | [] => [[c]]
      | line :: others => (c :: line) :: others

/-- The lines of a text as the lexer counts them. -/
def feedLines (s : String) : List String := (feedLinesOf s.toList).map String.ofList

theorem feedLinesOf_ne_nil (cs : List Char) : feedLinesOf cs ≠ [] := by
  unfold feedLinesOf
  split
  · exact List.cons_ne_nil _ _
  · exact List.cons_ne_nil _ _
  · split
    · exact List.cons_ne_nil _ _
    · split <;> exact List.cons_ne_nil _ _

theorem feedLinesOf_feed (cs : List Char) : feedLinesOf ('\n' :: cs) = [] :: feedLinesOf cs := by
  rw [feedLinesOf]
  · rfl
  · exact fun _ h _ => nomatch h

/-- Any other character goes on with its line. -/
theorem feedLinesOf_cons {c : Char} (cs : List Char) (hc : c ≠ '\n')
    (hcrlf : ∀ rest, c = '\r' → cs = '\n' :: rest → False) :
    ∃ line others, feedLinesOf cs = line :: others ∧
      feedLinesOf (c :: cs) = (c :: line) :: others := by
  obtain ⟨line, others, h⟩ := List.exists_cons_of_ne_nil (feedLinesOf_ne_nil cs)
  refine ⟨line, others, h, ?_⟩
  rw [feedLinesOf, if_neg hc, h]
  exact hcrlf

/-- A line feed ends a line, and after it the lines are counted on. -/
theorem feedLinesOf_append (before after : List Char) : ∃ lines,
    feedLinesOf (before ++ '\n' :: after) = lines ++ feedLinesOf after ∧
      lines.length = before.count '\n' + 1 := by
  fun_induction feedLinesOf before with
  | case1 => exact ⟨[[]], feedLinesOf_feed after, rfl⟩
  | case2 rest ih =>
    obtain ⟨lines, heq, hlength⟩ := ih
    refine ⟨[] :: lines, ?_, by simp [hlength]⟩
    rw [List.cons_append, List.cons_append, feedLinesOf, heq, List.cons_append]
  | case3 rest _ ih =>
    obtain ⟨lines, heq, hlength⟩ := ih
    refine ⟨[] :: lines, ?_, by simp [hlength]⟩
    rw [List.cons_append, feedLinesOf_feed, heq, List.cons_append]
  | case4 c rest hcrlf hc hnil _ => exact absurd hnil (feedLinesOf_ne_nil rest)
  | case5 c rest hcrlf hc _ _ _ ih =>
    obtain ⟨lines, heq, hlength⟩ := ih
    have hcount : (c :: rest).count '\n' = rest.count '\n' := List.count_cons_of_ne hc
    rw [hcount]
    -- A carriage return at the end belongs to the line feed that comes now.
    by_cases hlast : c = '\r' ∧ rest = []
    · obtain ⟨rfl, rfl⟩ := hlast
      exact ⟨[[]], rfl, rfl⟩
    · obtain ⟨line, others, hrest, hcons⟩ := feedLinesOf_cons (rest ++ '\n' :: after) hc
        fun rest' hr happend => by
          cases rest with
          | nil => exact hlast ⟨hr, rfl⟩
          | cons d rest =>
            obtain ⟨rfl, -⟩ := List.cons.inj happend
            exact hcrlf rest hr rfl
      obtain ⟨first, lines, rfl⟩ := List.exists_cons_of_length_eq_add_one hlength
      rw [heq, List.cons_append] at hrest
      obtain ⟨rfl, rfl⟩ := List.cons.inj hrest
      exact ⟨(c :: first) :: lines, hcons, hlength⟩

/-! ### The line around a point -/

/-- What is before a point on its line. -/
def lastLine (before : List Char) : List Char := (before.reverse.takeWhile (· ≠ '\n')).reverse

/-- The line around a point of a text: what is before the point on its line, and what is after it,
but for a carriage return right before the line feed that ends the line. -/
def lineAround (before after : List Char) : List Char :=
  let line := lastLine before ++ after.takeWhile (· ≠ '\n')
  if '\n' ∈ after ∧ line.getLast? = some '\r' then line.dropLast else line

theorem lastLine_of_not_mem {before : List Char} (h : '\n' ∉ before) :
    lastLine before = before := by
  have hplain : ∀ c ∈ before.reverse, decide (c ≠ '\n') = true := fun c hc =>
    decide_eq_true (ne_of_mem_of_not_mem (List.mem_reverse.mp hc) h)
  rw [lastLine, List.takeWhile_eq_self_iff.mpr hplain, List.reverse_reverse]

/-- A line begins after a line feed. -/
theorem lastLine_feed (front before : List Char) :
    lastLine (front ++ '\n' :: before) = lastLine before := by
  rw [lastLine, lastLine, List.reverse_append, List.reverse_cons, List.append_assoc,
    List.takeWhile_append]
  split
  case isTrue h => rw [(List.takeWhile_prefix _).eq_of_length h]; simp
  case isFalse => rfl

theorem lineAround_feed (front before after : List Char) :
    lineAround (front ++ '\n' :: before) after = lineAround before after := by
  rw [lineAround, lineAround, lastLine_feed]

/-- Before the first line feed, the line does not depend on the point. -/
theorem lineAround_of_not_mem {before : List Char} (h : '\n' ∉ before) (after : List Char) :
    lineAround before after = lineAround [] (before ++ after) := by
  have hplain : ∀ c ∈ before, decide (c ≠ '\n') = true := fun c hc =>
    decide_eq_true (ne_of_mem_of_not_mem hc h)
  have hmem : '\n' ∈ before ++ after ↔ '\n' ∈ after := by simp [h]
  simp only [lineAround, hmem, List.takeWhile_append_of_pos hplain, lastLine_of_not_mem h]
  rfl

/-- A character that does not end the line goes on with it. -/
theorem lineAround_cons {c : Char} {cs : List Char} (hc : c ≠ '\n')
    (hcrlf : ∀ rest, c = '\r' → cs = '\n' :: rest → False) :
    lineAround [] (c :: cs) = c :: lineAround [] cs := by
  have hmem : '\n' ∈ c :: cs ↔ '\n' ∈ cs := by simp [Ne.symm hc]
  have htake : (c :: cs).takeWhile (· ≠ '\n') = c :: cs.takeWhile (· ≠ '\n') := by simp [hc]
  simp only [lineAround, hmem, htake, lastLine, List.reverse_nil, List.takeWhile_nil,
    List.nil_append]
  cases hline : cs.takeWhile (· ≠ '\n') with
  | nil =>
    -- The line feed would follow at once, and so the character is no carriage return.
    have hplain : ¬ ('\n' ∈ cs ∧ [c].getLast? = some '\r') := by
      rintro ⟨hfeed, hlast⟩
      obtain ⟨d, rest, rfl⟩ := List.exists_cons_of_ne_nil (List.ne_nil_of_mem hfeed)
      obtain rfl : d = '\n' := by
        by_contra hd
        simp [hd] at hline
      exact hcrlf rest (Option.some.inj hlast) rfl
    rw [if_neg hplain]
    simp
  | cons d line =>
    rw [List.getLast?_cons_cons, List.dropLast_cons_of_ne_nil (List.cons_ne_nil d line)]
    exact (apply_ite (c :: ·) _ _ _).symm

theorem head?_feedLinesOf (cs : List Char) :
    (feedLinesOf cs).head? = some (lineAround [] cs) := by
  fun_induction feedLinesOf cs with
  | case1 => rfl
  | case2 => rfl
  | case3 => rfl
  | case4 c rest _ _ hnil => exact absurd hnil (feedLinesOf_ne_nil rest)
  | case5 c rest hcrlf hc line others hrest ih =>
    rw [hrest] at ih
    rw [lineAround_cons hc hcrlf, ← Option.some.inj ih]
    rfl

/-- **The line around a point is the one that the lexer counts there.** -/
theorem getElem?_feedLinesOf (before after : List Char) :
    (feedLinesOf (before ++ after))[before.count '\n']? = some (lineAround before after) := by
  by_cases h : '\n' ∈ before
  · -- The line begins after the last line feed before the point.
    obtain ⟨tail, front, hreverse, htail⟩ := List.eq_append_cons_of_mem (List.mem_reverse.mpr h)
    replace htail : '\n' ∉ tail.reverse := fun hmem => htail (List.mem_reverse.mp hmem)
    obtain rfl : before = front.reverse ++ '\n' :: tail.reverse := by
      rw [← List.reverse_reverse before, hreverse]
      simp
    obtain ⟨lines, heq, hlength⟩ := feedLinesOf_append front.reverse (tail.reverse ++ after)
    have hcount : (front.reverse ++ '\n' :: tail.reverse).count '\n' = lines.length := by
      rw [hlength, List.count_append, List.count_cons_self, List.count_eq_zero_of_not_mem htail]
    rw [hcount, List.append_assoc, List.cons_append, heq, List.getElem?_append_right le_rfl,
      Nat.sub_self, ← List.head?_eq_getElem?, head?_feedLinesOf, ← lineAround_of_not_mem htail,
      lineAround_feed]
  -- No line feed before the point: it lies on the first line.
  · rw [List.count_eq_zero_of_not_mem h, lineAround_of_not_mem h, ← head?_feedLinesOf,
      List.head?_eq_getElem?]

/-! ### Plain lines -/

/-- None of some lines, up to the one with a number from zero on, holds a character that a display
takes for the end of a line. -/
def PlainUpTo (n : Nat) (lines : List (List Char)) : Prop :=
  ∀ m ≤ n, ∀ line, lines[m]? = some line → ∀ c ∈ line, ¬ isLineBreak c

theorem plainUpTo_of_all {lines : List (List Char)}
    (h : (lines.all fun line => line.all fun c => !isLineBreak c) = true) (n : Nat) :
    PlainUpTo n lines := by
  intro m _ line hline c hc hbreak
  have hplain := List.all_eq_true.mp (List.all_eq_true.mp h line (List.mem_of_getElem? hline)) c hc
  rw [hbreak] at hplain
  cases hplain

theorem PlainUpTo.head {n : Nat} {line : List Char} {others : List (List Char)}
    (h : PlainUpTo n (line :: others)) : ∀ c ∈ line, ¬ isLineBreak c :=
  h 0 (Nat.zero_le n) line rfl

theorem PlainUpTo.tail {n : Nat} {line : List Char} {others : List (List Char)}
    (h : PlainUpTo (n + 1) (line :: others)) : PlainUpTo n others :=
  fun m hm => h (m + 1) (Nat.succ_le_succ hm)

/-- A line may lose its first character. -/
theorem PlainUpTo.of_cons {n : Nat} {c : Char} {line : List Char} {others : List (List Char)}
    (h : PlainUpTo n ((c :: line) :: others)) : PlainUpTo n (line :: others) := by
  intro m hm line' hline
  cases m with
  | zero =>
    obtain rfl := Option.some.inj hline
    exact fun d hd => h.head d (.tail _ hd)
  | succ m => exact h (m + 1) hm line' hline

/-- **Plain lines are shown as they are**, and under their numbers. -/
theorem getElem?_breakLines {cs : List Char} {n : Nat} (hplain : PlainUpTo n (feedLinesOf cs))
    (hn : n < (breakLines cs).length) : (breakLines cs)[n]? = (feedLinesOf cs)[n]? := by
  fun_induction breakLines cs generalizing n with
  | case1 => exact absurd hn (Nat.not_lt_zero n)
  | case2 rest ih =>
    rw [feedLinesOf] at hplain ⊢
    cases n with
    | zero => rfl
    | succ n => exact ih hplain.tail (Nat.lt_of_succ_lt_succ hn)
  | case3 c rest hcrlf hbreak ih =>
    by_cases hc : c = '\n'
    · subst hc
      rw [feedLinesOf_feed] at hplain ⊢
      cases n with
      | zero => rfl
      | succ n => exact ih hplain.tail (Nat.lt_of_succ_lt_succ hn)
    · -- The display ends the line here, and so the line is not plain.
      obtain ⟨line, others, -, hlines⟩ := feedLinesOf_cons rest hc hcrlf
      rw [hlines] at hplain
      exact absurd hbreak (hplain.head c (.head _))
  | case4 c rest hcrlf hbreak hnil _ =>
    obtain rfl := breakLines_eq_nil_iff.mp hnil
    obtain rfl := Nat.lt_one_iff.mp hn
    rw [feedLinesOf, if_neg fun hc => hbreak (by rw [hc]; rfl)]
    · rfl
    · exact hcrlf
  -- The character goes to the front of the line that both count next.
  | case5 c rest hcrlf hbreak line others hlines ih =>
    obtain ⟨line', others', hrest, hcons⟩ :=
      feedLinesOf_cons rest (fun hc => hbreak (by rw [hc]; rfl)) hcrlf
    rw [hcons] at hplain ⊢
    rw [hrest, hlines] at ih
    have hline := ih hplain.of_cons hn
    cases n with
    | zero => exact congrArg (Option.map (c :: ·)) hline
    | succ n => exact hline

end Text

/-! ### The line of a position -/

namespace Lexer

/-- The line of a character is one that a display has. -/
theorem CharAt.lt_length {source : String} {pos : Pos} (h : CharAt source pos) :
    ∃ n : Nat, pos.line = n + 1 ∧ n < (Text.breakLines source.toList).length := by
  obtain ⟨before, c, after, heq, rfl⟩ := h
  refine ⟨before.count '\n', rfl, ?_⟩
  have hne : before ++ c :: after ≠ [] := by simp
  have hlt := Text.count_lt_length_breakLines hne
  rw [List.dropLast_append_of_ne_nil (List.cons_ne_nil _ _), List.count_append] at hlt
  rw [heq]
  omega

end Lexer

end Rubylet
