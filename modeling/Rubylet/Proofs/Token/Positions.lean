import Mathlib.Data.List.Induction
import Rubylet.Token.Terminator

/-!
# Where tokens stand

The lexer counts lines and columns as it goes (`Lexer.advance`). Told without a count, a position is
determined by the characters before it: there is a line for every line feed among them, and a column
for every character after the last one (`Lexer.posAfter`).

A lexeme is a part of the text and never empty (`lexeme_isPrefix`). So a token is known by what is
before it in the text, and has the position after that; and so is the character that begins
no lexeme, if there is one. Terminators stand where the newlines and semicolons stood that they were
made of.

* `Lexer.TokenAt source pos`: a token of the text begins at the position.
* `Lexer.RefusedAt source e`: the error is about the first character that begins no lexeme.
-/

namespace Rubylet

namespace Lexer

variable {c : Char} {rest cs : List Char} {t : Token} {pos : Pos} {e : CompileError}

/-! ### Positions -/

/-- The position after some characters from the start of a text. -/
def posAfter (before : List Char) : Pos where
  line := before.count '\n' + 1
  column := (before.reverse.takeWhile (· ≠ '\n')).length + 1

/-- **Counting comes to the position that the characters determine.** -/
theorem advanceAll_start (before : List Char) : advanceAll .start before = posAfter before := by
  induction before using List.reverseRecOn with
  | nil => rfl
  | append_singleton before c ih =>
    have hstep : advanceAll .start (before ++ [c]) = advance (advanceAll .start before) c :=
      List.foldl_append
    rw [hstep, ih, advance]
    by_cases hc : c = '\n'
    · subst hc
      simp [posAfter]
    · simp [posAfter, hc]

theorem advanceAll_append (before after : List Char) :
    advanceAll pos (before ++ after) = advanceAll (advanceAll pos before) after :=
  List.foldl_append

/-! ### Lexemes -/

theorem digitGroups_isPrefix (cs : List Char) : digitGroups cs <+: cs := by
  fun_induction digitGroups cs with
  | case2 d rest _ ih => exact (List.prefix_cons_inj _).mpr ((List.prefix_cons_inj _).mpr ih)
  | case4 c rest _ _ ih => exact (List.prefix_cons_inj _).mpr ih
  | _ => exact List.nil_prefix

/-- What a string takes is the front of the text. -/
theorem stringRest_isPrefix {mark : Char} {s : List Char} (h : stringRest mark cs = some s) :
    s <+: cs := by
  -- On the reading of the string: an escape takes two characters, any other one.
  fun_induction stringRest mark cs generalizing s with
  | case1 | case2 | case5 => cases h
  | case3 c rest _ ih =>
    obtain ⟨s', hs', rfl⟩ := Option.map_eq_some_iff.mp h
    exact (List.prefix_cons_inj _).mpr ((List.prefix_cons_inj _).mpr (ih hs'))
  | case4 rest =>
    cases h
    exact (List.prefix_cons_inj _).mpr List.nil_prefix
  | case6 c rest _ _ _ ih =>
    obtain ⟨s', hs', rfl⟩ := Option.map_eq_some_iff.mp h
    exact (List.prefix_cons_inj _).mpr (ih hs')

/-- A newline takes the front of the text, and at least one character. -/
theorem newline_isPrefix {s : List Char} (h : newline? cs = some s) : s <+: cs ∧ s ≠ [] := by
  unfold newline? at h
  split at h
  · cases h
    exact ⟨⟨_, rfl⟩, List.cons_ne_nil _ _⟩
  · cases h
    exact ⟨⟨_, rfl⟩, List.cons_ne_nil _ _⟩
  · cases h

/-- **A lexeme is a part of the text**, at its beginning, and is not empty. -/
theorem lexeme_isPrefix {lexeme : Lexeme} (h : lexeme? c rest = some lexeme) :
    lexeme.chars <+: c :: rest ∧ lexeme.chars ≠ [] := by
  have more : ∀ {s}, s <+: rest → c :: s <+: c :: rest ∧ c :: s ≠ [] := fun hs =>
    ⟨(List.prefix_cons_inj c).mpr hs, List.cons_ne_nil _ _⟩
  -- The kinds of lexemes are tried one after the other.
  unfold lexeme? at h
  split at h
  · cases h
    exact more (List.takeWhile_prefix _)
  split at h
  · cases h
    exact more (List.takeWhile_prefix _)
  split at h
  · cases h
    exact more (digitGroups_isPrefix rest)
  split at h
  · obtain ⟨s, hs, rfl⟩ := Option.map_eq_some_iff.mp h
    exact more (stringRest_isPrefix hs)
  split at h
  · cases h
    exact more (List.takeWhile_prefix _)
  split at h
  · cases h
    exact more (List.takeWhile_prefix _)
  split at h
  · obtain ⟨s, hs, rfl⟩ := Option.map_eq_some_iff.mp h
    refine more ?_
    conv_rhs => rw [← List.takeWhile_append_dropWhile (p := isInlineBlank) (l := rest)]
    exact (List.prefix_append_right_inj _).mpr (newline_isPrefix hs).1
  split at h
  · obtain ⟨s, hs, rfl⟩ := Option.map_eq_some_iff.mp h
    exact newline_isPrefix hs
  · obtain ⟨kind, -, rfl⟩ := Option.map_eq_some_iff.mp h
    exact more List.nil_prefix

/-! ### Tokens -/

/-- One step of the lexer goes past a lexeme. -/
theorem scan_of_lexeme {lexeme : Lexeme} (h : lexeme? c rest = some lexeme) (steps : Nat)
    (pos : Pos) : ∃ after, c :: rest = lexeme.chars ++ after ∧ lexeme.chars ≠ [] ∧
      scan (steps + 1) pos (c :: rest) =
        match lexeme.kind? with
        | none => scan steps (advanceAll pos lexeme.chars) after
        | some kind => (scan steps (advanceAll pos lexeme.chars) after).cons
            ⟨kind, String.ofList lexeme.chars, pos⟩ := by
  obtain ⟨⟨after, hafter⟩, hne⟩ := lexeme_isPrefix h
  refine ⟨after, hafter.symm, hne, ?_⟩
  -- The lexeme is the front of the text, so what is behind it is scanned next.
  have hdrop : (c :: rest).drop lexeme.chars.length = after := by
    rw [← hafter, List.drop_left]
  cases hkind : lexeme.kind? <;> simp only [scan, h, hkind, hdrop]

/-- **A token stands where its text begins.** -/
theorem exists_of_mem_scan : ∀ {steps : Nat} {pos : Pos} {cs : List Char},
    t ∈ (scan steps pos cs).tokens → ∃ before after,
      cs = before ++ (t.text.toList ++ after) ∧ t.text.toList ≠ [] ∧
        t.pos = advanceAll pos before := by
  intro steps
  induction steps with
  | zero =>
    intro pos cs h
    cases cs <;> cases h
  | succ steps ih =>
    intro pos cs h
    cases cs with
    | nil => cases h
    | cons c rest =>
      cases hlexeme : lexeme? c rest with
      | none => rw [scan, hlexeme] at h; cases h
      | some lexeme =>
        obtain ⟨after, heq, hne, hscan⟩ := scan_of_lexeme hlexeme steps pos
        rw [hscan] at h
        rw [heq]
        -- A token behind the lexeme has the lexeme before it, too.
        have hlater : t ∈ (scan steps (advanceAll pos lexeme.chars) after).tokens →
            ∃ before after', lexeme.chars ++ after = before ++ (t.text.toList ++ after') ∧
              t.text.toList ≠ [] ∧ t.pos = advanceAll pos before := by
          intro ht
          obtain ⟨before, after', rfl, hne', hpos⟩ := ih ht
          refine ⟨lexeme.chars ++ before, after', by rw [List.append_assoc], hne', ?_⟩
          rw [hpos, advanceAll_append]
        cases hkind : lexeme.kind? with
        | none =>
          rw [hkind] at h
          exact hlater h
        | some kind =>
          rw [hkind] at h
          rcases List.mem_cons.mp h with rfl | h
          · exact ⟨[], after, by simp, by simpa using hne, rfl⟩
          · exact hlater h

/-- A lexical error is about a character that begins no lexeme. -/
theorem exists_of_scan_error : ∀ {steps : Nat} {pos : Pos} {cs : List Char},
    (scan steps pos cs).error? = some e → ∃ before c after, cs = before ++ c :: after ∧
      lexeme? c after = none ∧ e = .atPos (advanceAll pos before) (.unexpectedCharacter c) := by
  intro steps
  induction steps with
  | zero =>
    intro pos cs h
    cases cs <;> cases h
  | succ steps ih =>
    intro pos cs h
    cases cs with
    | nil => cases h
    | cons c rest =>
      cases hlexeme : lexeme? c rest with
      | none =>
        rw [scan, hlexeme] at h
        exact ⟨[], c, rest, rfl, hlexeme, (Option.some.inj h).symm⟩
      | some lexeme =>
        obtain ⟨after, heq, -, hscan⟩ := scan_of_lexeme hlexeme steps pos
        -- Whatever the kind of the lexeme is, the error is that of the scan behind it.
        have hlater : (scan steps (advanceAll pos lexeme.chars) after).error? = some e := by
          rw [← h, hscan]
          cases lexeme.kind? <;> rfl
        obtain ⟨before, d, after', rfl, hd, rfl⟩ := ih hlater
        rw [heq]
        exact ⟨lexeme.chars ++ before, d, after', by rw [List.append_assoc], hd,
          by rw [advanceAll_append]⟩

/-! ### Program texts -/

/-- A character of a text stands at a position. -/
def CharAt (source : String) (pos : Pos) : Prop :=
  ∃ before c after, source.toList = before ++ c :: after ∧ pos = posAfter before

/-- A token of a text begins at a position: after the characters that are before it in the text. -/
def TokenAt (source : String) (pos : Pos) : Prop :=
  ∃ t ∈ (tokens source).tokens, t.pos = pos ∧ ∃ before after,
    source.toList = before ++ (t.text.toList ++ after) ∧ t.text.toList ≠ [] ∧ pos = posAfter before

/-- An error is about the character of a text at which the lexer stops, for it begins no lexeme. -/
def RefusedAt (source : String) (e : CompileError) : Prop :=
  (tokens source).error? = some e ∧ ∃ before c after, source.toList = before ++ c :: after ∧
    lexeme? c after = none ∧ e = .atPos (posAfter before) (.unexpectedCharacter c)

theorem tokenAt_of_mem {source : String} (h : t ∈ (tokens source).tokens) :
    TokenAt source t.pos := by
  obtain ⟨before, after, heq, hne, hpos⟩ := exists_of_mem_scan h
  exact ⟨t, h, rfl, before, after, heq, hne, hpos.trans (advanceAll_start before)⟩

theorem refusedAt_of_error {source : String} (h : (tokens source).error? = some e) :
    RefusedAt source e := by
  obtain ⟨before, c, after, heq, hc, rfl⟩ := exists_of_scan_error h
  exact ⟨h, before, c, after, heq, hc, by rw [advanceAll_start]⟩

/-- **At a token there is a character.** -/
theorem TokenAt.charAt {source : String} (h : TokenAt source pos) : CharAt source pos := by
  obtain ⟨t, -, -, before, after, heq, hne, hpos⟩ := h
  obtain ⟨c, cs, hcs⟩ := List.exists_cons_of_ne_nil hne
  exact ⟨before, c, cs ++ after, by rw [heq, hcs, List.cons_append], hpos⟩

/-- And so there is where the lexer stops. -/
theorem RefusedAt.charAt {source : String} (h : RefusedAt source e) :
    ∃ pos c, e = .atPos pos (.unexpectedCharacter c) ∧ CharAt source pos := by
  obtain ⟨-, before, c, after, heq, -, rfl⟩ := h
  exact ⟨posAfter before, c, rfl, before, c, after, heq, rfl⟩

end Lexer

namespace Terminator

/-- Terminators stand where the tokens stood that they were made of. -/
theorem exists_pos_of_mem_insertFrom {t : Token} {ts : List Token} :
    ∀ {s : State}, t ∈ insertFrom s ts → ∃ u ∈ ts, u.pos = t.pos := by
  induction ts with
  | nil => exact fun h => nomatch h
  | cons u ts ih =>
    -- The state does not matter for where a terminator stands, so the induction is for all states.
    have hlater : ∀ {s}, t ∈ insertFrom s ts → ∃ v ∈ u :: ts, v.pos = t.pos := fun h =>
      (ih h).imp fun v hv => ⟨.tail _ hv.1, hv.2⟩
    intro s h
    unfold insertFrom at h
    split at h
    · split at h
      · rcases List.mem_cons.mp h with rfl | h
        · exact ⟨u, .head _, rfl⟩
        · exact hlater h
      · exact hlater h
    · rcases List.mem_cons.mp h with rfl | h
      · exact ⟨u, .head _, rfl⟩
      · exact hlater h
    · rcases List.mem_cons.mp h with rfl | h
      · exact ⟨t, .head _, rfl⟩
      · exact hlater h

/-- **The parser's tokens stand where the lexer's tokens stand.** -/
theorem tokenAt_of_mem_read {source : String} {t : Token} (h : t ∈ (read source).tokens) :
    Lexer.TokenAt source t.pos := by
  obtain ⟨u, hu, hpos⟩ := exists_pos_of_mem_insertFrom h
  exact hpos ▸ Lexer.tokenAt_of_mem hu

end Terminator

end Rubylet
