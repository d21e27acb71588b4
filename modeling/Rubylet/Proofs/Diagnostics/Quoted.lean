import Rubylet.Proofs.Diagnostics.Located

/-!
# Quoted lines

A diagnostic quotes the lines of a display under the numbers that the lexer has counted. Both agree
on a position as long as no other character than a line feed breaks a line, up to the line of the
position (`Text.getElem?_breakLines`); a carriage return right before a line feed does no harm. Then
the diagnostic quotes the very line on which its position lies, the part before the position and the
part after it, and so for all types that compete.

Otherwise it may not. A form feed is a blank for the lexer, and a comment or a text may hold any
character; a display breaks the line there, and all later lines have greater numbers.
-/

namespace Rubylet

variable {source : String} {e : CompileError} {pos : Pos} {ls ls' : List String}

/-! ### Rendering against lines -/

namespace Diagnostic

/-- The lines of a rendering that quotes some lines. -/
def linesAgainst (ls : List String) (d : Diagnostic) : List String :=
  [d.headline, ""] ++ d.notes.flatMap (fun note => [note, ""]) ++ choice d.candidates ++
    snippet (some ls) d.span d.label ++ [""] ++ possibilities (some ls) 1 d.candidates

/-- A diagnostic as it is shown when it quotes some lines. -/
def renderAgainst (ls : List String) (d : Diagnostic) : String :=
  Text.dropRight (· = '\n') ("\n".intercalate (d.linesAgainst ls)) ++ "\n"

/-- A rendering quotes the lines of a display. -/
theorem render_eq_renderAgainst (d : Diagnostic) (source : String) :
    d.render (some source) = d.renderAgainst (Text.lines source) := rfl

theorem possibilities_congr : ∀ {candidates : List Candidate} (number : Nat),
    (∀ c ∈ candidates, ∀ label, snippet (some ls) c.span label = snippet (some ls') c.span label) →
    possibilities (some ls) number candidates = possibilities (some ls') number candidates := by
  intro candidates
  induction candidates with
  | nil => exact fun _ _ => rfl
  | cons c cs ih =>
    intro number h
    rw [possibilities, possibilities, h c (.head _), ih (number + 1) fun c hc => h c (.tail _ hc)]

/-- **A rendering depends on lines only by its snippets.** -/
theorem renderAgainst_congr {d : Diagnostic}
    (h : ∀ s ∈ d.spans, ∀ label, snippet (some ls) s label = snippet (some ls') s label) :
    d.renderAgainst ls = d.renderAgainst ls' := by
  have hcandidates :
      possibilities (some ls) 1 d.candidates = possibilities (some ls') 1 d.candidates :=
    possibilities_congr 1 fun c hc => h c.span (.tail _ (List.mem_map_of_mem hc))
  rw [renderAgainst, renderAgainst, linesAgainst, linesAgainst, h d.span (.head _), hcandidates]

end Diagnostic

/-! ### The line of a character -/

/-- **The line of a character**, as the lexer counts it: what is before the character and what is
behind it. If the lines are plain up to there, a display has the same line under its number. -/
theorem Lexer.CharAt.line (h : CharAt source pos) :
    ∃ before after, source.toList = before ++ after ∧ pos = posAfter before ∧
      (Text.feedLines source)[pos.line.toNat - 1]? =
        some (String.ofList (Text.lineAround before after)) ∧
      (Text.PlainUpTo (pos.line.toNat - 1) (Text.feedLinesOf source.toList) →
        (Text.lines source)[pos.line.toNat - 1]? =
          some (String.ofList (Text.lineAround before after))) := by
  obtain ⟨n, hn, hlt⟩ := h.lt_length
  have hindex : pos.line.toNat - 1 = n := by omega
  obtain ⟨before, c, after, heq, rfl⟩ := h
  -- The lexer counts a line for every line feed before the character.
  obtain rfl : n = before.count '\n' := by
    simp only [posAfter] at hn
    omega
  have hline := Text.getElem?_feedLinesOf before (c :: after)
  rw [← heq] at hline
  refine ⟨before, c :: after, heq, rfl, ?_, fun hplain => ?_⟩
  · rw [hindex, Text.feedLines, List.getElem?_map, hline]
    rfl
  · rw [hindex] at hplain ⊢
    rw [Text.lines, List.getElem?_map, Text.getElem?_breakLines hplain hlt, hline]
    rfl

/-- **Diagnostics quote the lines they name**, if these lines are plain. Take an error in a text whose
lines, up to every one that the error names, are broken by line feeds alone. Then it is shown as if
the lexer's lines were quoted. All that it shows is somewhere in the text; the line quoted is the one
around that point; and the caret is under its column. -/
theorem errors_quote_plain_lines (h : Program.typed source = .error (.compile e))
    (hplain : ∀ pos, .ofPos pos ∈ e.diagnostic.spans →
      Text.PlainUpTo (pos.line.toNat - 1) (Text.feedLinesOf source.toList)) :
    e.render (some source) = e.diagnostic.renderAgainst (Text.feedLines source) ∧
      ∀ s ∈ e.diagnostic.spans, ∃ before after, source.toList = before ++ after ∧
        s = .ofPos (Lexer.posAfter before) ∧
        ∀ label, Diagnostic.snippet (some (Text.feedLines source)) s label =
          Diagnostic.quotation (Lexer.posAfter before)
            (String.ofList (Text.lineAround before after)) label := by
  have hchars := pointsTo_charAt h
  constructor
  -- The two renderings differ in the table of lines only, and a plain line stands in both.
  · refine (Diagnostic.render_eq_renderAgainst _ _).trans (Diagnostic.renderAgainst_congr ?_)
    intro s hs label
    obtain ⟨pos, hchar, rfl⟩ := hchars s hs
    obtain ⟨before, after, -, -, hfeed, hlines⟩ := hchar.line
    rw [hchar.snippet_eq hfeed, hchar.snippet_eq (hlines (hplain pos hs))]
  -- What is quoted is the line around the character that the span points at.
  · intro s hs
    obtain ⟨pos, hchar, rfl⟩ := hchars s hs
    obtain ⟨before, after, heq, rfl, hfeed, -⟩ := hchar.line
    exact ⟨before, after, heq, rfl, hchar.snippet_eq hfeed⟩

namespace Sample

/-- A comment with a form feed, and a call of a method that is not there. -/
def formFeed : String := "#\x0c\nfoo\n"

def formFeedError : CompileError := .atOrigin ⟨.call, 2, 1⟩ (.undefinedMethod "foo")

/-- How the error is shown: an empty line is quoted. -/
def formFeedShown : String :=
  "undefined method `foo' in `call' expression on line 2, column 1\n\n  \n  ^ expression here\n"

/-- The samples are evaluated together, once. -/
theorem shown :
    ((Text.feedLinesOf twoTypes.toList).all fun line => line.all fun c => !Text.isLineBreak c) ∧
    (Syntax.descend? formFeed).map (· >>= Node.typed) =
      some (.error (.compile formFeedError)) ∧
    (Text.feedLines formFeed)[1]? = some "foo" ∧
    formFeedError.render (some formFeed) = formFeedShown ∧
    formFeedShown ≠ formFeedError.diagnostic.renderAgainst (Text.feedLines formFeed) := by
  decide +kernel

end Sample

/-- The lines of the sample are plain, and all three places are quoted. -/
theorem errors_quote_plain_lines_twoTypes :
    Program.typed Sample.twoTypes = .error (.compile Sample.twoTypesError) ∧
    (∀ n, Text.PlainUpTo n (Text.feedLinesOf Sample.twoTypes.toList)) ∧
    Sample.twoTypesError.render (some Sample.twoTypes) =
      Sample.twoTypesError.diagnostic.renderAgainst (Text.feedLines Sample.twoTypes) ∧
    ∀ s ∈ Sample.twoTypesError.diagnostic.spans, ∃ before after,
      Sample.twoTypes.toList = before ++ after ∧ s = .ofPos (Lexer.posAfter before) ∧
        ∀ label, Diagnostic.snippet (some (Text.feedLines Sample.twoTypes)) s label =
          Diagnostic.quotation (Lexer.posAfter before)
            (String.ofList (Text.lineAround before after)) label := by
  have hplain := Text.plainUpTo_of_all Sample.shown.1
  exact ⟨Sample.typed_twoTypes, hplain,
    errors_quote_plain_lines Sample.typed_twoTypes fun pos _ => hplain _⟩

/-- **A wrong line is quoted** behind a form feed: an empty one, and not the line of the call. -/
theorem form_feed_shifts_lines :
    Program.typed Sample.formFeed = .error (.compile Sample.formFeedError) ∧
    Sample.formFeedError.diagnostic.span = .ofPos ⟨2, 1⟩ ∧
    (Text.feedLines Sample.formFeed)[1]? = some "foo" ∧
    Sample.formFeedError.render (some Sample.formFeed) = Sample.formFeedShown ∧
    Sample.formFeedShown ≠
      Sample.formFeedError.diagnostic.renderAgainst (Text.feedLines Sample.formFeed) := by
  obtain ⟨-, htyped, hlines, hshown, hother⟩ := Sample.shown
  exact ⟨typed_of_descend htyped, rfl, hlines, hshown, hother⟩

end Rubylet
