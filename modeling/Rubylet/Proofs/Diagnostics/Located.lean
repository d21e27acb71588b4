import Rubylet.Proofs.Diagnostics.Lines
import Rubylet.Proofs.Typing.Reports

/-!
# Errors and the text they are about

Whatever keeps a program from being typed, the error points into the text of the program: to tokens,
or to the character at which the lexer stops. The stages agree on this for different reasons. Syntax
is read at tokens (`Syntax.pointsTo_of_read_error`), and so a class in a class is refused at one. The
instructions come from what has been read (`Surface.points_lower`), and the graph and the types are
refused at instructions (`pointsTo_of_infer_error`).

At every such position there is a character, and so a line that a display can quote
(`Lexer.CharAt.exists_line`). Therefore no diagnostic that is shown against its own text lacks a
line.
-/

namespace Rubylet

variable {source : String} {e : CompileError} {pos : Pos}

/-! ### Where programs are refused -/

/-- A text that cannot be read cannot be typed, for the same reason. -/
theorem typed_eq_of_read_error {error : StageError} (h : Syntax.read source = .error error) :
    Program.typed source = .error error := by
  rw [Program.typed, Program.code, h]
  rfl

/-- A program is typed as what is read by descent. -/
theorem typed_of_descend {result : Except StageError (List TypedRecord)}
    (h : (Syntax.descend? source).map (· >>= Node.typed) = some result) :
    Program.typed source = result := by
  obtain ⟨read, hread, rfl⟩ := Option.map_eq_some_iff.mp h
  have heq := Syntax.read_of_descend hread
  cases read with
  | error error => exact typed_eq_of_read_error heq
  | ok root => exact typed_eq_of_read heq

/-- **A program is refused at a token**, or where the lexer stops. -/
theorem pointsTo_of_typed_error (h : Program.typed source = .error (.compile e)) :
    Lexer.RefusedAt source e ∨ e.PointsTo (Lexer.TokenAt source) := by
  -- Reading fails first of all; what it reports it found among the tokens.
  cases hread : Syntax.read source with
  | error error =>
    rw [typed_eq_of_read_error hread] at h
    obtain rfl := Except.error.inj h
    exact Syntax.pointsTo_of_read_error hread
  | ok root =>
    right
    rw [typed_eq_of_read hread] at h
    obtain ⟨statements, rfl, hsurface⟩ := Syntax.surface_of_read hread
    have hlowered : PointsOr (Lexer.TokenAt source) (ComeFrom (Lexer.TokenAt source))
        ((Part.statements statements).lower none) :=
      hsurface.points_lower (Syntax.stands_of_read hread)
    rcases Node.cases_of_typed_error h with hlower | ⟨code, hlower, hinfer⟩
    · -- Lowering refuses what has been read,
      exact hlowered.of_error hlower
    · -- And the later stages refuse what it has been lowered to.
      have hlayout := layout_of_lower hsurface hlower (CodeAt.self code)
      rw [Nat.zero_add] at hlayout
      have hcode : ComeFrom (Lexer.TokenAt source) code := by
        rwa [show (Part.statements statements).lower none = .ok code from hlower] at hlowered
      exact pointsTo_of_infer_error hlayout.replayed hcode hinfer

/-- All that an error shows is at characters of the text. -/
theorem pointsTo_charAt (h : Program.typed source = .error (.compile e)) :
    e.PointsTo (Lexer.CharAt source) := by
  rcases pointsTo_of_typed_error h with hrefused | htokens
  · obtain ⟨pos, c, rfl, hchar⟩ := hrefused.charAt
    exact CompileError.pointsTo_atPos hchar _
  · exact htokens.mono fun pos => Lexer.TokenAt.charAt

/-! ### What is quoted -/

namespace Diagnostic

/-- A quoted line with a caret under a position: both are indented by two. -/
def quotation (pos : Pos) (line label : String) : List String :=
  ["  " ++ line, Text.blanks (pos.column + 1).toNat ++ "^ " ++ label]

/-- A snippet quotes the line of its position, if there is one. -/
theorem snippet_eq_quotation {lines : List String} {line : String} (hline : 0 < pos.line)
    (hcolumn : 0 < pos.column) (h : lines[pos.line.toNat - 1]? = some line) (label : String) :
    snippet (some lines) (.ofPos pos) label = quotation pos line label := by
  have hsource : sourceLine (some lines) pos.line = some line := by
    rw [sourceLine, if_pos hline]
    exact h
  have hcaret : caretColumn (.ofPos pos) = pos.column := if_neg (by omega)
  simp only [snippet, Span.ofPos, hsource] at hcaret ⊢
  rw [hcaret, quotation]

end Diagnostic

namespace Lexer.CharAt

/-- Lines and columns are counted from one. -/
theorem pos_line_column (h : CharAt source pos) : 0 < pos.line ∧ 0 < pos.column := by
  obtain ⟨before, c, after, -, rfl⟩ := h
  simp only [posAfter]
  omega

/-- A display has a line for the character. -/
theorem exists_line (h : CharAt source pos) :
    ∃ line, (Text.lines source)[pos.line.toNat - 1]? = some line := by
  obtain ⟨n, hn, hlt⟩ := h.lt_length
  have hindex : pos.line.toNat - 1 = n := by omega
  rw [hindex]
  exact ⟨_, List.getElem?_eq_getElem (by rwa [Text.lines, List.length_map])⟩

/-- The snippet of a character quotes a line of the display. -/
theorem snippet_eq (h : CharAt source pos) {lines : List String} {line : String}
    (hline : lines[pos.line.toNat - 1]? = some line) (label : String) :
    Diagnostic.snippet (some lines) (.ofPos pos) label = Diagnostic.quotation pos line label :=
  Diagnostic.snippet_eq_quotation h.pos_line_column.1 h.pos_line_column.2 hline label

end Lexer.CharAt

/-- **Every compile error points into the source.** All that the error shows, its own place and
those of the types that compete, is where a token of the text begins; or the lexer has stopped, and
the error is at the character at which it did. Shown against the text, every one of these places is
shown by a line of the text. -/
theorem errors_point_into_source (h : Program.typed source = .error (.compile e)) :
    (Lexer.RefusedAt source e ∨ e.PointsTo (Lexer.TokenAt source)) ∧
      ∀ s ∈ e.diagnostic.spans, ∃ pos line, s = .ofPos pos ∧
        (Text.lines source)[pos.line.toNat - 1]? = some line ∧
          ∀ label, Diagnostic.snippet (some (Text.lines source)) s label =
            Diagnostic.quotation pos line label := by
  refine ⟨pointsTo_of_typed_error h, fun s hs => ?_⟩
  obtain ⟨pos, hchar, rfl⟩ := pointsTo_charAt h s hs
  obtain ⟨line, hline⟩ := hchar.exists_line
  exact ⟨pos, line, rfl, hline, hchar.snippet_eq hline⟩

namespace Sample

/-- A local that is assigned a number and a text. -/
def twoTypes : String := "x = 1\nx = \"a\"\n"

/-- The second assignment is refused, and the two types compete. -/
def twoTypesError : CompileError where
  cause := .ambiguousType
  place := .node ⟨.assignment, 2, 1⟩
  candidates := [⟨.int, .ofPos ⟨1, 5⟩⟩, ⟨.str, .ofPos ⟨2, 5⟩⟩]

theorem typed_twoTypes : Program.typed twoTypes = .error (.compile twoTypesError) :=
  typed_of_descend (by decide +kernel)

end Sample

/-- Three places are shown, each with its line. -/
theorem errors_point_into_source_twoTypes :
    Program.typed Sample.twoTypes = .error (.compile Sample.twoTypesError) ∧
    Sample.twoTypesError.diagnostic.spans = [.ofPos ⟨2, 1⟩, .ofPos ⟨1, 5⟩, .ofPos ⟨2, 5⟩] ∧
    (Lexer.RefusedAt Sample.twoTypes Sample.twoTypesError ∨
      Sample.twoTypesError.PointsTo (Lexer.TokenAt Sample.twoTypes)) ∧
    ∀ s ∈ Sample.twoTypesError.diagnostic.spans, ∃ pos line, s = .ofPos pos ∧
      (Text.lines Sample.twoTypes)[pos.line.toNat - 1]? = some line ∧
        ∀ label, Diagnostic.snippet (some (Text.lines Sample.twoTypes)) s label =
          Diagnostic.quotation pos line label :=
  ⟨Sample.typed_twoTypes, rfl, errors_point_into_source Sample.typed_twoTypes⟩

end Rubylet
