/-!
# Positions and spans

A `Pos` is a line and a column, both counted from one in a program text; positions built by hand
may hold any integers. A `Span` is a position that may be unknown in part or altogether.
-/

namespace Rubylet

/-- A line and a column. -/
structure Pos where
  line : Int
  column : Int
  deriving Repr, DecidableEq, Inhabited

/-- The position of the first character of a text. -/
def Pos.start : Pos := ⟨1, 1⟩

/-- A position of which the line, the column or both may be unknown. -/
structure Span where
  line : Option Int
  column : Option Int
  deriving Repr, DecidableEq, Inhabited

namespace Span

/-- The span of which nothing is known. -/
def unknown : Span := ⟨none, none⟩

/-- The span of a known position. -/
def ofPos (p : Pos) : Span := ⟨some p.line, some p.column⟩

/-- The text of a number that may be missing. -/
def numberText : Option Int → String
  | none => "None"
  | some n => toString n

/-- How a headline names a span. Without a line nothing is said about the column. -/
def describe (s : Span) : String :=
  match s.line with
  | none => "at an unknown location"
  | some line => "on line " ++ toString line ++ ", column " ++ numberText s.column

end Span

end Rubylet
