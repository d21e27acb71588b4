import Rubylet.Fault
import Rubylet.Origin
import Rubylet.Ty
import Rubylet.Text.Basic
import Rubylet.Text.Lines

/-!
# Diagnostics

A `Diagnostic` is what a compile error reports: a headline that ends with the position, a span, a
label for the caret under it, notes, and the types that compete for an ambiguous record. It is
rendered against the program text only when it is shown, so a stage that does not hold the text
can still raise a precise error.

`Diagnostic.report` builds the diagnostic of an error at a place: the headline names the piece of
syntax unless the message already does, and then the position.
-/

namespace Rubylet

/-- The categories of compile errors. -/
inductive Category where
  | compile
  | parse
  | lowering
  | structural
  | unboundReference
  | unknownOperation
  | typeInference
  | cycle
  | ambiguousType
  | mismatchedType
  deriving Repr, DecidableEq, Inhabited

namespace Category

/-- The stage of compilation at which a category arises. -/
def phase : Category → String
  | compile => "compile"
  | parse => "parse"
  | lowering | structural => "lower"
  | unboundReference => "graph"
  | unknownOperation | typeInference | cycle | ambiguousType | mismatchedType => "resolve"

/-- The code of a category. -/
def code : Category → String
  | compile | typeInference => "E0000"
  | parse => "E0001"
  | lowering => "E0101"
  | structural => "E0102"
  | unboundReference => "E0201"
  | unknownOperation => "E0202"
  | cycle => "E0301"
  | ambiguousType => "E0302"
  | mismatchedType => "E0303"

end Category

/-- One of the types that compete for a record, and where it comes from. -/
structure Candidate where
  type : Ty
  span : Span
  deriving Repr, DecidableEq, Inhabited

/-- Where an error arose. -/
inductive Place where
  | nowhere
  /-- At a position of the text, outside any piece of syntax. -/
  | text (pos : Pos)
  /-- At a piece of syntax. -/
  | node (origin : Origin)
  deriving Repr, DecidableEq, Inhabited

namespace Place

/-- The span of a place. -/
def span : Place → Span
  | nowhere => .unknown
  | text pos => .ofPos pos
  | node origin => .ofPos origin.pos

/-- The kind of syntax at a place. -/
def kind? : Place → Option Kind
  | node origin => some origin.kind
  | _ => none

end Place

/-- The label of the caret where nothing better is known. -/
def defaultLabel : String := "expression here"

/-- The report of one compile error. -/
structure Diagnostic where
  headline : String
  category : Category
  span : Span
  kind? : Option Kind
  label : String
  candidates : List Candidate
  notes : List String
  deriving Repr, DecidableEq, Inhabited

namespace Diagnostic

/-- A message together with the piece of syntax it is about, unless it names it already. -/
def withSubject (message : String) : Option Kind → String
  | none => message
  | some kind =>
    if Text.occursIn kind.describe message then message
    else message ++ " in " ++ kind.describe

/-- The diagnostic of an error at a place. -/
def report (category : Category) (place : Place) (message : String)
    (label : String) (candidates : List Candidate) (notes : List String) : Diagnostic where
  headline := withSubject message place.kind? ++ " " ++ place.span.describe
  category
  span := place.span
  kind? := place.kind?
  label
  candidates
  notes

/-! ### Rendering -/

/-- The line of the text with number `n`, counted from one. -/
def sourceLine (lines : Option (List String)) (n : Int) : Option String :=
  if 0 < n then lines.bind (·[n.toNat - 1]?) else none

/-- The column under which the caret stands: an unknown column, or column zero, counts as the
first one. -/
def caretColumn (s : Span) : Int :=
  match s.column with
  | none => 1
  | some c => if c = 0 then 1 else c

/-- The quoted line of a span, indented by two, and the caret under its column. -/
def snippet (lines : Option (List String)) (s : Span) (label : String) : List String :=
  match s.line with
  | none => ["  <unknown location>"]
  | some n =>
    match sourceLine lines n with
    | none => ["  <source unavailable for line " ++ toString n ++ ">"]
    -- The blank that is repeated stands for the indentation and for the columns before the caret.
    | some line => ["  " ++ line, Text.blanks (caretColumn s + 1).toNat ++ "^ " ++ label]

/-- The part of a rendering that shows the candidates one after the other. -/
def possibilities (lines : Option (List String)) : (number : Nat) → List Candidate → List String
  | _, [] => []
  | number, c :: rest =>
    ["Possibility " ++ toString number ++ " (line " ++ Span.numberText c.span.line ++ "):", ""] ++
      snippet lines c.span c.type.name ++ [""] ++ possibilities lines (number + 1) rest

/-- The line that sums up the candidates, if there are any. -/
def choice : List Candidate → List String
  | [] => []
  | cs => ["Could be one of: [" ++ ", ".intercalate (cs.map (·.type.name)) ++ "]", ""]

/-- The lines of a rendering. -/
def renderedLines (d : Diagnostic) (source : Option String) : List String :=
  let lines := source.map Text.lines
  [d.headline, ""] ++ d.notes.flatMap (fun note => [note, ""]) ++ choice d.candidates ++
    snippet lines d.span d.label ++ [""] ++ possibilities lines 1 d.candidates

/-- A diagnostic as it is shown, against the program text if there is one. It ends with exactly
one newline. -/
def render (d : Diagnostic) (source : Option String) : String :=
  Text.dropRight (· = '\n') ("\n".intercalate (d.renderedLines source)) ++ "\n"

/-- What goes wrong when a span is shown: its caret stands too far to the right. -/
def caretFault? (memory : Nat) (lines : Option (List String)) (s : Span) : Option Fault :=
  match s.line.bind (sourceLine lines) with
  | none => none
  | some _ => repetitionFault? memory 1 (caretColumn s + 1)

/-- What goes wrong first when a diagnostic is shown, where there is room for texts up to a length.
Nothing does for spans of a program text. -/
def fault? (memory : Nat) (d : Diagnostic) (source : Option String) : Option Fault :=
  (d.span :: d.candidates.map Candidate.span).findSome?
    (caretFault? memory (source.map Text.lines))

end Diagnostic

end Rubylet
