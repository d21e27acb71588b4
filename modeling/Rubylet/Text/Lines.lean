/-!
# Lines of a text

A reader shows the lines of a program in two ways. The lexer counts lines by line feeds
alone, while a diagnostic quotes the lines that a display would show, so it also breaks
at carriage returns, form feeds and the line and paragraph separators.

* `Text.lines` cuts a text at every line break; a break at the very end opens no line.
* `Text.normalizeNewlines` turns each carriage return, alone or before a line feed, into
  one line feed. It is how a file or standard input is read.
-/

namespace Rubylet.Text

/-- The characters at which a displayed text begins a new line. -/
def isLineBreak (c : Char) : Bool :=
  c = '\n' || c = '\r' || c = '\x0b' || c = '\x0c' || c = '\x1c' || c = '\x1d' || c = '\x1e' ||
    c = '\x85' || c = '\u2028' || c = '\u2029'

/-- The displayed lines, without their breaks. A carriage return and the line feed after it
are one break, and a break that ends the text opens no further line. -/
def breakLines : List Char → List (List Char)
  | [] => []
  | '\r' :: '\n' :: rest => [] :: breakLines rest
  | c :: rest =>
    if isLineBreak c then [] :: breakLines rest
    else
      match breakLines rest with
      | [] => [[c]]
      | line :: others => (c :: line) :: others

/-- The displayed lines of a text. -/
def lines (s : String) : List String := (breakLines s.toList).map String.ofList

/-- Every carriage return, alone or before a line feed, becomes one line feed. -/
def unifyBreaks : List Char → List Char
  | [] => []
  | '\r' :: '\n' :: rest => '\n' :: unifyBreaks rest
  | '\r' :: rest => '\n' :: unifyBreaks rest
  | c :: rest => c :: unifyBreaks rest

/-- A text with line feeds as its only newlines. -/
def normalizeNewlines (s : String) : String := String.ofList (unifyBreaks s.toList)

@[simp] theorem breakLines_nil : breakLines [] = [] := rfl

@[simp] theorem breakLines_crlf (rest : List Char) :
    breakLines ('\r' :: '\n' :: rest) = [] :: breakLines rest := rfl

end Rubylet.Text
