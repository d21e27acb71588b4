import Rubylet.CommandLine.Syntax
import Rubylet.Text.Basic

/-!
# Usage

The usage of a level is one line. Its help adds a table of operands and one of flags, whose second
columns are aligned with each other. All texts fit their lines.
-/

namespace Rubylet.CommandLine

/-- Names of which one is to be chosen. -/
def alternatives (names : List String) : String := "\x7b" ++ ",".intercalate names ++ "\x7d"

/-- A spelling of a flag with its value. -/
def Flag.withValue (f : Flag) (spelling : String) : String :=
  match f.choices? with
  | some choices => spelling ++ " " ++ alternatives choices
  | none => spelling

namespace Level

/-- The names of the commands, as alternatives. -/
def commands : String := alternatives (Command.all.map Command.name)

/-- The usage of a level. -/
def usage (l : Level) : String :=
  let flags := l.flags.map fun f => "[" ++ f.withValue (f.spellings.headD "") ++ "]"
  let operand :=
    match l with
    | top => commands ++ " ..."
    | command _ => l.operand
  "usage: " ++ " ".intercalate ([l.program] ++ flags ++ [operand]) ++ "\n"

/-- What stands between the usage and the tables. -/
def description : Level → String
  | top => "tix: type-inferring compiler for a small Ruby-like language\n\n"
  | command _ => ""

end Level

/-- A row of a table: how far it is indented, what is explained, and the explanation. -/
structure UsageRow where
  indent : Nat
  term : String
  text? : Option String
  deriving Repr, DecidableEq, Inhabited

namespace UsageRow

/-- The row of a flag. -/
def ofFlag (f : Flag) : UsageRow :=
  ⟨2, ", ".intercalate (f.spellings.map f.withValue), some f.summary⟩

/-- The rows of the operand of a level. -/
def ofOperand : Level → List UsageRow
  | .top => ⟨2, Level.commands, none⟩ :: Command.all.map fun c => ⟨4, c.name, some c.summary⟩
  | .command c => [⟨2, (Level.command c).operand, some "Source file ('-' reads stdin)"⟩]

/-- A row as it is printed; the explanations begin at a column. -/
def render (column : Nat) (r : UsageRow) : String :=
  match r.text? with
  | none => Text.blanks r.indent ++ r.term ++ "\n"
  | some text =>
    Text.blanks r.indent ++ Text.padRight (column - r.indent - 2) r.term ++ "  " ++ text ++ "\n"

end UsageRow

/-- The column at which explanations begin: four behind the longest term. -/
def explanationColumn (rows : List UsageRow) : Nat :=
  (rows.map fun r => r.term.length).foldl max 0 + 4

/-- The help of a level. -/
def Level.help (l : Level) : String :=
  let operands := UsageRow.ofOperand l
  let flags := l.flags.map UsageRow.ofFlag
  let render := UsageRow.render (explanationColumn (operands ++ flags))
  l.usage ++ "\n" ++ l.description ++
    "positional arguments:\n" ++ String.join (operands.map render) ++ "\n" ++
    "options:\n" ++ String.join (flags.map render)

/-- What is said of an error. -/
def Level.complaint (l : Level) (e : ArgumentError) : String :=
  l.usage ++ l.program ++ ": error: " ++ e.message ++ "\n"

end Rubylet.CommandLine
