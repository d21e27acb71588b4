import Rubylet.Notice
import Rubylet.Text.Basic

/-!
# The log

Notices are written to the log from a threshold on, one line each. The threshold comes from the
command line, or else from the environment, which names it in letters of either case. A name that
stands for nothing counts as no name, but a few things of the log have names and are no thresholds.
-/

namespace Rubylet

/-- What is written to the log. -/
inductive Threshold where
  /-- Notices of a level and those above it. -/
  | atLeast (level : Level)
  | nothing
  deriving Repr, DecidableEq, Inhabited

/-- What else of the log has a name, and cannot be a threshold. -/
inductive Misnomer where
  /-- The layout of a line, a text. -/
  | layout
  /-- The styles of layouts, a table. -/
  | styles
  deriving Repr, DecidableEq, Inhabited

namespace Level

/-- The order of the levels. -/
def severity : Level → Nat
  | debug => 10
  | info => 20
  | warning => 30

/-- How a line of the log names a level, in five columns. -/
def label : Level → String
  | debug => "DEBUG"
  | info => Text.padRight 5 "INFO"
  | warning => "WARNI"

end Level

namespace Threshold

/-- Is a level written? -/
def admits : Threshold → Level → Bool
  | atLeast least, level => least.severity ≤ level.severity
  | nothing, _ => false

/-- The capitals of a letter, as far as they are ASCII letters. A few letters outside ASCII have
such capitals, and some of them two or three. -/
def capitals (c : Char) : List Char :=
  match c with
  | 'ı' => ['I']
  | 'ſ' => ['S']
  | 'ß' => ['S', 'S']
  | 'ﬀ' => ['F', 'F']
  | 'ﬁ' => ['F', 'I']
  | 'ﬂ' => ['F', 'L']
  | 'ﬃ' => ['F', 'F', 'I']
  | 'ﬄ' => ['F', 'F', 'L']
  | 'ﬅ' | 'ﬆ' => ['S', 'T']
  | c => [c.toUpper]

/-- The threshold of a name. A log that is not set admits what it admits by default. -/
def named (name : String) : Except Misnomer Threshold :=
  let name := String.ofList (name.toList.flatMap capitals)
  if name = "DEBUG" then .ok (atLeast .debug)
  else if name = "INFO" then .ok (atLeast .info)
  else if name = "ERROR" || name = "CRITICAL" || name = "FATAL" then .ok nothing
  else if name = "BASIC_FORMAT" then .error .layout
  else if name = "_STYLES" then .error .styles
  else .ok (atLeast .warning)

/-- The threshold asked for. The environment is asked only if the command line says nothing. -/
def choose (verbosity : Nat) (environment? : Option String) : Except Misnomer Threshold :=
  match verbosity with
  | 0 => named (environment?.getD "")
  | 1 => .ok (atLeast .info)
  | _ => .ok (atLeast .debug)

end Threshold

/-- A line of the log. -/
def Notice.line (n : Notice) : String :=
  "[" ++ n.level.label ++ "] " ++ n.channel ++ ": " ++ n.message ++ "\n"

/-- The notices that are written, one after the other. -/
def log (t : Threshold) (notices : List Notice) : String :=
  String.join ((notices.filter fun n => t.admits n.level).map Notice.line)

end Rubylet
