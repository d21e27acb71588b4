import Rubylet.Backend
import Rubylet.Text.Quoted

/-!
# The syntax of the command line

The command line has two levels: the flags of the program, one of three commands, and behind it
the flags of that command and the source. Here is what can be written; `CommandLine.Reading` says
how it is read, and `CommandLine.Usage` how it is explained.
-/

namespace Rubylet.CommandLine

/-- The commands. -/
inductive Command where
  | run
  | check
  | ir
  deriving Repr, DecidableEq, Inhabited

namespace Command

/-- The name of a command. -/
def name : Command → String
  | run => "run"
  | check => "check"
  | ir => "ir"

/-- What a command does. -/
def summary : Command → String
  | run => "Type-check a program and execute it"
  | check => "Type-check a program and print the typed IR"
  | ir => "Print the untyped IR of a program"

/-- All commands. -/
def all : List Command := [run, check, ir]

/-- The command of a name. -/
def named? (name : String) : Option Command := all.find? fun c => c.name = name

/-- A command is found by its name. -/
@[simp] theorem named?_name (c : Command) : named? c.name = some c := by
  cases c <;> decide

end Command

/-- The flags. -/
inductive Flag where
  | help
  | verbose
  | backend
  deriving Repr, DecidableEq, Inhabited

namespace Flag

/-- The spellings of a flag. -/
def spellings : Flag → List String
  | help => ["-h", "--help"]
  | verbose => ["-v", "--verbose"]
  | backend => ["--backend"]

/-- The values of which a flag takes one. -/
def choices? : Flag → Option (List String)
  | backend => some (Backend.all.map Backend.name)
  | _ => none

/-- Does a flag take a value? -/
def takesValue (f : Flag) : Bool := f.choices?.isSome

/-- What a flag does. -/
def summary : Flag → String
  | help => "show this help message and exit"
  | verbose => "Increase log verbosity (-v info, -vv debug)"
  | backend => "Execution backend (default: $TIX_BACKEND or vm)"

/-- How an error names a flag. -/
def label (f : Flag) : String := "/".intercalate f.spellings

end Flag

/-- Where on the command line something is written. -/
inductive Level where
  | top
  | command (c : Command)
  deriving Repr, DecidableEq, Inhabited

namespace Level

/-- The words that lead to a level. -/
def program : Level → String
  | top => "tix"
  | command c => "tix " ++ c.name

/-- The flags of a level. -/
def flags : Level → List Flag
  | top => [.help, .verbose]
  | command .run => [.help, .backend]
  | command _ => [.help]

/-- The spellings of all flags of a level. -/
def spellings (l : Level) : List (String × Flag) :=
  l.flags.flatMap fun f => f.spellings.map fun s => (s, f)

/-- The flag of a spelling. -/
def flag? (l : Level) (spelling : String) : Option Flag :=
  (l.spellings.find? fun (s, _) => s = spelling).map Prod.snd

/-- What is written at a level besides flags. -/
def operand : Level → String
  | top => "cmd"
  | command _ => "source"

end Level

/-- Why a command line is refused. -/
inductive ArgumentError where
  | ambiguous (written : String) (spellings : List String)
  | missingValue (flag : Flag)
  | ignoredValue (flag : Flag) (value : String)
  | invalidChoice (label value : String) (choices : List String)
  | missingOperand (name : String)
  | unrecognized (written : List String)
  | unknownBackend (message : String)
  deriving Repr, DecidableEq, Inhabited

/-- The message of an error. -/
def ArgumentError.message : ArgumentError → String
  | ambiguous written spellings =>
    "ambiguous option: " ++ written ++ " could match " ++ ", ".intercalate spellings
  | missingValue flag => "argument " ++ flag.label ++ ": expected one argument"
  | ignoredValue flag value =>
    "argument " ++ flag.label ++ ": ignored explicit argument " ++ Text.quote value
  | invalidChoice label value choices =>
    "argument " ++ label ++ ": invalid choice: " ++ Text.quote value ++ " (choose from " ++
      ", ".intercalate (choices.map Text.quote) ++ ")"
  | missingOperand name => "the following arguments are required: " ++ name
  | unrecognized written => "unrecognized arguments: " ++ " ".intercalate written
  | unknownBackend message => message

end Rubylet.CommandLine
