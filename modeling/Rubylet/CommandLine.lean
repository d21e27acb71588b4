import Rubylet.CommandLine.Directory
import Rubylet.CommandLine.Reading
import Rubylet.CommandLine.Usage
import Rubylet.Instruction.Listing
import Rubylet.Log
import Rubylet.Program

/-!
# The command line

A command line is answered in two steps, because what it asks for decides which source is read.
`CommandLine.plan` reads the arguments: it ends at once with help or a complaint, or names
a source. `CommandLine.perform` takes the content of the source, or the reason why there is none.

Results go to the output. The log, and what is wrong with a program, go to the errors. `process_answers`
says what the output and the status have to do with the answer to a command.
-/

namespace Rubylet.CommandLine

/-- What the environment says. -/
structure Environment where
  backend? : Option String
  logLevel? : Option String
  deriving Repr, DecidableEq, Inhabited

/-- Why the program breaks down. -/
inductive Breakdown where
  /-- A source that is no UTF-8 text. -/
  | undecodable
  /-- A path with a NUL in it. -/
  | brokenPath
  /-- A name for the threshold of the log that names something else. -/
  | misnamed (misnomer : Misnomer)
  | fault (fault : Fault)
  | unfinished
  deriving Repr, DecidableEq, Inhabited

/-- How the program ends. -/
inductive Ending where
  | exit (status : Nat)
  | breakdown (reason : Breakdown)
  deriving Repr, DecidableEq, Inhabited

/-- What the program leaves behind. -/
structure Outcome where
  ending : Ending
  output : String
  errors : String
  deriving Repr, DecidableEq, Inhabited

/-- A command whose arguments are complete. -/
structure Settings where
  threshold : Threshold
  command : Command
  source : String
  backend : Backend
  deriving Repr, DecidableEq, Inhabited

namespace Settings

/-- Is the source the standard input? -/
def readsInput (s : Settings) : Bool := s.source = "-"

end Settings

/-- What there is to do. -/
inductive Plan where
  | finish (outcome : Outcome)
  | process (settings : Settings)
  deriving Repr, DecidableEq, Inhabited

/-- A complaint about the arguments. -/
def refuse (l : Level) (e : ArgumentError) : Plan := .finish ⟨.exit 2, "", l.complaint e⟩

/-- The backend of a job. Only a run needs one. -/
def backendOf (env : Environment) (job : Job) : Except String Backend :=
  match job.command with
  | .run => Backend.choose job.backend? env.backend?
  | _ => .ok default

/-- Reads the arguments. -/
def plan (env : Environment) (args : List String) : Plan :=
  match invocation args with
  | .help level => .finish ⟨.exit 0, level.help, ""⟩
  | .refused level e => refuse level e
  | .job verbosity job =>
    match Threshold.choose verbosity env.logLevel? with
    | .error misnomer => .finish ⟨.breakdown (.misnamed misnomer), "", ""⟩
    | .ok threshold =>
      -- The log is set up before the backend is chosen, and both before the source is opened.
      match backendOf env job with
      | .error message => refuse .top (.unknownBackend message)
      | .ok backend =>
        if job.source.contains '\x00' then .finish ⟨.breakdown .brokenPath, "", ""⟩
        else .process ⟨threshold, job.command, job.source, backend⟩

/-- A value as it is shown. -/
def shown (value : Value) : Except Failure String :=
  value.inspect.mapError fun f => .run (.fault f)

/-- Carries out a command on a program, where there is room for texts up to a length of `memory`. -/
def report (memory : Nat) (s : Settings) (text : String) : Program.Report String :=
  match s.command with
  | .ir => (Program.reportCode text).map Listing.untyped
  | .check => (Program.reportTyped text).map Listing.typed
  | .run => (Program.reportValue memory s.backend text).bind shown

/-- What a failure leaves behind, besides the log. -/
def failure (s : Settings) (text : String) : Failure → Outcome
  | .stage (.compile e) => ⟨.exit 1, "", e.render (some text)⟩
  | .stage (.fault f) | .run (.fault f) => ⟨.breakdown (.fault f), "", ""⟩
  | .run (.structural e) => ⟨.exit 1, "", e.render none⟩
  | .run (.failed e) => ⟨.exit 1, "", "tix: " ++ s.command.name ++ ": " ++ e.message ++ "\n"⟩
  | .run .unfinished => ⟨.breakdown .unfinished, "", ""⟩

/-- Carries out a command on the text of a program. -/
def process (memory : Nat) (s : Settings) (text : String) : Outcome :=
  let report := report memory s text
  let log := log s.threshold (.readSource text.length s.source :: report.notices)
  match report.result with
  | .ok result => ⟨.exit 0, result ++ "\n", log⟩
  | .error e =>
    let outcome := failure s text e
    { outcome with errors := log ++ outcome.errors }

/-- What a command answers about a program: its code, its typed code, or its value as it is shown. -/
def answer (memory : Nat) (s : Settings) (text : String) : Except Failure String :=
  match s.command with
  | .ir => ((Program.code text).mapError .stage).map Listing.untyped
  | .check => ((Program.typed text).mapError .stage).map Listing.typed
  | .run => Program.value memory s.backend text >>= shown

/-- The report of a command is about its answer, whatever the stages had to say on the way. -/
theorem result_report (memory : Nat) (s : Settings) (text : String) :
    (report memory s text).result = answer memory s text := by
  unfold report answer
  cases s.command with
  | ir => rw [Program.Report.result_map, Program.reportCode, Program.Report.result_telling]
  | check => rw [Program.Report.result_map, Program.result_reportTyped]
  | run =>
    rw [Program.Report.result_bind, Program.result_reportValue]
    rfl

/-- **A command succeeds just in case it has an answer**, and then the answer is all that it writes
to the output. Otherwise it writes nothing there. -/
theorem process_answers (memory : Nat) (s : Settings) (text : String) :
    match answer memory s text with
    | .ok result =>
      (process memory s text).ending = .exit 0 ∧
        (process memory s text).output = result ++ "\n"
    | .error _ =>
      (process memory s text).ending ≠ .exit 0 ∧ (process memory s text).output = "" := by
  have hresult := result_report memory s text
  cases hanswer : answer memory s text with
  | ok result =>
    rw [hanswer] at hresult
    simp only [process, hresult, and_self]
  | error e =>
    rw [hanswer] at hresult
    simp only [process, hresult]
    -- No failure ends with status zero, and none leaves anything on the output.
    unfold failure
    split <;> exact ⟨nofun, rfl⟩

/-- Carries out a command, given the content of its source. -/
def perform (memory : Nat) (s : Settings) (content : Except ReadError ByteArray) : Outcome :=
  match content with
  | .error e => ⟨.exit 2, "", "tix: cannot read " ++ s.source ++ ": " ++ e.reason ++ "\n"⟩
  | .ok bytes =>
    match String.fromUTF8? bytes with
    | none => ⟨.breakdown .undecodable, "", ""⟩
    | some text => process memory s (Text.normalizeNewlines text)

/-- What the program leaves behind when it is run in a directory. -/
def run (memory : Nat) (env : Environment) (input : ByteArray) (d : Directory)
    (args : List String) : Outcome :=
  match plan env args with
  | .finish outcome => outcome
  | .process s => perform memory s (if s.readsInput then .ok input else d.read s.source)

end Rubylet.CommandLine
