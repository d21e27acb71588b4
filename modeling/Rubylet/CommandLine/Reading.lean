import Rubylet.CommandLine.Syntax
import Rubylet.Text.Character

/-!
# Reading the command line

Every argument of a level is first classified: an operand, the separator `--`, behind which all is
an operand, or a flag. A long flag may be cut short as long as one spelling fits, and its value
may follow a `=`; short flags may be written together. A negative number, and an unknown flag that
contains a blank, are operands.

Then the arguments take effect from left to right, so a request for help is answered although
something behind it is wrong. A command takes everything behind it, and is read by the rules of
its own level. What nobody wants is reported last.
-/

namespace Rubylet.CommandLine

/-! ### Classification -/

/-- A flag as it is written. -/
structure FlagUse where
  flag : Flag
  /-- Two dashes, or one? -/
  isLong : Bool
  value? : Option (List Char)
  deriving Repr, DecidableEq, Inhabited

/-- An argument, classified. -/
inductive Piece where
  | operand (written : String)
  | separator
  /-- A flag; one that the level does not know has no use. -/
  | flag (written : String) (use? : Option FlagUse)
  deriving Repr, DecidableEq, Inhabited

namespace Piece

/-- The argument as it was written. -/
def written : Piece → String
  | operand written | flag written _ => written
  | separator => "--"

end Piece

/-- Divides at the first `=`. -/
def splitAssignment : List Char → List Char × Option (List Char)
  | [] => ([], none)
  | c :: rest =>
    if c = '=' then ([], some rest)
    else
      let (name, value?) := splitAssignment rest
      (c :: name, value?)

/-- Is it a dash and a number in decimal notation? One line feed may follow. -/
def isNegativeNumber : List Char → Bool
  | '-' :: rest =>
    let digits := if rest.getLast? = some '\n' then rest.dropLast else rest
    let fraction := digits.dropWhile Text.isDigit
    match fraction with
    | [] => !digits.isEmpty
    | '.' :: places => !places.isEmpty && places.all Text.isDigit
    | _ => false
  | _ => false

/-- The spellings that an argument may be short for, each with its use. -/
def expansions (l : Level) (cs : List Char) : List (String × FlagUse) :=
  match cs with
  | '-' :: '-' :: _ =>
    let (name, value?) := splitAssignment cs
    (l.spellings.filter fun (s, _) => name.isPrefixOf s.toList).map fun (s, f) =>
      (s, ⟨f, true, value?⟩)
  | dash :: letter :: rest =>
    (l.spellings.filter fun (s, _) => s.toList = [dash, letter]).map fun (s, f) =>
      (s, ⟨f, false, some rest⟩)
  | _ => []

/-- The use of a flag whose spelling is written out, up to the value. -/
def exactUse? (l : Level) (cs : List Char) : Option FlagUse :=
  let (name, value?) := splitAssignment cs
  let isLong := cs.take 2 = ['-', '-']
  match l.flag? (String.ofList cs) with
  | some f => some ⟨f, isLong, none⟩
  | none =>
    match value?, l.flag? (String.ofList name) with
    | some value, some f => some ⟨f, isLong, some value⟩
    | _, _ => none

/-- Classifies an argument in front of the separator. -/
def classify (l : Level) (written : String) : Except ArgumentError Piece :=
  let cs := written.toList
  if cs.head? ≠ some '-' || cs.length = 1 then .ok (.operand written)
  else
    match exactUse? l cs with
    | some use => .ok (.flag written use)
    | none =>
      match expansions l cs with
      -- One spelling fits: the argument is short for it.
      | [(_, use)] => .ok (.flag written use)
      | [] =>
        if isNegativeNumber cs || cs.contains ' ' then .ok (.operand written)
        else .ok (.flag written none)
      | several => .error (.ambiguous written (several.map Prod.fst))

/-- Classifies all arguments. -/
def classifyAll (l : Level) : List String → Except ArgumentError (List Piece)
  | [] => .ok []
  | written :: rest =>
    if written = "--" then .ok (.separator :: rest.map .operand)
    else do return (← classify l written) :: (← classifyAll l rest)

/-! ### Effects -/

/-- What an argument does. -/
inductive Effect where
  | flag (flag : Flag) (value? : Option String)
  | operands (written : List String)
  deriving Repr, DecidableEq, Inhabited

/-- What the arguments of a level do, in order, until one of them is wrong. -/
structure Reading where
  effects : List Effect
  /-- The arguments that nobody wants. -/
  extras : List String
  error? : Option ArgumentError
  deriving Repr, Inhabited

namespace Reading

/-- A reading that stops. -/
def stop (error : ArgumentError) : Reading := ⟨[], [], some error⟩

/-- The reading that begins with some flags. -/
def flags (fs : List Flag) (r : Reading) : Reading :=
  { r with effects := fs.map (.flag · none) ++ r.effects }

/-- The reading that begins with a flag and its value, if the flag takes that value. With the
separator for a value, the flag takes back what was chosen before. -/
def valued (f : Flag) (value : String) (r : Reading) : Reading :=
  if value = "--" then { r with effects := .flag f none :: r.effects }
  else
    match f.choices? with
    | some choices =>
      if choices.contains value then { r with effects := .flag f (some value) :: r.effects }
      else stop (.invalidChoice f.label value choices)
    | none => { r with effects := .flag f (some value) :: r.effects }

/-- The reading that begins with operands. -/
def operands (written : List String) (r : Reading) : Reading :=
  { r with effects := .operands written :: r.effects }

/-- The reading that begins with something that nobody wants. -/
def extra (written : String) (r : Reading) : Reading := { r with extras := written :: r.extras }

end Reading

/-- How a run of flags in one argument ends. -/
inductive BundleEnd where
  | complete
  | value (flag : Flag) (value : String)
  /-- The value of the last flag is the next argument. -/
  | awaits (flag : Flag)
  deriving Repr, DecidableEq, Inhabited

/-- The flags in one argument. -/
structure Bundle where
  flags : List Flag
  ending : BundleEnd
  deriving Repr, DecidableEq, Inhabited

namespace Bundle

/-- A flag that nothing follows in its argument. -/
def alone (f : Flag) : Bundle := if f.takesValue then ⟨[], .awaits f⟩ else ⟨[f], .complete⟩

/-- The bundle that begins with one more flag. -/
def cons (f : Flag) (b : Bundle) : Bundle := { b with flags := f :: b.flags }

/-- The flags in an argument, from a flag with something behind it on. All that is written
together has to make sense: what is no flag is taken for a value that the flag in front has no use
for. -/
def read (l : Level) (f : Flag) (isLong : Bool) (value : List Char) :
    Except ArgumentError Bundle :=
  if f.takesValue then .ok ⟨[], .value f (String.ofList value)⟩
  else
    let ignored := Except.error (ArgumentError.ignoredValue f (String.ofList value))
    if isLong then ignored
    else
      match value with
      | [] => ignored
      | letter :: rest =>
        match l.flag? (String.ofList ['-', letter]) with
        | none => ignored
        | some next =>
          if rest.isEmpty then .ok (cons f (alone next))
          else (read l next false rest).map (cons f)

/-- The flags in an argument. -/
def ofUse (l : Level) (use : FlagUse) : Except ArgumentError Bundle :=
  match use.value? with
  | none => .ok (alone use.flag)
  | some value => read l use.flag use.isLong value

end Bundle

/-- Reads the arguments of a level; `pending` tells whether its operand is still to come. -/
def readPieces (l : Level) : (pending : Bool) → List Piece → Reading
  | pending, [] => ⟨[], [], if pending then some (.missingOperand l.operand) else none⟩
  | true, .operand written :: rest =>
    match l with
    -- The command takes everything behind it, whatever it looks like.
    | .top => Reading.operands (written :: rest.map Piece.written) ⟨[], [], none⟩
    | .command _ =>
      match rest with
      | .separator :: rest => (readPieces l false rest).operands [written]
      | rest => (readPieces l false rest).operands [written]
  | true, .separator :: .operand written :: rest =>
    match l with
    | .top => Reading.operands ("--" :: written :: rest.map Piece.written) ⟨[], [], none⟩
    | .command _ => (readPieces l false rest).operands [written]
  | pending, .flag written use? :: rest =>
    match use?.map (Bundle.ofUse l) with
    | none => (readPieces l pending rest).extra written
    | some (.error e) => .stop e
    | some (.ok ⟨flags, ending⟩) =>
      match ending with
      | .complete => (readPieces l pending rest).flags flags
      | .value f value => ((readPieces l pending rest).valued f value).flags flags
      | .awaits f =>
        match rest with
        | .operand value :: rest => ((readPieces l pending rest).valued f value).flags flags
        | _ => .stop (.missingValue f)
  | pending, piece :: rest => (readPieces l pending rest).extra piece.written

/-- Reads the arguments of a level. -/
def read (l : Level) (args : List String) : Reading :=
  match classifyAll l args with
  | .error e => .stop e
  | .ok pieces => readPieces l true pieces

/-! ### Invocations -/

/-- What is asked of a command. -/
structure Job where
  command : Command
  source : String
  backend? : Option String
  deriving Repr, DecidableEq, Inhabited

/-- What a command line asks for. -/
inductive Invocation where
  | help (level : Level)
  | refused (level : Level) (error : ArgumentError)
  | job (verbosity : Nat) (job : Job)
  deriving Repr, DecidableEq, Inhabited

/-- The effects of the arguments behind a command. -/
def applyAll (job : Job) : List Effect → Except Invocation Job
  | [] => .ok job
  | .flag .help _ :: _ => .error (.help (.command job.command))
  | .flag .backend value? :: rest => applyAll { job with backend? := value? } rest
  | .flag .verbose _ :: rest => applyAll job rest
  | .operands written :: rest => applyAll { job with source := written.headD "" } rest

/-- Reads what stands behind a command: the job, and the arguments that nobody wants. -/
def readJob (c : Command) (args : List String) : Except Invocation (Job × List String) := do
  let reading := read (.command c) args
  let job ← applyAll ⟨c, "", none⟩ reading.effects
  match reading.error? with
  | some e => throw (.refused (.command c) e)
  | none => return (job, reading.extras)

/-- The effects of the arguments of the top level: the verbosity, and the job with the arguments
that nobody wants. -/
def applyTop (verbosity : Nat) (found? : Option (Job × List String)) :
    List Effect → Except Invocation (Nat × Option (Job × List String))
  | [] => .ok (verbosity, found?)
  | .flag .help _ :: _ => .error (.help .top)
  | .flag .verbose _ :: rest => applyTop (verbosity + 1) found? rest
  | .flag .backend _ :: rest => applyTop verbosity found? rest
  | .operands written :: rest => do
    let name := written.headD ""
    match Command.named? name with
    | none =>
      throw (.refused .top (.invalidChoice Level.top.operand name (Command.all.map Command.name)))
    | some c => applyTop verbosity (some (← readJob c written.tail)) rest

/-- What a command line asks for. -/
def invocation (args : List String) : Invocation :=
  let reading := read .top args
  match applyTop 0 none reading.effects with
  | .error i => i
  | .ok (verbosity, found?) =>
    -- What is wrong at the top level comes before what nobody wants.
    match reading.error?, found? with
    | some e, _ => .refused .top e
    | none, none => .refused .top (.missingOperand Level.top.operand)
    | none, some (job, extras) =>
      match reading.extras ++ extras with
      | [] => .job verbosity job
      | extras => .refused .top (.unrecognized extras)

end Rubylet.CommandLine
