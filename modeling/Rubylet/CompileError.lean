import Rubylet.Diagnostic
import Rubylet.Text.Quoted

/-!
# Compile errors

A compile error is a cause, the place where it arose and, for an ambiguous record, the types that
compete. The wording of every cause is in `Cause.message`, `Cause.notes` and `Cause.label`, its
category in `Cause.category`.

A stage that may also break down answers a `StageError`.
-/

namespace Rubylet

/-- What a parser did not expect. -/
inductive Unexpected where
  | endOfInput
  | endOfLine
  | lexeme (text : String)
  deriving Repr, DecidableEq, Inhabited

/-- How a syntax error names what it found. -/
def Unexpected.describe : Unexpected → String
  | endOfInput => "end of input"
  | endOfLine => "end of line"
  | lexeme text => "`" ++ text ++ "'"

/-- Why a program is refused. -/
inductive Cause where
  | unexpectedCharacter (c : Char)
  /-- The names of the tokens that could have come instead are in increasing order. -/
  | unexpectedToken (found : Unexpected) (expected : List String)
  | duplicateParameter (name : String)
  | invalidEscape (c : Char)
  | unsupportedConstruct (construct : String)
  | nestedClass (inner outer : String)
  | missingOperand (opcode : String)
  | argumentOutsideMethod
  | unopenedMethod (name : String)
  | unopenedClass (name : String)
  | unopenedConditional (opcode : String)
  | unknownInstruction (opcode : String)
  | undefinedLocal (name : String)
  | uninitializedConstant (name : String)
  | undefinedMethod (name : String)
  | undefinedOperation (name : String) (receiver : Ty)
  | wrongArgumentCount (name : String) (given expected : Nat)
  | mismatchedArgument (receiver : Ty) (name : String) (expected given : Ty)
  /-- The names are in increasing order. -/
  | undeterminedClass (names : List String)
  | circularType
  | ambiguousType
  deriving Repr, DecidableEq, Inhabited

namespace Cause

/-- The category of a cause. -/
def category : Cause → Category
  | unexpectedCharacter _ | unexpectedToken _ _ | duplicateParameter _ | invalidEscape _ => .parse
  | unsupportedConstruct _ => .lowering
  | nestedClass _ _ | missingOperand _ | argumentOutsideMethod | unopenedMethod _
  | unopenedClass _ | unopenedConditional _ | unknownInstruction _ => .structural
  | undefinedLocal _ | uninitializedConstant _ | undefinedMethod _ => .unboundReference
  | undefinedOperation _ _ => .unknownOperation
  | wrongArgumentCount _ _ _ | mismatchedArgument _ _ _ _ => .mismatchedType
  | undeterminedClass _ | ambiguousType => .ambiguousType
  | circularType => .cycle

/-- The name of the piece of syntax an error about its type is about. -/
def subject (place : Place) : String :=
  match place.kind? with
  | none => "expression"
  | some kind => kind.describe

/-- The message of a cause that arose at a place. -/
def message (place : Place) : Cause → String
  | unexpectedCharacter c => "syntax error, unexpected character `" ++ c.toString ++ "'"
  | unexpectedToken found _ => "syntax error, unexpected " ++ found.describe
  | duplicateParameter name => "duplicated argument name `" ++ name ++ "'"
  | invalidEscape c => "invalid escape sequence `\\" ++ c.toString ++ "' in string literal"
  | unsupportedConstruct construct => "unsupported construct `" ++ construct ++ "'"
  | nestedClass inner outer => "class `" ++ inner ++ "' nested inside class `" ++ outer ++ "'"
  | missingOperand opcode => "`" ++ opcode ++ "' has no operand to consume"
  | argumentOutsideMethod => "argument fetch outside of any method definition"
  | unopenedMethod name => "`end' of method `" ++ name ++ "' without a definition"
  | unopenedClass name => "`end' of class `" ++ name ++ "' without a definition"
  | unopenedConditional opcode => "`" ++ opcode ++ "' without an open conditional"
  | unknownInstruction opcode => "unknown instruction `" ++ opcode ++ "'"
  | undefinedLocal name => "undefined local variable `" ++ name ++ "'"
  | uninitializedConstant name => "uninitialized constant `" ++ name ++ "'"
  | undefinedMethod name => "undefined method `" ++ name ++ "'"
  | undefinedOperation name receiver =>
    "undefined method `" ++ name ++ "' for " ++ receiver.name
  | wrongArgumentCount name given expected =>
    "wrong number of arguments for `" ++ name ++ "' (given " ++ toString given ++
      ", expected " ++ toString expected ++ ")"
  | mismatchedArgument receiver name _ _ =>
    "Mismatched argument type for `" ++ receiver.name ++ "#" ++ name ++ "'"
  | undeterminedClass _ => "Could not determine which class is instantiated by `new'"
  | circularType | ambiguousType => "Could not determine type of " ++ subject place

/-- The notes of a cause. -/
def notes : Cause → List String
  | unexpectedToken _ (first :: rest) =>
    ["expected one of: " ++ ", ".intercalate (first :: rest)]
  | mismatchedArgument _ _ expected given =>
    ["expected " ++ expected.name ++ ", got " ++ given.name]
  | undeterminedClass (first :: rest) => ["candidates: " ++ Text.quoteAll (first :: rest)]
  | circularType => ["Its type depends on itself."]
  | _ => []

/-- The label of the caret. -/
def label : Cause → String
  | mismatchedArgument _ _ _ given => given.name ++ " given here"
  | circularType => "cycle closes here"
  | _ => defaultLabel

end Cause

/-- A compile error. -/
structure CompileError where
  cause : Cause
  place : Place
  candidates : List Candidate := []
  deriving Repr, DecidableEq, Inhabited

namespace CompileError

/-- An error at a piece of syntax. -/
def atOrigin (origin : Origin) (cause : Cause) : CompileError := { cause, place := .node origin }

/-- An error at a position of the text. -/
def atPos (pos : Pos) (cause : Cause) : CompileError := { cause, place := .text pos }

/-- What the error reports. -/
def diagnostic (e : CompileError) : Diagnostic :=
  .report e.cause.category e.place (e.cause.message e.place) e.cause.label e.candidates
    e.cause.notes

/-- The error as it is shown, against the program text if there is one. -/
def render (e : CompileError) (source : Option String) : String := e.diagnostic.render source

end CompileError

/-- Why a stage of the compiler has no result. -/
inductive StageError where
  /-- The program is refused. -/
  | compile (error : CompileError)
  /-- The stage itself breaks down. -/
  | fault (fault : Fault)
  deriving Repr, DecidableEq, Inhabited

/-! ### Results

Every stage answers a result or an error, and hands it to the next one. -/

section

variable {ε ε' α β : Type} {x : Except ε α} {f : α → Except ε β}

theorem exists_of_isOk (h : x.isOk) : ∃ a, x = .ok a := by
  cases x with
  | error e => cases h
  | ok a => exact ⟨a, rfl⟩

/-- What goes through has gone through its first part. -/
theorem exists_of_bind_eq_ok {b : β} (h : (x >>= f) = .ok b) : ∃ a, x = .ok a ∧ f a = .ok b := by
  cases x with
  | error e => cases h
  | ok a => exact ⟨a, rfl, h⟩

/-- What is made from a result is made from some result. -/
theorem exists_of_map_eq_ok {g : α → β} {b : β} (h : x.map g = .ok b) :
    ∃ a, x = .ok a ∧ g a = b := by
  cases x with
  | error e => cases h
  | ok a => exact ⟨a, rfl, Except.ok.inj h⟩

/-- What fails, fails in one of its parts. -/
theorem error_of_bind_eq_error {e : ε} (h : (x >>= f) = .error e) :
    x = .error e ∨ ∃ a, x = .ok a ∧ f a = .error e := by
  cases x with
  | error e' => exact .inl (congrArg _ (Except.error.inj h))
  | ok a => exact .inr ⟨a, rfl, h⟩

/-- A list fails at one of its elements. -/
theorem exists_of_mapM_eq_error {xs : List α} {e : ε} (h : xs.mapM f = .error e) :
    ∃ a ∈ xs, f a = .error e := by
  induction xs with
  | nil => cases h
  | cons a rest ih =>
    rw [List.mapM_cons] at h
    rcases error_of_bind_eq_error h with hfirst | ⟨b, -, h⟩
    · exact ⟨a, .head _, hfirst⟩
    · rcases error_of_bind_eq_error h with hrest | ⟨bs, -, h⟩
      · obtain ⟨a', hmem, ha'⟩ := ih hrest
        exact ⟨a', .tail _ hmem, ha'⟩
      · cases h

/-- Errors may be named in the end. -/
theorem bind_mapError (x : Except ε α) (g : ε → ε') (f : α → Except ε β) :
    (x.mapError g >>= fun a => (f a).mapError g) = (x >>= f).mapError g := by
  cases x <;> rfl

/-- Renaming errors changes no answer. -/
theorem mapError_eq_ok_iff {g : ε → ε'} {a : α} : x.mapError g = .ok a ↔ x = .ok a := by
  cases x with
  | error e => constructor <;> intro h <;> cases h
  | ok a' => constructor <;> intro h <;> cases h <;> rfl

/-- A renamed error has been an error before. -/
theorem mapError_eq_error_iff {g : ε → ε'} {e : ε'} :
    x.mapError g = .error e ↔ ∃ e', x = .error e' ∧ g e' = e := by
  constructor
  · intro h
    cases x with
    | error e' => exact ⟨e', rfl, Except.error.inj h⟩
    | ok a => cases h
  · rintro ⟨e', rfl, rfl⟩
    rfl

end

end Rubylet
