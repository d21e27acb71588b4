import Rubylet.CompileError
import Rubylet.Fault
import Rubylet.Inference
import Rubylet.Value

/-!
# Backends

What the two backends have in common: the errors they raise at a record. A backend is handed typed
code and takes it by its word, so code that no program lowers to may also lead it into a fault.
-/

namespace Rubylet

/-- The backends. -/
inductive Backend where
  | vm
  | jit
  deriving Repr, DecidableEq, Inhabited

namespace Backend

/-- The name of a backend. -/
def name : Backend → String
  | vm => "vm"
  | jit => "jit"

/-- All backends. -/
def all : List Backend := [vm, jit]

/-- The backend of a name. -/
def named? (name : String) : Option Backend := all.find? fun b => b.name = name

/-- A backend is found by its name. -/
@[simp] theorem named?_name (b : Backend) : named? b.name = some b := by
  cases b <;> decide

/-- The error of a name that no backend has. -/
def unknownMessage (name : String) : String :=
  "unknown backend `" ++ name ++ "' (expected one of: " ++
    ", ".intercalate (all.map Backend.name) ++ ")"

/-- The backend of a name, or the error. -/
def require (name : String) : Except String Backend :=
  match named? name with
  | some backend => .ok backend
  | none => .error (unknownMessage name)

/-- The backend asked for. An explicit name that is not empty wins over the environment. -/
def choose (explicit? environment? : Option String) : Except String Backend :=
  require (((explicit?.filter fun name => !name.isEmpty).or environment?).getD vm.name)

end Backend

/-- Why a backend fails at a record. -/
inductive BackendCause where
  | untyped (verb opcode : String) (record : Nat)
  | unterminatedBlock
  | unknownInstruction (opcode : String)
  | stackTooDeep
  | undefinedForNil (name : String)
  | undefinedForClass (name className : String)
  /-- The receiver as it is shown. -/
  | undefinedForValue (name receiver : String)
  /-- The arguments as they are shown. -/
  | noConversion (name : String) (args : List String)
  | dividedByZero
  | unsupportedType (type : Ty)
  | unsupportedClasses
  | nestedMethod (name : String)
  | noSlot (name : String)
  | unavailableMethod (name : String)
  | stringOperator (name : String)
  | callsOn (type : Ty)
  | undefinedForInt (name : String)
  deriving Repr, DecidableEq, Inhabited

/-- A receiver without an operator of a name. -/
def BackendCause.undefinedFor (name : String) (receiver : Value) : Except Fault BackendCause := do
  return .undefinedForValue name (← receiver.inspect)

/-- Arguments that an operator does not take. -/
def BackendCause.unconverted (name : String) (args : List Value) : Except Fault BackendCause := do
  return .noConversion name (← args.mapM Value.inspect)

/-- What keeps a message that names the receiver from being put together is its digits. -/
theorem BackendCause.error_of_undefinedFor {name : String} {receiver : Value} {f : Fault}
    (h : undefinedFor name receiver = .error f) : f = .tooManyDigits := by
  rcases error_of_bind_eq_error h with h | ⟨shown, -, h⟩
  · exact Value.error_of_inspect h
  · cases h

theorem BackendCause.eq_of_unconverted {name : String} {args : List Value} {cause : BackendCause}
    (h : unconverted name args = .ok cause) : ∃ shown, cause = .noConversion name shown := by
  obtain ⟨shown, -, h⟩ := exists_of_bind_eq_ok h
  exact ⟨shown, (Except.ok.inj h).symm⟩

/-- The same goes for a message that shows the arguments. -/
theorem BackendCause.error_of_unconverted {name : String} {args : List Value} {f : Fault}
    (h : unconverted name args = .error f) : f = .tooManyDigits := by
  rcases error_of_bind_eq_error h with h | ⟨shown, -, h⟩
  · obtain ⟨v, -, hv⟩ := exists_of_mapM_eq_error h
    exact Value.error_of_inspect hv
  · cases h

/-- The message of a cause. -/
def BackendCause.message : BackendCause → String
  | untyped verb opcode record =>
    "refusing to " ++ verb ++ " untyped `" ++ opcode ++ "' record #" ++ toString record
  | unterminatedBlock => "unterminated block"
  | unknownInstruction opcode => "unknown instruction `" ++ opcode ++ "'"
  | stackTooDeep => "stack level too deep"
  | undefinedForNil name => "undefined method `" ++ name ++ "' for nil"
  | undefinedForClass name className => "undefined method `" ++ name ++ "' for class " ++ className
  | undefinedForValue name receiver => "undefined method `" ++ name ++ "' for " ++ receiver
  | noConversion name args =>
    "no implicit conversion for `" ++ name ++ "' (" ++ ", ".intercalate args ++ ")"
  | dividedByZero => "divided by 0"
  | unsupportedType type => "values of type " ++ type.name ++ " are not supported by the JIT"
  | unsupportedClasses => "classes are not supported by the JIT"
  | nestedMethod name => "nested method `" ++ name ++ "' is not supported by the JIT"
  | noSlot name => "no stack slot for local `" ++ name ++ "'"
  | unavailableMethod name => "method `" ++ name ++ "' is not available to the JIT"
  | stringOperator name => "string operator `" ++ name ++ "' is not supported by the JIT"
  | callsOn type => "calls on " ++ type.name ++ " are not supported by the JIT"
  | undefinedForInt name => "undefined method `" ++ name ++ "' for int"

/-- A message and the position it is about. -/
def locate (message : String) : Option Pos → String
  | none => message
  | some pos =>
    message ++ " on line " ++ toString pos.line ++ ", column " ++ toString pos.column

/-- The failure of a backend at a record. -/
structure BackendError where
  cause : BackendCause
  record : Nat
  pos : Pos
  deriving Repr, DecidableEq, Inhabited

/-- The message of a failure, with its position. -/
def BackendError.message (e : BackendError) : String := locate e.cause.message (some e.pos)

/-- How a run can end without a value. -/
inductive RunError where
  | failed (error : BackendError)
  /-- The code cannot be replayed. -/
  | structural (error : CompileError)
  | fault (fault : Fault)
  /-- The run did not end within its budget. -/
  | unfinished
  deriving Repr, DecidableEq, Inhabited

/-- The failure at an instruction. -/
def RunError.failedAt (record : Nat) (i : Instruction) (cause : BackendCause) : RunError :=
  .failed ⟨cause, record, i.origin.pos⟩

/-- The failure at a record whose message shows values. It is a fault if one cannot be shown. -/
def RunError.showing (record : Nat) (pos : Pos) : Except Fault BackendCause → RunError
  | .ok cause => .failed ⟨cause, record, pos⟩
  | .error f => .fault f

/-- Refuses records without a type. -/
def requireTypes (verb : String) (records : List TypedRecord) : Except RunError Unit :=
  match firstUntyped? records with
  | none => .ok ()
  | some (n, r) => .error (.failedAt n r.instruction (.untyped verb r.instruction.op.opcode n))

end Rubylet
