import Rubylet.CompileError
import Rubylet.Instruction
import Rubylet.Replay.OperandStack

/-!
# Replaying the stack discipline

Operands are implied by the order of the instructions. A replay goes through the instructions
once, in text order, and finds for each of them the records it consumes. A record is named by the
number of its instruction.

| instruction                    | effect                                                       |
|--------------------------------|--------------------------------------------------------------|
| pushes                         | push the record itself                                       |
| `setVar`                       | pops the assigned value                                      |
| `send`                         | pops the arguments and the receiver, pushes the call         |
| `defStart`                     | opens a method and a frame                                   |
| `defEnd`                       | pops the body's value, closes both, pushes the value outside |
| `classStart`, `classEnd`       | open and close a class and a frame                           |
| `ifStart`                      | pops the condition                                           |
| `ifElse`                       | pops the value of the first branch                           |
| `ifEnd`                        | pops the value of the second branch, pushes the conditional  |

A branch keeps only its final value. What an instruction consumes is answered as an `Event`, so
every later stage (the dependency graph, the native backend) is a fold over the events of one
replay and cannot disagree with another one about what is on the stack.

Any list of instructions can be replayed: it either ends or stops at a structural error.
-/

namespace Rubylet.Replay

/-- What an instruction consumes, by the numbers of the records. -/
inductive Event where
  | literal
  | pushConst
  | pushVar
  | pushArg (method : Nat)
  | setVar (value : Nat)
  | send (receiver : Nat) (args : List Nat)
  /-- The class around the method, if there is one. -/
  | defStart (owner : Option String)
  | defEnd (method result : Nat)
  | classStart
  | classEnd (opened : Nat)
  | ifStart (condition : Nat)
  | ifElse (opened value : Nat)
  | ifEnd (opened value : Nat)
  deriving Repr, DecidableEq, Inhabited

/-- An open conditional, and the height its branches start from. -/
structure OpenIf where
  opened : Nat
  height : Nat
  deriving Repr, DecidableEq, Inhabited

/-- An open class. -/
structure OpenClass where
  opened : Nat
  name : String
  deriving Repr, DecidableEq, Inhabited

/-- The state of a replay. All stacks have their top first. -/
structure State where
  /-- The operands of the innermost frame. -/
  stack : List Nat
  /-- The operands of the frames around it. -/
  outer : List (List Nat)
  ifs : List OpenIf
  defs : List Nat
  classes : List OpenClass
  deriving Repr, DecidableEq, Inhabited

namespace State

/-- Before the first instruction. -/
def initial : State := ⟨[], [], [], [], []⟩

/-- All frames, the innermost first. -/
def frames (s : State) : List (List Nat) := s.stack :: s.outer

/-- The class whose body is open. -/
def currentClass (s : State) : Option String := s.classes.head?.map OpenClass.name

/-- The record on top of the innermost frame. -/
def top? (s : State) : Option Nat := OperandStack.peek s.stack

/-- Pushes a record. -/
def push (s : State) (record : Nat) : State := { s with stack := record :: s.stack }

/-- Opens a frame. -/
def openFrame (s : State) : State := { s with stack := [], outer := s.stack :: s.outer }

/-- Closes the innermost frame. -/
def closeFrame (s : State) : State :=
  { s with stack := s.outer.headD [], outer := s.outer.tail }

end State

/-- The error of an instruction. -/
def refuse {α : Type} (i : Instruction) (cause : Cause) : Except CompileError α :=
  throw (.atOrigin i.origin cause)

/-- The error of an instruction that lacks an operand. -/
def missingOperand (i : Instruction) : CompileError :=
  .atOrigin i.origin (.missingOperand i.op.opcode)

/-- Pops one operand above a height. -/
def pop (i : Instruction) (floor : Nat) (s : State) : Except CompileError (Nat × State) :=
  match OperandStack.pop floor s.stack with
  | some (value, stack) => .ok (value, { s with stack })
  | none => throw (missingOperand i)

/-- The innermost open conditional. -/
def openIf (i : Instruction) (s : State) : Except CompileError OpenIf :=
  match s.ifs with
  | opened :: _ => .ok opened
  | [] => refuse i (.unopenedConditional i.op.opcode)

/-- Replays the instruction with a given number. -/
def step (number : Nat) (i : Instruction) (s : State) : Except CompileError (Event × State) :=
  match i.op with
  | .pushNil | .pushInt _ | .pushStr _ => .ok (.literal, s.push number)
  | .pushConst _ => .ok (.pushConst, s.push number)
  | .pushVar _ => .ok (.pushVar, s.push number)
  | .pushArg _ =>
    match s.defs with
    | [] => refuse i .argumentOutsideMethod
    | method :: _ => .ok (.pushArg method, s.push number)
  | .setVar _ => do
    let (value, s) ← pop i 0 s
    return (.setVar value, s)
  | .send _ _ =>
    match OperandStack.popMany i.op.argCount s.stack with
    | (none, _) => throw (missingOperand i)
    | (some args, stack) => do
      let (receiver, s) ← pop i 0 { s with stack }
      return (.send receiver args, s.push number)
  | .defStart _ =>
    .ok (.defStart s.currentClass, { s with defs := number :: s.defs }.openFrame)
  | .defEnd name =>
    match s.defs with
    | [] => refuse i (.unopenedMethod name)
    | method :: defs => do
      let (result, s) ← pop i 0 s
      return (.defEnd method result, ({ s with defs }.closeFrame).push result)
  | .classStart name =>
    match s.classes with
    | outer :: _ => refuse i (.nestedClass name outer.name)
    | [] => .ok (.classStart, { s with classes := [⟨number, name⟩] }.openFrame)
  | .classEnd name =>
    match s.classes with
    | [] => refuse i (.unopenedClass name)
    | opened :: classes => .ok (.classEnd opened.opened, { s with classes }.closeFrame)
  | .ifStart => do
    let (condition, s) ← pop i 0 s
    -- The height is noted after the condition has been taken.
    return (.ifStart condition, { s with ifs := ⟨number, s.stack.length⟩ :: s.ifs })
  | .ifElse => do
    let opened ← openIf i s
    let (value, s) ← pop i opened.height s
    -- The value of the first branch is only looked at, and dropped with all above the height.
    return (.ifElse opened.opened value,
      { s with stack := OperandStack.truncate opened.height s.stack })
  | .ifEnd => do
    let opened ← openIf i s
    let (value, s) ← pop i opened.height s
    -- The conditional is known by the record that opened it.
    return (.ifEnd opened.opened value,
      { s with
        stack := opened.opened :: OperandStack.truncate opened.height s.stack
        ifs := s.ifs.tail })
  | .unknown opcode _ => refuse i (.unknownInstruction opcode)

/-- One replayed instruction. -/
structure Step where
  number : Nat
  instruction : Instruction
  event : Event
  /-- The state after it. -/
  after : State
  deriving Repr, Inhabited

/-- A replay as far as it went, and the error that stopped it. -/
structure Trace where
  steps : List Step
  /-- The state after the last step. -/
  final : State
  error? : Option CompileError
  deriving Repr, Inhabited

/-- The trace that begins with one more step. -/
def Trace.cons (s : Step) (t : Trace) : Trace := { t with steps := s :: t.steps }

/-- Replays instructions from a state on. -/
def traceFrom (number : Nat) (s : State) : List Instruction → Trace
  | [] => ⟨[], s, none⟩
  | i :: rest =>
    match step number i s with
    | .error e => ⟨[], s, some e⟩
    | .ok (event, after) =>
      (traceFrom (number + 1) after rest).cons ⟨number, i, event, after⟩

/-- Replays a list of instructions. -/
def trace (code : List Instruction) : Trace := traceFrom 0 .initial code

/-- The result of a stage that learns from each step in turn, and may refuse one. What was learned
before a refusal is kept. -/
def fold {σ ε : Type} (f : σ → Step → Except ε σ) (s : σ) : List Step → σ × Option ε
  | [] => (s, none)
  | step :: rest =>
    match f s step with
    | .error e => (s, some e)
    | .ok s => fold f s rest

end Rubylet.Replay
