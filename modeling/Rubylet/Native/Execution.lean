import Rubylet.Native.Emission

/-!
# Execution of native code

A division by zero does not stop native code: the first one leaves its record behind, and is
reported when the run has ended.

Which calls are made does not depend on values, so a program that calls itself does not end. A
chain of calls that is longer than the number of functions contains one twice; the depth of calls
is bounded by that number.
-/

namespace Rubylet.Native

/-- A value at run time. -/
inductive Cell where
  | word (value : Word)
  | pointer (text? : Option String)
  /-- The content of a slot that was never written, and what is computed from it. -/
  | undefined
  deriving Repr, DecidableEq, Inhabited

/-- The value of a program, as the language sees it: a word is signed, and a string ends at its
first NUL. -/
def Cell.value? : Cell → Option Value
  | word w => some (.int w.toInt)
  | pointer none => some .nil
  | pointer (some s) => some (.str (String.ofList (s.toList.takeWhile (· ≠ '\x00'))))
  | undefined => none

/-- A running function. -/
structure Frame where
  args : List Cell
  slots : Table String Cell
  results : Table Nat Cell
  /-- The first division by zero so far, by record. -/
  fault? : Option Nat
  deriving Repr, Inhabited

namespace Frame

/-- The value of an operand. -/
def operand (f : Frame) : Operand → Except RunError Cell
  | .word value => .ok (.word value)
  | .text value => .ok (.pointer (some value))
  | .null => .ok (.pointer none)
  | .result record _ =>
    match f.results.get? record with
    | some cell => .ok cell
    | none => misfit
  | .argument index _ =>
    match f.args[index]? with
    | some cell => .ok cell
    | none => misfit

/-- The values of several operands. -/
def operands (f : Frame) (os : List Operand) : Except RunError (List Cell) := os.mapM f.operand

/-- Writes the result of an instruction. -/
def setResult (f : Frame) (record : Nat) (cell : Cell) : Frame :=
  { f with results := f.results.set record cell }

/-- Remembers a division by zero, if it is the first one. -/
def flag (f : Frame) (record : Nat) : Frame := { f with fault? := f.fault?.or (some record) }

/-- An arithmetic instruction. -/
def arith (f : Frame) (record : Nat) (op : Arith) : Cell → Cell → Except RunError Frame
  | .word a, .word b =>
    let f := if op = .divide && b = 0 then f.flag record else f
    .ok (f.setResult record
      (match op.eval? a b with
        | some c => .word c
        | none => .undefined))
  -- No sound program hands a pointer to arithmetic.
  | .pointer _, _ | _, .pointer _ => misfit
  | _, _ => .ok (f.setResult record .undefined)

end Frame

/-- How a function is called: its definition, its arguments and the first fault so far. It answers
its value and the first fault. -/
abbrev Caller := Nat → List Cell → Option Nat → Except RunError (Cell × Option Nat)

mutual

/-- Executes an instruction. -/
def Inst.exec (call : Caller) (f : Frame) : Inst → Except RunError Frame
  | .store name value => do return { f with slots := f.slots.set name (← f.operand value) }
  | .load record name => .ok (f.setResult record ((f.slots.get? name).getD .undefined))
  | .arith record op left right => do f.arith record op (← f.operand left) (← f.operand right)
  | .call record method args => do
    let (cell, fault?) ← call method (← f.operands args) f.fault?
    return { f with fault? }.setResult record cell
  | .branch record taken first firstValue second secondValue =>
    if taken then do
      let f ← execAll call f first
      return f.setResult record (← f.operand firstValue)
    else do
      let f ← execAll call f second
      return f.setResult record (← f.operand secondValue)

/-- Executes instructions in turn. -/
def execAll (call : Caller) (f : Frame) : List Inst → Except RunError Frame
  | [] => .ok f
  | i :: rest => do execAll call (← i.exec call f) rest

end

/-- Executes a body. -/
def Body.exec (call : Caller) (b : Body) (args : List Cell) (fault? : Option Nat) :
    Except RunError (Cell × Option Nat) := do
  let f ← execAll call ⟨args, .empty, .empty, fault?⟩ b.code
  return (← f.operand b.value, f.fault?)

namespace Program

/-- Calls the function of a definition; calls may be nested to a depth. -/
def call (p : Program) : (depth : Nat) → Caller
  | 0, _, _, _ => .error .unfinished
  | depth + 1, method, args, fault? =>
    match p.functions.get? method with
    | some function => function.body.exec (p.call depth) args fault?
    | none => misfit

/-- Runs the main body: its value and the first division by zero. -/
def execute (p : Program) : Except RunError (Cell × Option Nat) :=
  p.main.exec (p.call p.functions.size) [] none

/-- The value of a program that was emitted for some records. -/
def value (p : Program) (records : List TypedRecord) : Except RunError Value := do
  if !p.isSound then misfit
  else
    let (cell, fault?) ← p.execute
    match fault? with
    | some n => throw (.failedAt n (records.getD n default).instruction .dividedByZero)
    | none =>
      match cell.value? with
      | some value => return value
      | none => misfit

/-- What there is to say about an emitted program. -/
def notices (p : Program) : List Notice := [.emitted (p.functions.size + 1)]

end Program

/-- The value of typed code, run as native code. -/
def run (records : List TypedRecord) : Except RunError Value := do
  (← compile records).value records

end Rubylet.Native
