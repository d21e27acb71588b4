import Rubylet.Backend
import Rubylet.Native.Code
import Rubylet.Native.Name
import Rubylet.Replay

/-!
# Emission of native code

`Native.compile` covers the programs whose types map onto machine values: integers are words,
strings and nil are pointers. Classes and the operators of strings are refused.

The parameters and the result of every method are typed, so all functions are declared before any
body is emitted, and a call may come before the definition it means. Then the replay of the code
is folded into instructions; each body reserves a slot for every local that is assigned in it
before its first instruction.

The program's value is the record on top of the operands at the end, unless it came out of a
method body: a definition has no value.

Types are taken by their word, and need not fit the code. Some instructions refuse operands that
do not fit. Any other defect is found only when the whole program is there, so it is noted and the
emission goes on: an error at a later record comes first.
-/

namespace Rubylet.Native

/-- Parts of native code that do not fit together. -/
def misfit {α : Type} : Except RunError α := .error (.fault .brokenCode)

/-- The kind of machine value that a record has. -/
def kindOf (n : Nat) (r : TypedRecord) : Except RunError Kind :=
  match r.type? with
  | some .int => .ok .word
  | some .str | some .nil => .ok .pointer
  | some type => .error (.failedAt n r.instruction (.unsupportedType type))
  | none => misfit

/-! ### Declarations -/

/-- Refuses classes. -/
def refuseClasses (n : Nat) : List TypedRecord → Except RunError Unit
  | [] => .ok ()
  | r :: rest =>
    match r.instruction.op with
    | .classStart _ | .pushConst _ => .error (.failedAt n r.instruction .unsupportedClasses)
    | _ => refuseClasses (n + 1) rest

/-- Does the record fetch an argument? -/
def isParam (r : TypedRecord) : Bool :=
  match r.instruction.op with
  | .pushArg _ => true
  | _ => false

/-- The kinds of the parameters at the beginning of a body: every other record fetches an
argument, and the one behind it takes it into a local. -/
def paramKinds (n : Nat) : List TypedRecord → Except RunError (List Kind)
  | [] => .ok []
  | [r] => if isParam r then return [← kindOf n r] else return []
  | r :: _ :: rest =>
    if isParam r then return (← kindOf n r) :: (← paramKinds (n + 2) rest) else return []

/-- The signatures of all definitions, by record. -/
def signaturesFrom (n : Nat) : List TypedRecord → Except RunError (List (Nat × Signature))
  | [] => .ok []
  | r :: rest =>
    match r.instruction.op with
    | .defStart name => do
      let params ← paramKinds (n + 1) rest
      let result ← kindOf n r
      return (n, ⟨name, params, result⟩) :: (← signaturesFrom (n + 1) rest)
    | _ => signaturesFrom (n + 1) rest

/-- The slots of a body that begins at a record; `depth` definitions inside it are open. The
kind of a local is that of its first assignment. -/
def slotsFrom (n depth : Nat) (slots : Table String Kind) :
    List TypedRecord → Except RunError (Table String Kind)
  | [] => .ok slots
  | r :: rest =>
    match r.instruction.op with
    | .defStart _ => slotsFrom (n + 1) (depth + 1) slots rest
    | .defEnd _ => if depth = 0 then .ok slots else slotsFrom (n + 1) (depth - 1) slots rest
    | .setVar name =>
      if depth = 0 && !slots.contains name then do
        slotsFrom (n + 1) depth (slots.set name (← kindOf n r)) rest
      else slotsFrom (n + 1) depth slots rest
    | _ => slotsFrom (n + 1) depth slots rest

/-! ### Bodies -/

/-- The operands that names stand for, the latest first. -/
abbrev Visible := List (String × Operand)

/-- A conditional whose end has not been reached. -/
structure OpenBranch where
  record : Nat
  taken : Bool
  /-- The instructions before it, the latest first. -/
  before : List Inst
  /-- What could be used before it. Results of its branches are not known outside them. -/
  visible : Visible
  /-- Its first branch, once that is complete. -/
  first? : Option (List Inst × Operand)
  deriving Repr, Inhabited

/-- A body under construction. -/
structure Scope where
  /-- The definition it belongs to; the main body belongs to none. -/
  method? : Option Nat
  slots : Table String Kind
  arguments : List (String × Operand)
  names : Names
  /-- What can be used from here on. -/
  visible : Visible
  /-- The instructions so far, the latest first. -/
  code : List Inst
  /-- The open conditionals, the innermost first. -/
  branches : List OpenBranch
  /-- Was the second branch of the innermost one left, and its end not reached? -/
  isEnded : Bool
  deriving Repr, Inhabited

/-- A body at its beginning. The names in it are given to the arguments, the result, the first
block and the slots, in this order. -/
def Scope.start (method? : Option Nat) (params : List Kind) (slots : Table String Kind) : Scope :=
  let (written, names) := Names.initial.takeAll (params.map fun _ => "")
  let arguments := written.zip (params.zipIdx.map fun (kind, index) => .argument index kind)
  let (_, names) := names.takeAll ("" :: "entry" :: slots.keys)
  ⟨method?, slots, arguments, names, arguments, [], [], false⟩

/-- What a record stands for: an operand, its name unless it is a constant, and the body that it
belongs to. -/
structure Placed where
  operand : Operand
  name? : Option String
  method? : Option Nat
  deriving Repr, DecidableEq, Inhabited

/-- What has been emitted. -/
structure Emission where
  current : Scope
  /-- The bodies around the current one, the innermost first. -/
  outer : List Scope
  /-- What the records stand for. -/
  values : Table Nat Placed
  /-- The complete bodies, by the records of the definitions. -/
  bodies : Table Nat Body
  /-- Has everything fitted together so far? -/
  isSound : Bool
  deriving Repr, Inhabited

/-- What is known before a body is emitted. -/
structure Declarations where
  records : Array TypedRecord
  signatures : Table Nat Signature
  deriving Repr, Inhabited

namespace Emission

/-- Before the first record. -/
def initial (slots : Table String Kind) : Emission :=
  ⟨.start none [] slots, [], .empty, .empty, true⟩

/-- Notes a defect, unless a condition holds. -/
def expect (e : Emission) (holds : Bool) : Emission := { e with isSound := e.isSound && holds }

/-- Adds an instruction. -/
def add (e : Emission) (i : Inst) : Emission :=
  { e with current := { e.current with code := i :: e.current.code } }

/-- Takes names for parts of the body that no record stands for. -/
def reserve (e : Emission) (bases : List String) : Emission :=
  { e with current := { e.current with names := (e.current.names.takeAll bases).2 } }

/-- A record stands for a constant, which is the same in every body. -/
def defineConstant (e : Emission) (n : Nat) (operand : Operand) : Emission :=
  { e with values := e.values.set n ⟨operand, none, none⟩ }

/-- A record stands for an operand of the current body. -/
def define (e : Emission) (n : Nat) (base : String) (operand : Operand) : Emission :=
  let (name, names) := e.current.names.take base
  { e with
    current := { e.current with names, visible := (name, operand) :: e.current.visible }
    values := e.values.set n ⟨operand, some name, e.current.method?⟩ }

/-- What something stands for in the current body. Outside its own body it is known by its name
alone, and whatever has that name here is meant. -/
def locate? (e : Emission) (p : Placed) : Option Operand :=
  match p.name? with
  | none => some p.operand
  | some name =>
    (e.current.visible.lookup name).map fun found =>
      if p.method? = e.current.method? then p.operand else found

/-- The operand a record stands for, whatever its kind. -/
def useUnkinded (e : Emission) (n : Nat) : Except RunError (Operand × Emission) :=
  match e.values.get? n with
  | none => .error (.fault .noSuchKey)
  | some p =>
    match e.locate? p with
    | some operand => .ok (operand, e)
    -- Emission goes on as if it were known here. The finished text will not assemble.
    | none => .ok (p.operand, e.expect false)

/-- The operand a record stands for, of the kind that the record has in its own body. -/
def use (e : Emission) (n : Nat) : Except RunError (Operand × Emission) :=
  match e.values.get? n with
  | none => .error (.fault .noSuchKey)
  | some p =>
    match (e.locate? p).filter fun operand => operand.kind = p.operand.kind with
    | some operand => .ok (operand, e)
    | none => .ok (p.operand, e.expect false)

/-- The operands that several records stand for. -/
def useAll (e : Emission) : List Nat → Except RunError (List Operand × Emission)
  | [] => .ok ([], e)
  | n :: rest => do
    let (operand, e) ← e.use n
    let (operands, e) ← e.useAll rest
    return (operand :: operands, e)

/-- The kind of the slot of a local. -/
def slot (e : Emission) (n : Nat) (i : Instruction) (name : String) : Except RunError Kind :=
  match e.current.slots.get? name with
  | some kind => .ok kind
  | none => .error (.failedAt n i (.noSlot name))

/-- Leaves the current block. A block is left once. -/
def leaveBlock (e : Emission) : Except RunError Emission :=
  if e.current.isEnded then .error (.fault .illegalInstruction) else .ok (e.reserve [""])

/-- Ends the current body with the value of a record, or with nil if that is its type. A body ends
outside of all conditionals. -/
def finish (e : Emission) (type? : Option Ty) (kind : Kind) (result : Nat) :
    Except RunError (Body × Emission) := do
  let (value, e) ← if type? = some .nil then .ok (.null, e) else e.use result
  let e ← e.leaveBlock
  let e := e.expect (value.kind = kind && e.current.branches.isEmpty)
  return (⟨e.current.slots, e.current.code.reverse, value⟩, e)

end Emission

/-- Refuses arguments that do not fit the parameters, in turn. There may be more arguments. -/
def requireArgs : List Kind → List Operand → Except RunError Unit
  | [], _ => .ok ()
  | _ :: _, [] => .error (.fault .noSuchElement)
  | kind :: kinds, arg :: args =>
    if arg.kind = kind then requireArgs kinds args else .error (.fault .mixedKinds)

namespace Declarations

/-- The type of a record. -/
def type? (d : Declarations) (n : Nat) : Option Ty := (d.records[n]?).bind TypedRecord.type?

/-- The last definition of a name. -/
def methodNamed? (d : Declarations) (name : String) : Option (Nat × Signature) :=
  d.signatures.entries.reverse.find? fun (_, s) => s.name = name

/-- A call of the method of a name. -/
def emitCall (d : Declarations) (e : Emission) (n : Nat) (i : Instruction) (name : String)
    (args : List Nat) : Except RunError Emission :=
  match d.methodNamed? name with
  | none => .error (.failedAt n i (.unavailableMethod name))
  | some (method, signature) => do
    let (operands, e) ← e.useAll args
    requireArgs signature.params operands
    return (e.add (.call n method operands)).define n (name ++ "_result")
      (.result n signature.result)

/-- The bases of the names that a division takes before its result: it is a sequence of fifteen
instructions. -/
def divisionParts : List String := List.replicate 14 ""

/-- A division, which takes no divisor but a word. -/
def emitDivision (e : Emission) (n : Nat) (left right : Operand) : Except RunError Emission :=
  -- Of two operands that are no words, the divisor is the one reported.
  if right.kind ≠ .word then .error (.fault .illegalInstruction)
  else if left.kind ≠ .word then .error (.fault .unlikeOperands)
  else
    .ok (((e.reserve divisionParts).add (.arith n .divide left right)).define n ""
      (.result n .word))

/-- An operator of integers. -/
def emitArith (e : Emission) (n : Nat) (i : Instruction) (name : String) (receiver : Nat) :
    List Nat → Except RunError Emission
  | [] => .error (.fault .noSuchElement)
  | arg :: _ => do
    -- A wrong operand is reported even where the name is wrong as well.
    let (left, e) ← e.use receiver
    let (right, e) ← e.use arg
    match Arith.named? name with
    | none => throw (.failedAt n i (.undefinedForInt name))
    | some .divide => emitDivision e n left right
    | some op =>
      if left.kind = right.kind then
        return ((e.expect (left.kind = .word)).add (.arith n op left right)).define n ""
          (.result n left.kind)
      else throw (.fault .unlikeOperands)

/-- A call, by the type of its receiver. -/
def emitSend (d : Declarations) (e : Emission) (n : Nat) (i : Instruction) (name : String)
    (receiver : Nat) (args : List Nat) : Except RunError Emission :=
  match d.type? receiver with
  | some .nil => d.emitCall e n i name args
  | some .int => emitArith e n i name receiver args
  | some .str => .error (.failedAt n i (.stringOperator name))
  | some type => .error (.failedAt n i (.callsOn type))
  | none => misfit

/-- Opens the body of a definition. -/
def openMethod (d : Declarations) (e : Emission) (n : Nat) (i : Instruction) (name : String) :
    Except RunError Emission :=
  match e.outer with
  | _ :: _ => .error (.failedAt n i (.nestedMethod name))
  | [] => do
    let slots ← slotsFrom (n + 1) 0 .empty (d.records.toList.drop (n + 1))
    let params := ((d.signatures.get? n).map Signature.params).getD []
    return { e with current := .start (some n) params slots, outer := [e.current] }

/-- Closes the body of a definition. -/
def closeMethod (d : Declarations) (e : Emission) (method result : Nat) :
    Except RunError Emission := do
  let kind := ((d.signatures.get? method).map Signature.result).getD .pointer
  let (body, e) ← e.finish (d.type? method) kind result
  match e.outer with
  | [] => return e.expect false
  | current :: outer => return { e with current, outer, bodies := e.bodies.set method body }

/-- Opens a conditional. Only nil is false, and nil has a type of its own. -/
def openBranch (d : Declarations) (e : Emission) (n condition : Nat) :
    Except RunError Emission := do
  let e ← (e.reserve ["then", "else", "endif"]).leaveBlock
  let opened : OpenBranch :=
    ⟨n, decide (d.type? condition ≠ some .nil), e.current.code, e.current.visible, none⟩
  return { e with
    current := { e.current with code := [], branches := opened :: e.current.branches } }

/-- Goes on with the second branch of a conditional. -/
def nextBranch (e : Emission) (opened value : Nat) : Except RunError Emission := do
  let (operand, e) ← e.useUnkinded value
  let e ← e.leaveBlock
  match e.current.branches with
  | b :: branches =>
    if b.record ≠ opened then return e.expect false
    -- A second marker leaves the second branch, and nothing may come behind it.
    else if b.first?.isSome then return { e with current := { e.current with isEnded := true } }
    else
      let b := { b with first? := some (e.current.code.reverse, operand) }
      return { e with
        current := { e.current with code := [], visible := b.visible, branches := b :: branches } }
  | [] => return e.expect false

/-- Closes a conditional. -/
def closeBranch (d : Declarations) (e : Emission) (opened value : Nat) :
    Except RunError Emission := do
  let (operand, e) ← e.useUnkinded value
  let e ← e.leaveBlock
  let kind ← kindOf opened (d.records.getD opened default)
  let e : Emission :=
    match e.current.branches with
    | ⟨record, taken, before, visible, some (first, firstValue)⟩ :: branches =>
      let code := .branch record taken first firstValue e.current.code.reverse operand :: before
      { e with current := { e.current with code, visible, branches } }.expect
        (record = opened && firstValue.kind = kind && operand.kind = kind)
    | _ :: branches => { e with current := { e.current with branches } }.expect false
    | [] => e.expect false
  return e.define opened "if" (.result opened kind)

/-- Emits what a replayed instruction does. -/
def emit (d : Declarations) (e : Emission) (s : Replay.Step) : Except RunError Emission :=
  let n := s.number
  let i := s.instruction
  match i.op, s.event with
  | .pushInt value, .literal => .ok (e.defineConstant n (.word (.ofInt value)))
  | .pushStr value, .literal => .ok (e.define n "" (.text value))
  | _, .literal => .ok (e.defineConstant n .null)
  | .setVar name, .setVar value => do
    let kind ← e.slot n i name
    let (operand, e) ← e.use value
    if operand.kind = kind then return (e.reserve [""]).add (.store name operand)
    else throw (.fault .mixedKinds)
  | .pushVar name, .pushVar => do
    let kind ← e.slot n i name
    return (e.add (.load n name)).define n name (.result n kind)
  | .pushArg index, .pushArg _ =>
    match elementAt? e.current.arguments index with
    | some (name, operand) =>
      .ok { e with values := e.values.set n ⟨operand, some name, e.current.method?⟩ }
    | none => .error (.fault .noSuchElement)
  | .send name _, .send receiver args => d.emitSend e n i name receiver args
  | .defStart name, .defStart _ => d.openMethod e n i name
  | _, .defEnd method result => d.closeMethod e method result
  | _, .ifStart condition => d.openBranch e n condition
  | _, .ifElse opened value => nextBranch e opened value
  | _, .ifEnd opened value => d.closeBranch e opened value
  | _, _ => .ok e

/-- The functions of all definitions. One that was never closed has no body. -/
def functions (d : Declarations) (e : Emission) : Table Nat Function :=
  ⟨d.signatures.entries.map fun (n, signature) => (n, ⟨signature, (e.bodies.get? n).getD default⟩)⟩

end Declarations

/-! ### Programs -/

/-- The records that came out of method bodies. -/
def methodResults (t : Replay.Trace) : List Nat :=
  t.steps.filterMap fun s =>
    match s.event with
    | .defEnd _ result => some result
    | _ => none

/-- The record whose value is the program's. -/
def resultRecord? (t : Replay.Trace) : Option Nat :=
  t.final.top?.filter fun n => !(methodResults t).contains n

/-- Emits a replayed program. -/
def emitProgram (records : Array TypedRecord) (t : Replay.Trace) : Except RunError Program := do
  let result? := resultRecord? t
  let kind ←
    match result? with
    | none => pure .pointer
    | some n => kindOf n (records.getD n default)
  let d : Declarations := ⟨records, ⟨← signaturesFrom 0 records.toList⟩⟩
  let slots ← slotsFrom 0 0 .empty records.toList
  match Replay.fold d.emit (.initial slots) t.steps with
  | (_, some e) => throw e
  | (e, none) =>
    let (main, e) ←
      match result? with
      | none => e.finish (some .nil) kind 0
      | some n => e.finish (d.type? n) kind n
    return ⟨main, d.functions e, e.isSound && e.outer.isEmpty⟩

/-- The native code of typed code. -/
def compile (records : List TypedRecord) : Except RunError Program := do
  -- The order of the refusals counts: types, then classes, then the shape of the code.
  requireTypes "compile" records
  refuseClasses 0 records
  let t := Replay.trace (records.map TypedRecord.instruction)
  match t.error? with
  | some e => throw (.structural e)
  | none => emitProgram records.toArray t

end Rubylet.Native
