import Rubylet.CompileError
import Rubylet.Instruction
import Rubylet.Syntax.Node

/-!
# Lowering

Lowering walks a syntax tree once, depth first, and computes no types. The order of the
instructions is the contract: operands come before the instruction that consumes them.

* A call without receiver is sent to nil.
* A method body or a branch leaves exactly one value: the last statement's, the variable's after an
  assignment, and nil if it is empty or ends in a definition.
* A class cannot stand inside a class, also not through a method.

Lowering recurs on the syntax tree; that a tree may be too deep for a stack is left out.
-/

namespace Rubylet.Lowering

/-- Refuses a construct that has no rule. -/
def unsupported (origin? : Option Origin) (construct : String) : CompileError :=
  { cause := .unsupportedConstruct construct
    place := match origin? with
      | some origin => .node origin
      | none => .nowhere }

/-- What is pushed after the last statement of a body so that the body leaves a value. -/
def closing : Node → List Instruction
  | .assign pos name _ => [⟨.pushVar name, ⟨.assignment, pos⟩⟩]
  | .classDef pos _ _ => [⟨.pushNil, ⟨.classDef, pos⟩⟩]
  | .methodDef pos _ _ _ => [⟨.pushNil, ⟨.methodDef, pos⟩⟩]
  | _ => []

/-- What is pushed after the statements of a body. -/
def closingLast (statements : List Node) : List Instruction :=
  match statements.getLast? with
  | some last => closing last
  | none => []

/-- A parameter takes its argument into a local. -/
def lowerParam (p : Param) : List Instruction :=
  [⟨.pushArg p.index, p.origin⟩, ⟨.setVar p.name, p.origin⟩]

mutual

/-- The instructions of a piece of syntax, inside a class or not. -/
def lower (inside : Option String) : Node → Except CompileError (List Instruction)
  | .block _ statements => lowerAll inside statements
  | .call pos receiver name args => do
    let receiver ← lowerReceiver inside pos receiver
    let operands ← lowerAll inside args
    return receiver ++ operands ++ [⟨.send name (some args.length), ⟨.call, pos⟩⟩]
  | .argument param => throw (unsupported (some param.origin) "Param")
  | .methodDef pos name params body => do
    let origin : Origin := ⟨.methodDef, pos⟩
    let body ← lowerBody inside origin body
    return [⟨.defStart name, origin⟩] ++ params.flatMap lowerParam ++ body ++
      [⟨.defEnd name, origin⟩]
  | .classDef pos name body => do
    let origin : Origin := ⟨.classDef, pos⟩
    match inside with
    -- What is refused is a class within a class, also when a method stands between the two.
    | some outer => throw (.atOrigin origin (.nestedClass name outer))
    | none =>
      let body ← lower (some name) body
      return [⟨.classStart name, origin⟩] ++ body ++ [⟨.classEnd name, origin⟩]
  | .conditional pos condition thenBody elseBody => do
    let origin : Origin := ⟨.conditional, pos⟩
    let condition ← lower inside condition
    let thenBody ← lowerBody inside origin thenBody
    let elseBody ← lowerBody inside origin elseBody
    return condition ++ [⟨.ifStart, origin⟩] ++ thenBody ++ [⟨.ifElse, origin⟩] ++ elseBody ++
      [⟨.ifEnd, origin⟩]
  | .assign pos name value => do
    let value ← lower inside value
    return value ++ [⟨.setVar name, ⟨.assignment, pos⟩⟩]
  | .localRead pos name => return [⟨.pushVar name, ⟨.localRead, pos⟩⟩]
  | .integer pos value => return [⟨.pushInt value, ⟨.integer, pos⟩⟩]
  | .text pos value => return [⟨.pushStr value, ⟨.text, pos⟩⟩]
  | .nil pos => return [⟨.pushNil, ⟨.nil, pos⟩⟩]
  | .constant pos name => return [⟨.pushConst name, ⟨.constant, pos⟩⟩]
  | .unsupported pos label construct =>
    throw (unsupported (some ⟨.other label, pos⟩) construct)
  | .foreign value => throw (unsupported none value.typeName)

/-- The instructions of several pieces of syntax, one after the other. -/
def lowerAll (inside : Option String) : List Node → Except CompileError (List Instruction)
  | [] => return []
  | n :: rest => do
    let first ← lower inside n
    let others ← lowerAll inside rest
    return first ++ others

/-- The receiver of a call; a call without one is sent to nil. -/
def lowerReceiver (inside : Option String) (pos : Pos) :
    Option Node → Except CompileError (List Instruction)
  | none => return [⟨.pushNil, ⟨.call, pos⟩⟩]
  | some receiver => lower inside receiver

/-- A body that must leave exactly one value. A missing body stands where its owner stands. -/
def lowerBody (inside : Option String) (owner : Origin) :
    Option Node → Except CompileError (List Instruction)
  | none => return [⟨.pushNil, owner⟩]
  | some (.block pos []) => return [⟨.pushNil, ⟨.block, pos⟩⟩]
  | some (.block _ (first :: rest)) => do
    let statements ← lowerAll inside (first :: rest)
    return statements ++ closingLast (first :: rest)
  | some body => do
    let statement ← lower inside body
    return statement ++ closing body

end

/-- The instructions of a program. -/
def program (root : Node) : Except CompileError (List Instruction) := lower none root

end Rubylet.Lowering
