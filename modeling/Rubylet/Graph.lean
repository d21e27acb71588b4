import Rubylet.Graph.Index

/-!
# The dependency graph

A record's type is the type of the records it depends on. Most dependencies are other records; a
call depends on a method, on a primitive operator, or on something that is only known once its
receiver has a type.

`Index.choose` picks what a call's type comes from by the type of its receiver. The graph builder
uses it for receivers whose type is known at once, inference for all the others.
-/

namespace Rubylet

/-- A call, its receiver and its arguments, by record. -/
structure CallSite where
  receiver : Nat
  call : Nat
  args : List Nat
  deriving Repr, DecidableEq, Inhabited

/-- What the type of a record is taken from. -/
inductive Dependency where
  | record (number : Nat)
  /-- The result of a primitive operator. -/
  | operator (site : CallSite)
  /-- A call whose receiver had no type while the graph was built. -/
  | send (site : CallSite)
  deriving Repr, DecidableEq, Inhabited

/-- What a call's type comes from, once its receiver has a type. -/
inductive Target where
  /-- The method that a record defines. -/
  | method (number : Nat)
  | operator (site : CallSite)
  /-- The objects of a class. -/
  | object (className : String)
  deriving Repr, DecidableEq, Inhabited

/-- A record of the graph. -/
structure Record where
  instruction : Instruction
  /-- The type it has from the start. -/
  given? : Option Ty
  dependencies : List Dependency
  /-- Of a call: its arguments and the class around it. -/
  call? : Option CallInfo
  deriving Repr, Inhabited

/-- The records of a program, and its tables. -/
structure Graph where
  records : Array Record
  index : Index
  deriving Repr, Inhabited

/-- The type that an instruction's record has from the start. Literals are typed by themselves, a
class by being one, and what only marks structure is nil. -/
def Operation.givenType? : Operation → Option Ty
  | pushNil => some .nil
  | pushInt _ => some .int
  | pushStr _ => some .str
  | classStart _ => some .cls
  | classEnd _ | defEnd _ | ifElse | ifEnd => some .nil
  | _ => none

/-- What a call's type comes from, up to the class that `new` instantiates. -/
inductive Choice where
  | method (number : Nat)
  | operator
  | instantiate
  deriving Repr, DecidableEq, Inhabited

namespace Index

/-- The method that a call without receiver means: one of the class around it, else one outside
classes. -/
def implicitMethod (x : Index) (name : String) (owner : Option String) : Option Nat :=
  (owner.bind fun o => x.findMethod name (some o)).or (x.findMethod name none)

/-- A method, if the call gives it as many arguments as it has parameters. -/
def checkArity (x : Index) (i : Instruction) (given method : Nat) (methodName : String) :
    Except CompileError Choice :=
  let expected := (x.arity.get? method).getD 0
  if given = expected then .ok (.method method)
  else .error (.atOrigin i.origin (.wrongArgumentCount methodName given expected))

/-- What a call's type comes from, by the type of its receiver. -/
def choose (x : Index) (receiver : Ty) (i : Instruction) (info : CallInfo) :
    Except CompileError Choice :=
  match receiver with
  | .nil =>
    match i.op.name?.bind fun name => x.implicitMethod name info.owner with
    | some method => x.checkArity i info.args.length method i.operandText
    | none => .error (.atOrigin i.origin (.undefinedMethod i.operandText))
  -- A class answers only one name. It has no operators, so any other name fails later on.
  | .cls => if i.op.name? = some "new" then .ok .instantiate else .ok .operator
  | .object className =>
    match i.op.name?.bind fun name => x.findMethod name (some className) with
    | some method => x.checkArity i info.args.length method i.operandText
    | none => .ok .operator
  | _ => .ok .operator

end Index

namespace Graph

/-- A record by its number. -/
def record (g : Graph) (n : Nat) : Record := g.records.getD n default

/-- The origin of a record. -/
def origin (g : Graph) (n : Nat) : Origin := (g.record n).instruction.origin

/-- What is known of a record as a call; any other record has no arguments and no class around it.
-/
def callInfo (g : Graph) (n : Nat) : CallInfo := (g.record n).call?.getD ⟨[], none⟩

/-- The origin of what a dependency stands for. -/
def originOf (g : Graph) : Dependency → Origin
  | .record n => g.origin n
  | .operator site | .send site => g.origin site.call

end Graph

end Rubylet
