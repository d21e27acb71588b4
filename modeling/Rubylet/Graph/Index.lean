import Rubylet.Notice
import Rubylet.Replay
import Rubylet.Table

/-!
# The index of a program

The first pass over a program finds its definitions and its calls: methods outside classes and per
class, classes by the record that opens them first, the number of parameters of each definition,
and for every name the records that call it. Calls may come before definitions, because every
table is complete before the second pass begins.

The last definition of a name wins. A class that is opened again goes on with its methods.
-/

namespace Rubylet

/-- A class: the record that opened it first, and its methods. -/
structure ClassInfo where
  definition : Nat
  methods : Table String Nat
  deriving Repr, Inhabited

/-- What is known of a call from the place where it stands. -/
structure CallInfo where
  /-- The records that supply the arguments. -/
  args : List Nat
  /-- The class whose body encloses the call. -/
  owner : Option String
  deriving Repr, DecidableEq, Inhabited

/-- The tables of a program. -/
structure Index where
  /-- The methods outside classes. -/
  methods : Table String Nat
  classes : Table String ClassInfo
  /-- The calls of every name, in text order. -/
  callers : Table String (List Nat)
  /-- The number of parameters of every definition. -/
  arity : Table Nat Nat
  /-- The calls, by record. -/
  calls : Table Nat CallInfo
  /-- What there was to say, in text order. -/
  notices : List Notice
  deriving Repr, Inhabited

namespace Index

/-- Before the first instruction. -/
def empty : Index := ⟨.empty, .empty, .empty, .empty, .empty, []⟩

/-- One more thing to say. -/
def note (x : Index) (n : Notice) : Index := { x with notices := x.notices ++ [n] }

/-- The methods of a class, or those outside classes. -/
def methodsOf (x : Index) : Option String → Table String Nat
  | none => x.methods
  | some owner => ((x.classes.get? owner).map ClassInfo.methods).getD .empty

/-- Sets a method of a class, or one outside classes. -/
def setMethod (x : Index) (name : String) (record : Nat) : Option String → Index
  | none => { x with methods := x.methods.set name record }
  | some owner =>
    match x.classes.get? owner with
    | none => x
    | some info =>
      let methods := info.methods.set name record
      { x with classes := x.classes.set owner { info with methods } }

/-- Opens a class. -/
def openClass (x : Index) (record : Nat) (name : String) (line : Int) : Index :=
  -- A class that is opened again keeps its methods and its record.
  if x.classes.contains name then x.note (.reopenedClass name line)
  else { x with classes := x.classes.set name ⟨record, .empty⟩ }

/-- Defines a method. -/
def define (x : Index) (record : Nat) (name : String) (owner : Option String) (line : Int) :
    Index :=
  let x :=
    if (x.methodsOf owner).contains name then x.note (.redefinedMethod name line) else x
  let x := x.setMethod name record owner
  { x with arity := x.arity.set record 0 }

/-- Counts a parameter of a definition. -/
def countParam (x : Index) (method : Nat) : Index :=
  { x with arity := x.arity.set method ((x.arity.get? method).getD 0 + 1) }

/-- Records a call. -/
def addCall (x : Index) (record : Nat) (name : String) (info : CallInfo) : Index :=
  { x with
    callers := x.callers.set name ((x.callers.get? name).getD [] ++ [record])
    calls := x.calls.set record info }

/-- Learns from one step of the replay. -/
def learn (x : Index) (s : Replay.Step) : Index :=
  let line := s.instruction.origin.pos.line
  match s.instruction.op, s.event with
  | .classStart name, .classStart => x.openClass s.number name line
  | .defStart name, .defStart owner => x.define s.number name owner line
  | .pushArg _, .pushArg method => x.countParam method
  -- A send neither opens nor closes a class, so the state behind it tells the class around it.
  | .send name _, .send _ args => x.addCall s.number name ⟨args, s.after.currentClass⟩
  | _, _ => x

/-- The index of a replayed program. -/
def ofTrace (t : Replay.Trace) : Index := t.steps.foldl learn empty

/-- The record that defines a method of a class, or one outside classes. -/
def findMethod (x : Index) (name : String) (owner : Option String) : Option Nat :=
  (x.methodsOf owner).get? name

end Index

end Rubylet
