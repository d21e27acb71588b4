import Rubylet.Fault
import Rubylet.Graph

/-!
# Wiring the dependency graph

The second pass connects each record to what determines its type.

* An assignment depends on the assigned value, and on all that the first assignment of the same
  local in the same frame depends on so far; a read depends on that first assignment.
* A parameter depends on the argument at its place in every call of a method of that name.
* A method depends on the value of its body, a conditional on the values of its branches.
* A constant depends on the class; a call on its target.
-/

namespace Rubylet

namespace Wiring

/-- The edges found so far, and the locals of the open frames, the innermost first. -/
structure State where
  dependencies : Table Nat (List Dependency)
  scopes : List (Table String Nat)
  deriving Repr, Inhabited

namespace State

/-- Before the first instruction. -/
def initial : State := ⟨.empty, [.empty]⟩

/-- The edges of a record. -/
def dependenciesOf (s : State) (n : Nat) : List Dependency :=
  (s.dependencies.get? n).getD []

/-- Adds edges to a record. -/
def connect (s : State) (n : Nat) (ds : List Dependency) : State :=
  { s with dependencies := s.dependencies.set n (s.dependenciesOf n ++ ds) }

/-- The locals of the innermost frame. -/
def scope (s : State) : Table String Nat := s.scopes.headD .empty

/-- Opens a frame. -/
def openFrame (s : State) : State := { s with scopes := .empty :: s.scopes }

/-- Closes the innermost frame. -/
def closeFrame (s : State) : State := { s with scopes := s.scopes.tail }

/-- Binds a local of the innermost frame to a record. -/
def bind (s : State) (name : String) (n : Nat) : State :=
  { s with scopes := s.scope.set name n :: s.scopes.tail }

end State

/-- The edges of a record that assigns `value` to a local. -/
def assign (s : State) (n : Nat) (name : String) (value : Nat) : State :=
  match s.scope.get? name with
  -- A later assignment has to agree with the first one, to which every read is wired.
  | some first => s.connect n (s.dependenciesOf first ++ [.record value])
  | none => (s.bind name n).connect n [.record value]

/-- The arguments that calls pass for a parameter. A call with too few of them passes none; a negative
index may reach beyond the first one. -/
def passedArgs (x : Index) (index : Int) : List Nat → Except StageError (List Dependency)
  | [] => .ok []
  | call :: rest => do
    let args := ((x.calls.get? call).map CallInfo.args).getD []
    if index < args.length then
      match elementAt? args index with
      | some arg => return .record arg :: (← passedArgs x index rest)
      | none => throw (.fault .noSuchElement)
    else passedArgs x index rest

/-- What a call depends on. A receiver that is typed from the start decides it at once, unless it
is a class. -/
def sendDependency (x : Index) (receiverType? : Option Ty) (i : Instruction) (info : CallInfo)
    (site : CallSite) : Except CompileError Dependency :=
  match receiverType? with
  | none | some .cls => .ok (.send site)
  | some type => do
    match ← x.choose type i info with
    | .method n => return .record n
    | .operator => return .operator site
    | .instantiate => return .send site

/-- The name that a method definition is called by. -/
def methodName (code : Array Instruction) (method : Nat) : String :=
  (((code[method]?).bind fun i => i.op.name?)).getD ""

/-- Learns the edges of one replayed instruction. -/
def learn (code : Array Instruction) (x : Index) (s : State) (step : Replay.Step) :
    Except StageError State :=
  let n := step.number
  let i := step.instruction
  match i.op, step.event with
  | .setVar name, .setVar value => .ok (assign s n name value)
  | .pushVar name, .pushVar =>
    match s.scope.get? name with
    | some first => .ok (s.connect n [.record first])
    | none => .error (.compile (.atOrigin i.origin (.undefinedLocal name)))
  | .pushConst name, .pushConst =>
    match x.classes.get? name with
    | some info => .ok (s.connect n [.record info.definition])
    | none => .error (.compile (.atOrigin i.origin (.uninitializedConstant name)))
  | .pushArg index, .pushArg method => do
    let callers := (x.callers.get? (methodName code method)).getD []
    return s.connect n (← passedArgs x index callers)
  | .send _ _, .send receiver args => do
    -- Only a type that is given from the start decides here. The rest waits for inference.
    let receiverType? := (code[receiver]?).bind fun r => r.op.givenType?
    let info : CallInfo := ⟨args, step.after.currentClass⟩
    match sendDependency x receiverType? i info ⟨receiver, n, args⟩ with
    | .ok d => return s.connect n [d]
    | .error e => throw (.compile e)
  | _, .defStart _ => .ok s.openFrame
  | _, .defEnd method result => .ok (s.closeFrame.connect method [.record result])
  | _, .classStart => .ok s.openFrame
  | _, .classEnd _ => .ok s.closeFrame
  | _, .ifElse opened value | _, .ifEnd opened value => .ok (s.connect opened [.record value])
  | _, _ => .ok s

end Wiring

namespace Graph

/-- The records of a program with their edges. -/
def recordsFrom (x : Index) (w : Wiring.State) (n : Nat) : List Instruction → List Record
  | [] => []
  | i :: rest =>
    ⟨i, i.op.givenType?, w.dependenciesOf n, x.calls.get? n⟩ :: recordsFrom x w (n + 1) rest

/-- The dependency graph of a program. -/
def build (code : List Instruction) : Except StageError Graph :=
  let t := Replay.trace code
  match t.error? with
  | some e => .error (.compile e)
  | none =>
    let x := Index.ofTrace t
    match Replay.fold (Wiring.learn code.toArray x) Wiring.State.initial t.steps with
    | (_, some e) => .error e
    | (w, none) => .ok ⟨(recordsFrom x w 0 code).toArray, x⟩

/-- What there is to say about the definitions and calls of a program, in the order in which they
are found. -/
def notices (code : List Instruction) : List Notice :=
  let t := Replay.trace code
  let x := Index.ofTrace t
  match t.error? with
  | some _ => x.notices
  | none => x.notices ++ [.indexed x.methods.size x.classes.size x.callers.size]

end Graph

end Rubylet
