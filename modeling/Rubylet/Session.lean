import Rubylet.Instruction.Listing
import Rubylet.Program

/-!
# Sessions

A session asks questions about one graph, one after the other. Its state is the `Store`: what has
been found out stays found out, whether a later question fails or not.

The edges of a graph are fixed once it is built. A type that has been written down cannot be
replaced by another one.
-/

namespace Rubylet

/-- Why a question of a session is refused. -/
inductive SessionError where
  | compile (error : CompileError)
  | run (error : RunError)
  /-- The record has another type already. -/
  | retyped (record : Nat) (instruction : Instruction) (old : Ty) (new : Option Ty)
  /-- The graph is built already. -/
  | fixedDependencies (record : Nat) (instruction : Instruction) (type? : Option Ty)
  | untyped (record : Nat) (opcode : String)
  /-- Something that no type can be taken from. -/
  | notDependency (value : Foreign)
  | noSuchDependency
  deriving Repr, Inhabited

/-- The text of a type that may be missing. -/
def Ty.textOf : Option Ty → String
  | some type => type.name
  | none => Foreign.none.plain

/-- A record as a debugging text. -/
def describeRecord (n : Nat) (i : Instruction) (type? : Option Ty) : String :=
  "<TypedInstruction #" ++ toString n ++ " " ++ Foreign.displayAll i.op.parts ++ " type=" ++
    Ty.textOf type? ++ ">"

namespace SessionError

/-- The message of a refusal, where it is worded here. -/
def message? : SessionError → Option String
  | retyped record instruction old new =>
    some (describeRecord record instruction (some old) ++ " is already typed " ++ old.name ++
      "; refusing " ++ Ty.textOf new)
  | fixedDependencies record instruction type? =>
    some ("dependencies of " ++ describeRecord record instruction type? ++
      " are fixed once the graph is built")
  | untyped record opcode =>
    some ("record #" ++ toString record ++ " `" ++ opcode ++ "' has no resolved type")
  | notDependency value => some ("not a dependency: " ++ value.display)
  | compile _ | run _ | noSuchDependency => none

end SessionError

/-- A graph and what has been found out about it. -/
structure Session where
  graph : Graph
  store : Store
  deriving Repr, Inhabited

namespace Session

/-- A session on a graph of which nothing is known yet. -/
def start (graph : Graph) : Session := ⟨graph, .ofGraph graph⟩

/-- Answers a question, and changes the store. -/
abbrev Asking := ExceptT SessionError (StateM Session)

/-- The records with the types found so far. -/
def records (s : Session) : List TypedRecord := s.store.typedRecords s.graph

/-- Finds something out about the graph. -/
def find {α : Type} (question : Graph → Inference.Finding α) : Asking α := do
  let s ← get
  match (question s.graph).run.run s.store with
  | (.ok answer, store) => do
    set { s with store }
    return answer
  | (.error e, store) => do
    set { s with store }
    throw (.compile e)

/-- Answers a question that finds nothing new out. -/
def look {α : Type} (answer : Session → Except SessionError α) : Asking α := do
  match answer (← get) with
  | .ok a => return a
  | .error e => throw e

/-- The type of a record. -/
def resolve (n : Nat) : Asking Ty := find fun g => Inference.resolve g n

/-- The type of the dependency of a record with an index. -/
def resolveDependency (n : Nat) (index : Int) : Asking Ty := do
  let s ← get
  match elementAt? (s.graph.record n).dependencies index with
  | some d => find fun g => Inference.resolveDependency g d
  | none => throw .noSuchDependency

/-- The types of all records. -/
def resolveAll : Asking (List Ty) := find Inference.resolveAll

/-- No type can be taken from a plain value. -/
def resolveForeign (value : Foreign) : Asking Ty := throw (.notDependency value)

/-- Writes the type of a record. -/
def assign (n : Nat) (type? : Option Ty) : Asking Unit := do
  let s ← get
  match s.store.type? n, type? with
  | some old, _ =>
    if some old = type? then return ()
    else throw (.retyped n (s.graph.record n).instruction old type?)
  | none, none => return ()
  | none, some type =>
    set { s with store := { s.store with types := s.store.types.setIfInBounds n (some type) } }

/-- No edge can be added. -/
def addDependency (n : Nat) : Asking Unit := do
  let s ← get
  throw (.fixedDependencies n (s.graph.record n).instruction (s.store.type? n))

/-- What the type of a call is taken from if its receiver has a given type. -/
def dispatch (receiverType : Ty) (call receiver : Nat) : Asking Target :=
  look fun s =>
    (s.graph.dispatch s.store.targets receiverType call receiver).mapError .compile

/-- The one class that a record stands for. -/
def className (n : Nat) : Asking String :=
  look fun s => (s.graph.className s.store.targets n).mapError .compile

/-- Refuses a record without a type. -/
def ensureTyped : Asking Unit :=
  look fun s =>
    match firstUntyped? s.records with
    | none => .ok ()
    | some (n, r) => .error (.untyped n r.instruction.op.opcode)

/-- A record as a debugging text. -/
def describe (s : Session) (n : Nat) : String :=
  describeRecord n (s.graph.record n).instruction (s.store.type? n)

/-- A dependency as a debugging text. -/
def describeDependency (s : Session) : Dependency → String
  | .record n => s.describe n
  | .operator site => callText "BuiltinOperatorDependency" site
  | .send site => callText "SendDependency" site
where
  callText (label : String) (site : CallSite) : String :=
    "<" ++ label ++ " `" ++ (s.graph.record site.call).instruction.operandText ++ "' on #" ++
      toString site.receiver ++ ">"

/-- The value of the records with the types found so far. -/
def run (memory : Nat) (backend : Backend) : Asking Value :=
  look fun s => (Program.execute memory backend s.records).mapError .run

end Session

end Rubylet
