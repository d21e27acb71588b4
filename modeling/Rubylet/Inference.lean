import Rubylet.Graph.Wiring
import Rubylet.Operator

/-!
# Type inference

A record's type is the one type that all its dependencies agree on. Records typed from the start
are the leaves; every other type is found on demand, written once into the `Store` and never
computed again. A call's target is found the same way, and remembered apart from the edges, which
never change.

`resolve` carries the path from the record it was asked for. Coming back to a node on the path is
a cycle; a node that is merely reached twice is not. A path never holds more nodes than the graph
has: one for each record, and at most one operator node and one call node besides. That bounds the
depth of the search, and is the number of steps it is given. It is the only bound: that a stack may
be too small for a search as deep as that is left out.

Types found before an error are kept.
-/

namespace Rubylet

/-- What has been found out about a graph. -/
structure Store where
  /-- The types of the records, by number. -/
  types : Array (Option Ty)
  /-- The targets of the calls, by record. -/
  targets : Table Nat Target
  /-- The records typed by inference, the latest first. -/
  history : List Nat
  deriving Repr, Inhabited

namespace Store

/-- Nothing has been found out yet. -/
def ofGraph (g : Graph) : Store := ⟨g.records.map Record.given?, .empty, []⟩

/-- The type of a record. -/
def type? (s : Store) (n : Nat) : Option Ty := (s.types[n]?).join

/-- The type of a dependency, as far as it is written down. -/
def known? (s : Store) : Dependency → Option Ty
  | .record n => s.type? n
  | _ => none

/-- Writes the type of a record. -/
def setType (s : Store) (n : Nat) (t : Ty) : Store :=
  { s with types := s.types.setIfInBounds n (some t), history := n :: s.history }

/-- Writes the target of a call. -/
def setTarget (s : Store) (call : Nat) (t : Target) : Store :=
  { s with targets := s.targets.set call t }

end Store

namespace Graph

/-! ### The class that `new` instantiates -/

/-- The records that a dependency leads to, once the targets of calls are known. -/
def leadsTo (targets : Table Nat Target) : Dependency → List Nat
  | .record n => [n]
  | .operator _ => []
  | .send site =>
    match targets.get? site.call with
    | some (.method n) => [n]
    | _ => []

/-- The class that a record names by itself. -/
def classNamed? (g : Graph) (n : Nat) : Option String :=
  match (g.record n).instruction.op with
  | .pushConst name | .classStart name => some name
  | _ => none

/-- Collects the names of the classes that records may stand for, from a worklist. -/
def collectClasses (g : Graph) (targets : Table Nat Target) :
    (steps : Nat) → (work seen : List Nat) → (names : List String) → List String
  | 0, _, _, names => names
  | _ + 1, [], _, names => names
  | steps + 1, n :: work, seen, names =>
    match g.classNamed? n with
    -- A record that names a class ends its branch of the search.
    | some name =>
      let names := if names.contains name then names else name :: names
      collectClasses g targets steps work seen names
    | none =>
      if seen.contains n then collectClasses g targets steps work seen names
      else
        collectClasses g targets steps
          ((g.record n).dependencies.flatMap (leadsTo targets) ++ work) (n :: seen) names

/-- Enough steps to follow every edge once. -/
def edgeSteps (g : Graph) : Nat :=
  g.records.toList.foldl (fun total r => total + r.dependencies.length) 2

/-- The names of the classes that a record may stand for, in increasing order. -/
def classNames (g : Graph) (targets : Table Nat Target) (n : Nat) : List String :=
  (collectClasses g targets g.edgeSteps [n] [] []).mergeSort fun a b => decide (a ≤ b)

/-- The one class that a record stands for. -/
def className (g : Graph) (targets : Table Nat Target) (n : Nat) : Except CompileError String :=
  match g.classNames targets n with
  | [name] => .ok name
  | names => .error (.atOrigin (g.origin n) (.undeterminedClass names))

/-- What a call's type comes from, by the type of its receiver. -/
def dispatch (g : Graph) (targets : Table Nat Target) (receiverType : Ty) (call receiver : Nat) :
    Except CompileError Target := do
  let info := g.callInfo call
  match ← g.index.choose receiverType (g.record call).instruction info with
  | .method n => return .method n
  | .operator => return .operator ⟨receiver, call, info.args⟩
  | .instantiate => return .object (← g.className targets receiver)

end Graph

namespace Inference

/-- A node of the graph, as a path holds it. -/
inductive PathNode where
  | record (number : Nat)
  | operator (call : Nat)
  | send (call : Nat)
  deriving Repr, DecidableEq, Inhabited

/-- The node of a dependency. -/
def nodeOf : Dependency → PathNode
  | .record n => .record n
  | .operator site => .operator site.call
  | .send site => .send site.call

/-- Finds things out about a graph, and may fail. -/
abbrev Finding := ExceptT CompileError (StateM Store)

/-- The error of a node that depends on itself. -/
def circular (g : Graph) (d : Dependency) : CompileError :=
  .atOrigin (g.originOf d) .circularType

/-- A type that a dependency has. -/
structure Possible where
  source : Dependency
  type : Ty
  deriving Repr, DecidableEq, Inhabited

/-- The different types of some dependencies, each with the first dependency that has it. -/
def possibleTypes (typeOf : Dependency → Finding Ty) :
    List Possible → List Dependency → Finding (List Possible)
  | found, [] => return found
  | found, d :: rest => do
    let type ← typeOf d
    possibleTypes typeOf
      (if found.any fun p => p.type = type then found else found ++ [⟨d, type⟩]) rest

/-- The type of an operator's result, if its argument fits. -/
def operatorType (g : Graph) (typeOf : Dependency → Finding Ty) (site : CallSite) : Finding Ty := do
  let receiverType ← typeOf (.record site.receiver)
  let i := (g.record site.call).instruction
  match i.op.name?.bind (Operator.find? receiverType) with
  | none => throw (.atOrigin i.origin (.undefinedOperation i.operandText receiverType))
  | some operator =>
    match site.args with
    | [arg] => do
      let argType ← typeOf (.record arg)
      if argType = operator.argType then return operator.resultType
      else
        throw (.atOrigin (g.origin arg)
          (.mismatchedArgument receiverType i.operandText operator.argType argType))
    | args =>
      throw (.atOrigin i.origin (.wrongArgumentCount i.operandText args.length 1))

/-- The target of a call, found by the type of its receiver and remembered. -/
def target (g : Graph) (typeOf : Dependency → Finding Ty) (site : CallSite) : Finding Target := do
  match (← get).targets.get? site.call with
  | some found => return found
  | none => do
    let receiverType ← typeOf (.record site.receiver)
    -- The targets are read again, since finding the type of the receiver may have added some.
    let found ← g.dispatch (← get).targets receiverType site.call site.receiver
    modify (·.setTarget site.call found)
    return found

/-- The type of a dependency, given the nodes on the path to it. -/
def resolveWithin (g : Graph) : (steps : Nat) → List PathNode → Dependency → Finding Ty
  | 0, _, d => throw (circular g d)
  | steps + 1, path, d => do
    let node := nodeOf d
    match (← get).known? d with
    | some type => return type
    | none =>
      -- What is on the path has no type yet. Coming back to it would never end.
      if path.contains node then throw (circular g d)
      else
        let typeOf := resolveWithin g steps (node :: path)
        match d with
        | .record n =>
          match ← possibleTypes typeOf [] (g.record n).dependencies with
          | [possible] => do
            modify (·.setType n possible.type)
            return possible.type
          -- Either there is no dependency, or they differ. The candidates name the first of each
          -- type.
          | possibles =>
            throw
              { CompileError.atOrigin (g.origin n) .ambiguousType with
                candidates := possibles.map fun p => ⟨p.type, .ofPos (g.originOf p.source).pos⟩ }
        | .operator site => operatorType g typeOf site
        | .send site =>
          match ← target g typeOf site with
          | .object className => return .object className
          | .method n => typeOf (.record n)
          | .operator site => typeOf (.operator site)

/-- The longest possible path, and one step more. -/
def steps (g : Graph) : Nat := 3 * g.records.size + 1

/-- The type of a dependency. -/
def resolveDependency (g : Graph) (d : Dependency) : Finding Ty :=
  resolveWithin g (steps g) [] d

/-- The type of a record. -/
def resolve (g : Graph) (n : Nat) : Finding Ty := resolveDependency g (.record n)

/-- The types of all records, in order. -/
def resolveAll (g : Graph) : Finding (List Ty) := (List.range g.records.size).mapM (resolve g)

end Inference

/-- A record with its type, if it has one: what a backend is handed. -/
structure TypedRecord where
  instruction : Instruction
  type? : Option Ty
  deriving Repr, DecidableEq, Inhabited

namespace Store

/-- The records of a graph with the types found so far. -/
def typedRecords (s : Store) (g : Graph) : List TypedRecord :=
  (List.range g.records.size).map fun n => ⟨(g.record n).instruction, s.type? n⟩

/-- What there is to say about the records typed by inference, in order. -/
def notices (s : Store) (g : Graph) : List Notice :=
  s.history.reverse.filterMap fun n =>
    (s.type? n).map fun t => .typed n (g.record n).instruction.op.opcode t

end Store

/-- The first record without a type. -/
def firstUntyped? (records : List TypedRecord) : Option (Nat × TypedRecord) :=
  (records.zipIdx.find? fun (r, _) => r.type?.isNone).map fun (r, n) => (n, r)

/-- A program with all its types. -/
def infer (code : List Instruction) : Except StageError (List TypedRecord) := do
  let g ← Graph.build code
  match (Inference.resolveAll g).run.run (.ofGraph g) with
  | (.error e, _) => throw (.compile e)
  | (.ok _, store) => return store.typedRecords g

end Rubylet
