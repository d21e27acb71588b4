import Rubylet.Backend
import Rubylet.Instruction.Lowering

/-!
# Direct evaluation

What a program means, told along its syntax: no instructions, no stacks and no jumps.

All methods and classes are known from the start, wherever they stand, and the last definition of a
name wins. A call evaluates its receiver, which is nil if it is missing, and its arguments from left
to right; a method runs its body in a new frame, in which every parameter is bound. A conditional
evaluates one of its branches. A body has the value of its last statement, which is nil for a
definition.

An error is about a record. Records are numbered by the instructions that syntax is lowered to, so
evaluation keeps count of them (`Node.count`).

Calls may be nested only so deep. `callers` tells how a call is carried out when a number of frames
are left, by recursion on that number; `eval` recurs on the syntax alone. There is also only so much
room for a text (`Frame.memory`).
-/

namespace Rubylet

/-! ### Counting records -/

mutual

/-- The number of records that a piece of syntax has. -/
def Node.count : Node → Nat
  | .block _ statements => Node.countAll statements
  | .call _ receiver _ args => Node.countReceiver receiver + Node.countAll args + 1
  | .methodDef _ _ params body => 1 + 2 * params.length + Node.countBody body + 1
  | .classDef _ _ body => 1 + body.count + 1
  | .conditional _ condition thenBody elseBody =>
    condition.count + 1 + Node.countBody thenBody + 1 + Node.countBody elseBody + 1
  | .assign _ _ value => value.count + 1
  | .localRead _ _ | .integer _ _ | .text _ _ | .nil _ | .constant _ _ => 1
  | .argument _ | .unsupported _ _ _ | .foreign _ => 0

/-- The number of records of several pieces. -/
def Node.countAll : List Node → Nat
  | [] => 0
  | x :: xs => x.count + Node.countAll xs

/-- A missing receiver has a record too. -/
def Node.countReceiver : Option Node → Nat
  | none => 1
  | some x => x.count

/-- A body has one more record if its last statement leaves no value. -/
def Node.countBody : Option Node → Nat
  | none | some (.block _ []) => 1
  | some (.block _ (x :: xs)) =>
    x.count + Node.countAll xs + (Lowering.closingLast (x :: xs)).length
  | some x => x.count + (Lowering.closing x).length

end

namespace Direct

/-! ### What is known from the start -/

/-- A method: the record that defines it, the class it belongs to, and what it is. -/
structure Definition where
  record : Nat
  owner : Option String
  name : String
  params : List Param
  body : Option Node
  deriving Inhabited

/-- What a program declares. -/
inductive Declaration where
  | method (definition : Definition)
  | cls (name : String)
  deriving Inhabited

mutual

/-- The declarations in a piece of syntax, in text order: inside a class or not, and from which
record on. -/
def declarations (inside : Option String) (n : Nat) : Node → List Declaration
  | .block _ statements => declarationsAll inside n statements
  | .call _ receiver _ args =>
    declarationsIn inside n receiver ++
      declarationsAll inside (n + Node.countReceiver receiver) args
  | .methodDef _ name params body =>
    .method ⟨n, inside, name, params, body⟩ ::
      declarationsIn inside (n + 1 + 2 * params.length) body
  | .classDef _ name body => .cls name :: declarations (some name) (n + 1) body
  | .conditional _ condition thenBody elseBody =>
    declarations inside n condition ++
      declarationsIn inside (n + condition.count + 1) thenBody ++
      declarationsIn inside (n + condition.count + 1 + Node.countBody thenBody + 1) elseBody
  | .assign _ _ value => declarations inside n value
  | _ => []

/-- The declarations in several pieces of syntax. -/
def declarationsAll (inside : Option String) (n : Nat) : List Node → List Declaration
  | [] => []
  | x :: xs => declarations inside n x ++ declarationsAll inside (n + x.count) xs

/-- The declarations in a piece of syntax that may be missing. -/
def declarationsIn (inside : Option String) (n : Nat) : Option Node → List Declaration
  | none => []
  | some x => declarations inside n x

end

/-- What a program declares, by its statements. -/
def declared (statements : List Node) : List Declaration := declarationsAll none 0 statements

/-- The method that a declaration declares under a name, in a class or outside of classes. -/
def Declaration.method? (owner : Option String) (name : String) : Declaration → Option Definition
  | .method d => if d.owner = owner ∧ d.name = name then some d else none
  | .cls _ => none

/-- The last method of a name. -/
def find? (known : List Declaration) (owner : Option String) (name : String) : Option Definition :=
  known.reverse.findSome? (Declaration.method? owner name)

/-- Is the class declared? -/
def hasClass (known : List Declaration) (name : String) : Bool :=
  known.any fun
    | .cls other => other = name
    | .method _ => false

/-! ### Calls -/

/-- How a method is called: from a record at a position, for a class, with some arguments. -/
abbrev Caller :=
  (record : Nat) → Pos → Definition → (owner : Option String) → List Value → Except RunError Value

/-- What there is to know of a frame besides its locals. -/
structure Frame where
  /-- The length of the longest text that there is room for. -/
  memory : Nat
  /-- The class whose methods a call without receiver finds first. -/
  owner : Option String
  /-- How methods are called from here. -/
  call : Caller
  /-- How methods are called from the body of a class that stands here. -/
  classCall : Caller

/-- What an operator of the table answers. -/
def operate (memory record : Nat) (pos : Pos) (name : String) (receiver : Value)
    (args : List Value) : Except RunError Value :=
  match receiver.type?.bind fun t => Operator.find? t name with
  | none => .error (.showing record pos (BackendCause.undefinedFor name receiver))
  | some operator =>
    match args with
    | [arg] =>
      if arg.type? = some operator.argType then
        match operator.apply memory receiver arg with
        | .ok value => .ok value
        | .error .divisionByZero => .error (.failed ⟨.dividedByZero, record, pos⟩)
        | .error fault => .error (.fault fault)
      else .error (.showing record pos (BackendCause.unconverted name args))
    | _ => .error (.showing record pos (BackendCause.unconverted name args))

/-- What a message to a receiver answers. -/
def send (known : List Declaration) (f : Frame) (record : Nat) (pos : Pos) (name : String)
    (receiver : Value) (args : List Value) : Except RunError Value :=
  match receiver with
  | .nil =>
    match find? known f.owner name with
    | some d => f.call record pos d f.owner args
    | none =>
      match find? known none name with
      | some d => f.call record pos d none args
      | none => .error (.failed ⟨.undefinedForNil name, record, pos⟩)
  | .cls className =>
    if name = "new" then .ok (.object className)
    else .error (.failed ⟨.undefinedForClass name className, record, pos⟩)
  | .object className =>
    match find? known (some className) name with
    | some d => f.call record pos d (some className) args
    | none => operate f.memory record pos name receiver args
  | receiver => operate f.memory record pos name receiver args

/-! ### Evaluation -/

/-- The locals of a frame. -/
abbrev Locals := Table String Value

/-- Evaluation reads and writes the locals of a frame, and may fail. -/
abbrev Evaluation := StateT Locals (Except RunError)

/-- Evaluates in a frame of its own. -/
def inNewFrame {α : Type} (x : Evaluation α) : Except RunError α := x.run' .empty

mutual

/-- The value of a piece of syntax whose first record has a number. -/
def eval (known : List Declaration) (f : Frame) (n : Nat) : Node → Evaluation Value
  | .block _ statements => do return (← evalAll known f n statements).getLastD .nil
  | .call pos receiver name args => do
    let r ← evalReceiver known f n receiver
    let values ← evalAll known f (n + Node.countReceiver receiver) args
    send known f (n + Node.countReceiver receiver + Node.countAll args) pos name r values
  | .methodDef _ _ _ _ => return .nil
  | .classDef _ name body => do
    -- The body of the class is a frame itself, so there is room for one less behind it.
    let _ ← inNewFrame (eval known { f with owner := some name, call := f.classCall } (n + 1) body)
    return .nil
  | .conditional _ condition thenBody elseBody => do
    let c ← eval known f n condition
    -- Only nil is false.
    if c = .nil then
      evalBody known f (n + condition.count + 1 + Node.countBody thenBody + 1) elseBody
    else evalBody known f (n + condition.count + 1) thenBody
  | .assign _ name value => do
    let v ← eval known f n value
    modify (·.set name v)
    return v
  | .localRead _ name => return ((← get).get? name).getD .nil
  | .integer _ value => return .int value
  | .text _ value => return .str value
  | .nil _ => return .nil
  | .constant _ name => if hasClass known name then return .cls name else throw (.fault .noSuchKey)
  | .argument _ | .unsupported _ _ _ | .foreign _ => return .nil

/-- The values of several pieces of syntax, from left to right. -/
def evalAll (known : List Declaration) (f : Frame) (n : Nat) : List Node → Evaluation (List Value)
  | [] => return []
  | x :: xs => do
    let v ← eval known f n x
    let values ← evalAll known f (n + x.count) xs
    return v :: values

/-- The value of a receiver; a missing one is nil. -/
def evalReceiver (known : List Declaration) (f : Frame) (n : Nat) :
    Option Node → Evaluation Value
  | none => return .nil
  | some x => eval known f n x

/-- The value of a body; a missing one is nil. -/
def evalBody (known : List Declaration) (f : Frame) (n : Nat) : Option Node → Evaluation Value
  | none => return .nil
  | some x => eval known f n x

end

/-- The value of a body is that of its last statement. -/
theorem evalBody_block (known : List Declaration) (f : Frame) (n : Nat) (pos : Pos)
    (statements : List Node) : evalBody known f n (some (.block pos statements)) =
      (do return (← evalAll known f n statements).getLastD .nil) := by
  rw [evalBody, eval]

/-- Binds every parameter to its argument. -/
def bindParams (args : List Value) : List Param → Evaluation Unit
  | [] => return
  | p :: rest => do
    match elementAt? args p.index with
    | some v => modify (·.set p.name v)
    | none => throw (.fault .noSuchElement)
    bindParams args rest

/-- How calls are carried out when a number of frames are left, and when one less is left. -/
def callers (memory : Nat) (known : List Declaration) : (room : Nat) → Caller × Caller
  | 0 =>
    let refuse : Caller := fun record pos _ _ _ => .error (.failed ⟨.stackTooDeep, record, pos⟩)
    (refuse, refuse)
  | room + 1 =>
    let inner := callers memory known room
    let call : Caller := fun _ _ d owner args => inNewFrame do
      bindParams args d.params
      -- The body begins behind the definition and the two records of each parameter.
      evalBody known ⟨memory, owner, inner.1, inner.2⟩ (d.record + 1 + 2 * d.params.length) d.body
    (call, inner.1)

/-- A frame from which a number of frames are left. -/
def frame (memory : Nat) (known : List Declaration) (room : Nat) (owner : Option String) : Frame :=
  ⟨memory, owner, (callers memory known room).1, (callers memory known room).2⟩

/-! ### Programs -/

/-- Does a statement count for the value of a program? Assignments and classes do not. -/
def leaves : Node → Bool
  | .assign _ _ _ | .classDef _ _ _ => false
  | _ => true

/-- The values of the statements that count. -/
def left (statements : List Node) (values : List Value) : List Value :=
  ((statements.zip values).filter fun (x, _) => leaves x).map Prod.snd

/-- The statements of a program. -/
def statementsOf : Node → List Node
  | .block _ statements => statements
  | x => [x]

/-- **The value of a program**: of its last statement that is neither an assignment nor a class, and
nil if there is none. Its own frame is the first of those that there is room for. -/
def run (memory depth : Nat) (root : Node) : Except RunError Value := inNewFrame do
  let statements := statementsOf root
  let known := declared statements
  let values ← evalAll known (frame memory known (depth - 1) none) 0 statements
  return (left statements values).getLastD .nil

end Direct

end Rubylet
