import Rubylet.Backend
import Rubylet.Replay.OperandStack

/-!
# The stack machine

The machine runs typed code by the operand discipline of `Rubylet.Replay`: a branch keeps only its
final value, an assignment pushes nothing, and a method definition that is passed over leaves nil
where the replay leaves the value of its body.

`Machine.load` pairs the openers of blocks with their closers and registers all methods and classes,
so a call may come before the definition it means. `Machine.step` executes one instruction;
`Machine.run` steps to the end and answers the value on top of the operands of the main program.
-/

namespace Rubylet

/-- The machine's view of a program. -/
structure Machine where
  code : Array Instruction
  /-- The methods outside classes, by the record that defines them. -/
  methods : Table String Nat
  /-- The methods of every class. -/
  classes : Table String (Table String Nat)
  /-- Where a passed block goes on: from its opener, or from its `else`. -/
  jumps : Table Nat Nat
  /-- The length of the longest text that there is room for. -/
  memory : Nat
  deriving Repr, Inhabited

namespace Machine

/-- Calls may not be nested deeper. -/
def maxCallDepth : Nat := 10000

/-! ### Loading -/

/-- What loading knows at an instruction. -/
structure Loading where
  /-- The open blocks, the innermost first. -/
  opened : List Nat
  currentClass : Option String
  methods : Table String Nat
  classes : Table String (Table String Nat)
  jumps : Table Nat Nat
  deriving Repr, Inhabited

namespace Loading

/-- Before the first instruction. -/
def initial : Loading := ⟨[], none, .empty, .empty, .empty⟩

/-- Opens a block. -/
def openBlock (l : Loading) (n : Nat) : Loading := { l with opened := n :: l.opened }

/-- Closes the innermost block. -/
def closeBlock (l : Loading) (n : Nat) : Except RunError Loading :=
  match l.opened with
  | [] => .error (.fault .emptyStack)
  | o :: opened => .ok { l with opened, jumps := l.jumps.set o n }

/-- Registers a method of the current class, or one outside classes. -/
def define (l : Loading) (name : String) (n : Nat) : Loading :=
  match l.currentClass with
  | none => { l with methods := l.methods.set name n }
  | some c =>
    { l with classes := l.classes.set c (((l.classes.get? c).getD .empty).set name n) }

/-- Registers a class, and makes it the current one. -/
def enterClass (l : Loading) (name : String) : Loading :=
  { l with
    currentClass := some name
    classes := if l.classes.contains name then l.classes else l.classes.set name .empty }

/-- Learns from one instruction. -/
def learn (l : Loading) (n : Nat) (op : Operation) : Except RunError Loading :=
  match op with
  | .defStart name => .ok ((l.openBlock n).define name n)
  | .classStart name => .ok ((l.openBlock n).enterClass name)
  | .ifStart => .ok (l.openBlock n)
  -- The marker between the branches ends the first one and begins the second.
  | .ifElse => do return (← l.closeBlock n).openBlock n
  | .defEnd _ | .ifEnd => l.closeBlock n
  | .classEnd _ => do return { (← l.closeBlock n) with currentClass := none }
  | _ => .ok l

/-- Learns from instructions in turn. -/
def learnAll (l : Loading) (n : Nat) : List Instruction → Except RunError Loading
  | [] => .ok l
  | i :: rest => do learnAll (← l.learn n i.op) (n + 1) rest

end Loading

/-- Loads typed code into a machine with room for texts up to a length of `memory`. -/
def load (memory : Nat) (records : List TypedRecord) : Except RunError Machine := do
  requireTypes "run" records
  let code := records.map TypedRecord.instruction
  let loaded ← Loading.initial.learnAll 0 code
  match loaded.opened with
  | [] => return ⟨code.toArray, loaded.methods, loaded.classes, loaded.jumps, memory⟩
  | n :: _ => throw (.failedAt n (code.getD n default) .unterminatedBlock)

/-! ### Running -/

/-- A running method, class body or main program. All stacks have their top first. -/
structure Activation where
  stack : List Value
  locals : Table String Value
  args : List Value
  /-- The call to go back behind; the main program and class bodies have none. -/
  returnTo : Option Nat
  /-- The class whose methods a call without receiver finds first. -/
  owner : Option String
  /-- The heights from which the branches of the open conditionals start. -/
  ifs : List Nat
  deriving Repr, Inhabited

/-- An activation with no operands and no locals. -/
def Activation.fresh (args : List Value) (returnTo : Option Nat) (owner : Option String) :
    Activation := ⟨[], .empty, args, returnTo, owner, []⟩

/-- A state of the machine. -/
structure State where
  /-- The instruction that comes next. -/
  next : Nat
  /-- The activations, the innermost first. -/
  frames : List Activation
  /-- The calls of methods so far, by name and number of arguments, the latest first. -/
  calls : List (String × Nat)
  deriving Repr, Inhabited

/-- At the beginning of a run. -/
def State.initial : State := ⟨0, [.fresh [] none none], []⟩

/-- What a step leads to. -/
inductive Progress where
  | next (state : State)
  | stop (error : RunError) (state : State)
  deriving Repr, Inhabited

/-- The method that a class has under a name. -/
def methodOf? (m : Machine) (owner : Option String) (name : String) : Option Nat :=
  (owner.bind m.classes.get?).bind fun methods => methods.get? name

/-- The arguments and what is below them. If there are too few operands, as many are taken as the
count exceeds the operands by. -/
def takeArgs (count : Nat) (stack : List Value) : List Value × List Value :=
  let k := if count ≤ stack.length then count else min stack.length (count - stack.length)
  ((stack.take k).reverse, stack.drop k)

/-- What a message does to its receiver. -/
inductive Reaction where
  /-- Runs a method, which looks up calls without receiver in a class first. -/
  | call (method : Nat) (owner : Option String)
  | answer (value : Value)
  | fail (cause : BackendCause)
  | fault (fault : Fault)
  deriving Repr, Inhabited

/-- A failure whose message shows values. It is a fault if one cannot be shown. -/
def Reaction.showing : Except Fault BackendCause → Reaction
  | .ok cause => .fail cause
  | .error f => .fault f

/-- A primitive operator's reaction. -/
def primitive (memory : Nat) (name : String) (receiver : Value) (args : List Value) : Reaction :=
  match receiver.type?.bind fun t => Operator.find? t name with
  | none => .showing (BackendCause.undefinedFor name receiver)
  | some operator =>
    match args with
    | [arg] =>
      if arg.type? = some operator.argType then
        match operator.apply memory receiver arg with
        | .ok value => .answer value
        | .error .divisionByZero => .fail .dividedByZero
        | .error f => .fault f
      else .showing (BackendCause.unconverted name args)
    | _ => .showing (BackendCause.unconverted name args)

/-- What a message does, sent from an activation that belongs to a class or not. -/
def react (m : Machine) (owner : Option String) (name : String) (receiver : Value)
    (args : List Value) : Reaction :=
  match receiver with
  | .nil =>
    -- The class around the call comes first, then what stands outside of classes.
    match m.methodOf? owner name with
    | some method => .call method owner
    | none =>
      match m.methods.get? name with
      | some method => .call method none
      | none => .fail (.undefinedForNil name)
  | .cls className =>
    if name = "new" then .answer (.object className)
    else .fail (.undefinedForClass name className)
  | .object className =>
    match m.methodOf? (some className) name with
    | some method => .call method (some className)
    | none => primitive m.memory name receiver args
  | _ => primitive m.memory name receiver args

/-- The name a method is defined under. -/
def methodName (m : Machine) (method : Nat) : String :=
  ((m.code[method]?).bind fun i => i.op.name?).getD ""

/-- Ends a branch: what stands above its base gives way to its final value. -/
def closeBranch (a : Activation) : Except RunError Activation :=
  match a.ifs with
  | [] => .error (.fault .emptyStack)
  | height :: ifs =>
    -- A branch that leaves nothing above its base has the value nil.
    let value := if height < a.stack.length then a.stack.headD .nil else .nil
    .ok { a with stack := value :: OperandStack.truncate height a.stack, ifs }

/-- Sends a message. -/
def send (m : Machine) (i : Instruction) (name : String) (s : State) (a : Activation)
    (outer : List Activation) : Progress :=
  let (args, below) := takeArgs i.op.argCount a.stack
  match below with
  | [] => .stop (.fault .emptyStack) s
  | receiver :: stack =>
    let caller := { a with stack }
    match m.react a.owner name receiver args with
    | .answer value =>
      .next { s with next := s.next + 1, frames := { a with stack := value :: stack } :: outer }
    | .fail cause => .stop (.failedAt s.next i cause) s
    | .fault f => .stop (.fault f) s
    | .call method owner =>
      -- The call is noted whether or not there is room for its frame.
      let calls := (m.methodName method, args.length) :: s.calls
      if maxCallDepth ≤ s.frames.length then
        .stop (.failedAt s.next i .stackTooDeep) { s with calls }
      else
        .next ⟨method + 1, .fresh args (some s.next) owner :: caller :: outer, calls⟩

/-- Goes on behind the closer of the block that an instruction opens. -/
def jump (m : Machine) (s : State) (frames : List Activation) : Progress :=
  match m.jumps.get? s.next with
  | some closer => .next { s with next := closer + 1, frames }
  | none => .stop (.fault .noSuchKey) s

/-- Goes on with the next instruction. -/
def advance (s : State) (frames : List Activation) : Progress :=
  .next { s with next := s.next + 1, frames }

/-- Executes one instruction. -/
def step (m : Machine) (i : Instruction) (s : State) : Progress :=
  match s.frames with
  | [] => .stop (.fault .noSuchElement) s
  | a :: outer =>
    let push (value : Value) : Progress :=
      advance s ({ a with stack := value :: a.stack } :: outer)
    match i.op with
    | .pushNil => push .nil
    | .pushInt value => push (.int value)
    | .pushStr text => push (.str text)
    | .pushConst name =>
      if m.classes.contains name then push (.cls name) else .stop (.fault .noSuchKey) s
    -- A local that has not been assigned reads as nil.
    | .pushVar name => push ((a.locals.get? name).getD .nil)
    | .setVar name =>
      match a.stack with
      | [] => .stop (.fault .emptyStack) s
      | value :: stack =>
        advance s ({ a with stack, locals := a.locals.set name value } :: outer)
    | .pushArg index =>
      match elementAt? a.args index with
      | some value => push value
      | none => .stop (.fault .noSuchElement) s
    | .send name _ => m.send i name s a outer
    -- A definition is not run. Its body is passed over, and its value is nil.
    | .defStart _ => m.jump s ({ a with stack := .nil :: a.stack } :: outer)
    | .defEnd _ =>
      match outer with
      | [] => .stop (.fault .noSuchElement) s
      | caller :: rest =>
        match a.returnTo with
        | none => .stop (.fault .noReturnAddress) s
        | some call =>
          let value := a.stack.headD .nil
          .next { s with
            next := call + 1
            frames := { caller with stack := value :: caller.stack } :: rest }
    | .classStart name =>
      if m.classes.contains name then
        advance s (.fresh [] none (some name) :: s.frames)
      else .stop (.fault .noSuchKey) s
    -- What the body of the class left goes with its frame.
    | .classEnd _ => advance s outer
    -- The height is that of the operands below the condition.
    | .ifStart =>
      match a.stack with
      | [] => .stop (.fault .emptyStack) s
      | condition :: stack =>
        let frames := { a with stack, ifs := stack.length :: a.ifs } :: outer
        if condition.isTruthy then advance s frames else m.jump s frames
    | .ifElse =>
      match closeBranch a with
      | .error e => .stop e s
      | .ok a => m.jump s (a :: outer)
    | .ifEnd =>
      match closeBranch a with
      | .error e => .stop e s
      | .ok a => advance s (a :: outer)
    | .unknown opcode _ => .stop (.failedAt s.next i (.unknownInstruction opcode)) s

/-- The value that a finished run leaves on top of the operands of the main program. -/
def result (s : State) : Except RunError Value :=
  match s.frames.getLast? with
  | none => .error (.fault .noSuchElement)
  | some main => .ok (main.stack.headD .nil)

/-- How far a run came. -/
inductive Outcome where
  /-- The budget was used up. -/
  | paused (state : State)
  | ended (result : Except RunError Value) (state : State)
  deriving Inhabited

/-- Runs at most a number of steps. -/
def runFor (m : Machine) : (steps : Nat) → State → Outcome
  | 0, s => .paused s
  | steps + 1, s =>
    match m.code[s.next]? with
    | none => .ended (result s) s
    | some i =>
      match m.step i s with
      | .next s => runFor m steps s
      | .stop e s => .ended (.error e) s

/-- The steps of one round. -/
def roundSteps : Nat := 4294967296

/-- Runs at most a number of rounds. -/
def runRounds (m : Machine) : (rounds : Nat) → State → Outcome
  | 0, s => .paused s
  | rounds + 1, s =>
    match m.runFor roundSteps s with
    | .paused s => runRounds m rounds s
    | outcome => outcome

/-- More rounds than a program can need: an activation goes through each instruction once at most,
each of them may call, and calls are nested no deeper than `maxCallDepth`. -/
def rounds (m : Machine) : Nat := Nat.pow (m.code.size + 1) (maxCallDepth + 2)

/-- Runs a program to its end. -/
def outcome (m : Machine) : Outcome := m.runRounds m.rounds .initial

/-- The value that a run ends with. -/
def Outcome.value : Outcome → Except RunError Value
  | .paused _ => .error .unfinished
  | .ended result _ => result

/-- How far a run came, as a state. -/
def Outcome.state : Outcome → State
  | .paused s => s
  | .ended _ s => s

/-- What there is to say about a run: the calls of methods, in order. -/
def Outcome.notices (o : Outcome) : List Notice :=
  o.state.calls.reverse.map fun (name, args) => .called name args

/-- The value of a program. -/
def run (m : Machine) : Except RunError Value := m.outcome.value

end Machine

end Rubylet
