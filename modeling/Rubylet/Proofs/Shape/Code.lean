import Rubylet.Instruction.Lowering
import Rubylet.Proofs.Graph.Built

/-!
# Programs of one shape

Two programs have one shape when they differ in the values of integer literals, in the contents of
string literals and in positions, and in nothing else. `shape` forgets these: it maps a syntax tree,
an instruction, a trace or a graph to what is left, so that having one shape is an equation.

Every stage up to the graph is followed here by the same step: what it makes of a shape is the shape
of what it makes. Errors are forgotten, because they tell positions.

* `lower_shape`: lowering, on trees.
* `trace_shape`, `ofTrace_shape`: the replay and the tables that it fills.
* `build_shape`: the dependency graph.
-/

namespace Rubylet

/-! ### Results without their errors -/

section ToOption

variable {ε α β : Type}

/-- A result is a value exactly when it is no error; what the error says is forgotten. -/
theorem toOption_eq_some_iff {x : Except ε α} {a : α} : x.toOption = some a ↔ x = .ok a := by
  cases x with
  | error e => exact ⟨nofun, nofun⟩
  | ok b => exact ⟨fun h => congrArg _ (Option.some.inj h), fun h => congrArg _ (Except.ok.inj h)⟩

/-- Two results in turn have values when both do. -/
theorem toOption_bind (x : Except ε α) (f : α → Except ε β) :
    (x >>= f).toOption = x.toOption.bind fun a => (f a).toOption := by
  cases x <;> rfl

theorem toOption_ok (a : α) : (.ok a : Except ε α).toOption = some a := rfl

theorem toOption_pure (a : α) : (pure a : Except ε α).toOption = some a := rfl

end ToOption

/-! ### Instructions -/

/-- An operation without the literal that it pushes. -/
def Operation.shape : Operation → Operation
  | .pushInt _ => .pushInt 0
  | .pushStr _ => .pushStr ""
  | op => op

/-- An instruction without its literal and its position. -/
def Instruction.shape (i : Instruction) : Instruction := ⟨i.op.shape, i.origin.kind, .start⟩

@[simp] theorem Instruction.op_shape (i : Instruction) : i.shape.op = i.op.shape := rfl

namespace Operation

@[simp] theorem shape_shape (op : Operation) : op.shape.shape = op.shape := by cases op <;> rfl

@[simp] theorem opcode_shape (op : Operation) : op.shape.opcode = op.opcode := by cases op <;> rfl

@[simp] theorem argCount_shape (op : Operation) : op.shape.argCount = op.argCount := by
  cases op <;> rfl

@[simp] theorem givenType?_shape (op : Operation) : op.shape.givenType? = op.givenType? := by
  cases op <;> rfl

/-- Operations of one shape are the same, or push two literals of one kind. -/
theorem shape_cases {op op' : Operation} (h : op.shape = op'.shape) :
    (∃ v v', op = .pushInt v ∧ op' = .pushInt v') ∨ (∃ t t', op = .pushStr t ∧ op' = .pushStr t') ∨
      op = op' := by
  cases op with
  | pushInt v => cases op' <;> first | exact .inl ⟨_, _, rfl, rfl⟩ | cases h
  | pushStr t => cases op' <;> first | exact .inr (.inl ⟨_, _, rfl, rfl⟩) | cases h
  | _ =>
    cases op' <;> cases h
    exact .inr (.inr rfl)

end Operation

theorem Instruction.shape_shape (i : Instruction) : i.shape.shape = i.shape := by
  rw [Instruction.shape, Instruction.op_shape, Operation.shape_shape]
  rfl

/-! ### Syntax trees -/

/-- A parameter without its position. -/
def Param.shape (p : Param) : Param := { p with pos := .start }

mutual

/-- A syntax tree without its literals and positions. -/
def Node.shape : Node → Node
  | .block _ statements => .block .start (Node.shapeAll statements)
  | .call _ receiver name args =>
    .call .start (Node.shapeOptional receiver) name (Node.shapeAll args)
  | .argument param => .argument param.shape
  | .methodDef _ name params body =>
    .methodDef .start name (params.map Param.shape) (Node.shapeOptional body)
  | .classDef _ name body => .classDef .start name body.shape
  | .conditional _ condition thenBody elseBody =>
    .conditional .start condition.shape (Node.shapeOptional thenBody) (Node.shapeOptional elseBody)
  | .assign _ name value => .assign .start name value.shape
  | .localRead _ name => .localRead .start name
  | .integer _ _ => .integer .start 0
  | .text _ _ => .text .start ""
  | .nil _ => .nil .start
  | .constant _ name => .constant .start name
  | .unsupported _ label construct => .unsupported .start label construct
  | .foreign value => .foreign value

/-- The shapes of several trees. -/
def Node.shapeAll : List Node → List Node
  | [] => []
  | x :: xs => x.shape :: Node.shapeAll xs

/-- The shape of a tree that may be missing. -/
def Node.shapeOptional : Option Node → Option Node
  | none => none
  | some x => some x.shape

end

theorem Node.shapeAll_eq (xs : List Node) : Node.shapeAll xs = xs.map Node.shape := by
  induction xs with
  | nil => rfl
  | cons x xs ih => rw [Node.shapeAll, ih, List.map_cons]

namespace Lowering

/-- The closing record keeps its shape: it repeats no text of the program. -/
theorem closing_shape (x : Node) : closing x.shape = (closing x).map Instruction.shape := by
  cases x <;> rfl

/-- The closing record of a body has the shape of its own. -/
theorem closingLast_shape (xs : List Node) :
    closingLast (Node.shapeAll xs) = (closingLast xs).map Instruction.shape := by
  rw [closingLast, closingLast, Node.shapeAll_eq, List.getLast?_map]
  cases xs.getLast? with
  | none => rfl
  | some last => exact closing_shape last

theorem lowerParam_shape (p : Param) :
    lowerParam p.shape = (lowerParam p).map Instruction.shape := rfl

/-- Parameters lower to the same records whatever their positions. -/
theorem lowerParams_shape (ps : List Param) :
    (ps.map Param.shape).flatMap lowerParam = (ps.flatMap lowerParam).map Instruction.shape := by
  rw [List.flatMap_map, List.map_flatMap]
  exact congrArg (List.flatMap · ps) (funext lowerParam_shape)

/-- A body that is no block is one statement, which closes the body. -/
theorem statement_shape {inside : Option String} {x : Node}
    (h : (lower inside x.shape).toOption =
      (lower inside x).toOption.map (List.map Instruction.shape)) :
    (lower inside x.shape >>= fun xs => pure (xs ++ closing x.shape)).toOption =
      (lower inside x >>= fun xs => pure (xs ++ closing x)).toOption.map
        (List.map Instruction.shape) := by
  simp only [toOption_bind, toOption_pure, h, closing_shape, Option.map_bind, Option.bind_map,
    Function.comp_def, Option.map_some, List.map_append]

theorem length_shapeAll (xs : List Node) : (Node.shapeAll xs).length = xs.length := by
  rw [Node.shapeAll_eq, List.length_map]

mutual

/-- **The shape of a tree is lowered to the shape of its instructions.** -/
theorem lower_shape (inside : Option String) : ∀ x : Node,
    (lower inside x.shape).toOption =
      (lower inside x).toOption.map (List.map Instruction.shape)
  | .block _ statements => by
    rw [Node.shape, lower, lower, lowerAll_shape inside statements]
  | .call pos receiver name args => by
    rw [Node.shape, lower, lower]
    simp only [toOption_bind, toOption_pure, lowerReceiver_shape inside pos receiver,
      lowerAll_shape inside args, length_shapeAll, Option.map_bind, Option.bind_map,
      Function.comp_def, Option.map_some, List.map_append, List.map_cons, List.map_nil]
    rfl
  | .argument _ => rfl
  | .methodDef pos name params body => by
    rw [Node.shape, lower, lower]
    simp only [toOption_bind, toOption_pure, lowerBody_shape inside ⟨.methodDef, pos⟩ body,
      lowerParams_shape, Option.map_bind, Option.bind_map,
      Function.comp_def, Option.map_some, List.map_append, List.map_cons, List.map_nil]
    rfl
  | .classDef pos name body => by
    rw [Node.shape]
    -- In a class both are refused; the errors tell where, and are forgotten.
    cases inside with
    | some outer => rfl
    | none =>
      rw [lower, lower]
      simp only [toOption_bind, toOption_pure, lower_shape (some name) body, Option.map_bind,
        Option.bind_map,
        Function.comp_def, Option.map_some, List.map_append, List.map_cons, List.map_nil]
      rfl
  | .conditional pos condition thenBody elseBody => by
    rw [Node.shape, lower, lower]
    simp only [toOption_bind, toOption_pure, lower_shape inside condition,
      lowerBody_shape inside ⟨.conditional, pos⟩, Option.map_bind, Option.bind_map,
      Function.comp_def, Option.map_some, List.map_append, List.map_cons, List.map_nil]
    rfl
  | .assign pos name value => by
    rw [Node.shape, lower, lower]
    simp only [toOption_bind, toOption_pure, lower_shape inside value, Option.map_bind,
      Option.bind_map,
      Function.comp_def, Option.map_some, List.map_append, List.map_cons, List.map_nil]
    rfl
  | .localRead _ _ | .integer _ _ | .text _ _ | .nil _ | .constant _ _ | .unsupported _ _ _
  | .foreign _ => rfl

/-- A list lowers to the same shapes, and fails when the other one fails. -/
theorem lowerAll_shape (inside : Option String) : ∀ xs : List Node,
    (lowerAll inside (Node.shapeAll xs)).toOption =
      (lowerAll inside xs).toOption.map (List.map Instruction.shape)
  | [] => rfl
  | x :: xs => by
    rw [Node.shapeAll, lowerAll, lowerAll]
    simp only [toOption_bind, toOption_pure, lower_shape inside x, lowerAll_shape inside xs,
      Option.map_bind, Option.bind_map, Function.comp_def, Option.map_some, List.map_append]

/-- A receiver lowers to the same shapes, and so does a missing one. -/
theorem lowerReceiver_shape (inside : Option String) (pos : Pos) : ∀ r : Option Node,
    (lowerReceiver inside .start (Node.shapeOptional r)).toOption =
      (lowerReceiver inside pos r).toOption.map (List.map Instruction.shape)
  | none => rfl
  | some x => lower_shape inside x

/-- A body lowers to the same shapes as its statements do. -/
theorem lowerBody_shape (inside : Option String) (owner : Origin) : ∀ b : Option Node,
    (lowerBody inside ⟨owner.kind, .start⟩ (Node.shapeOptional b)).toOption =
      (lowerBody inside owner b).toOption.map (List.map Instruction.shape)
  | none => rfl
  | some x => by
    have h := lower_shape inside x
    -- A block closes with its last statement, anything else with itself.
    cases x with
    | block pos xs =>
      cases xs with
      | nil => rfl
      | cons x xs =>
        have hclose := closingLast_shape (x :: xs)
        rw [Node.shape, lower, lower, Node.shapeAll] at h
        rw [Node.shapeAll] at hclose
        rw [Node.shapeOptional, Node.shape, Node.shapeAll, lowerBody, lowerBody]
        simp only [toOption_bind, toOption_pure, h, hclose, Option.map_bind, Option.bind_map,
          Function.comp_def, Option.map_some, List.map_append]
    | _ => exact statement_shape h

end

end Lowering

/-! ### The replay -/

namespace Replay

variable {n : Nat} {s : State}

/-- A step of which the instruction is left as a shape. -/
def Step.shape (t : Step) : Step := { t with instruction := t.instruction.shape }

theorem Step.shape_shape (t : Step) : t.shape.shape = t.shape := by
  rw [Step.shape, Step.shape, Instruction.shape_shape]

/-- The replay takes operands without looking at what the record prints. -/
theorem pop_shape (i : Instruction) (floor : Nat) (s : State) :
    (pop i.shape floor s).toOption = (pop i floor s).toOption := by
  unfold pop
  split <;> rfl

/-- Whether a conditional is open does not depend on what the record prints. -/
theorem openIf_shape (i : Instruction) (s : State) :
    (openIf i.shape s).toOption = (openIf i s).toOption := by
  unfold openIf
  split <;> rfl

/-- An instruction consumes what its shape consumes. -/
theorem step_shape (n : Nat) (i : Instruction) (s : State) :
    (step n i.shape s).toOption = (step n i s).toOption := by
  unfold step
  rw [Instruction.op_shape]
  -- By operation: the shape of a literal steps as the literal does, and the errors differ only in
  -- what they print.
  cases hop : i.op with
  | pushArg index =>
    dsimp only [Operation.shape]
    split <;> rfl
  | setVar name =>
    simp only [Operation.shape, toOption_bind, pop_shape, toOption_pure]
  | send name count =>
    simp only [Operation.shape]
    split
    · rfl
    · simp only [toOption_bind, pop_shape, toOption_pure]
  | defEnd name =>
    simp only [Operation.shape]
    split
    · rfl
    · simp only [toOption_bind, pop_shape, toOption_pure]
  | classStart name | classEnd name =>
    dsimp only [Operation.shape]
    split <;> rfl
  | ifStart => simp only [Operation.shape, toOption_bind, pop_shape, toOption_pure]
  | ifElse | ifEnd =>
    simp only [Operation.shape, toOption_bind, openIf_shape, pop_shape, toOption_pure]
  | _ => rfl

/-- The replay of a code is told by the shapes of its instructions. -/
theorem traceFrom_shape (code : List Instruction) : ∀ (n : Nat) (s : State),
    (traceFrom n s (code.map Instruction.shape)).steps =
        (traceFrom n s code).steps.map Step.shape ∧
      ((traceFrom n s (code.map Instruction.shape)).error? = none ↔
        (traceFrom n s code).error? = none) := by
  induction code with
  | nil => exact fun _ _ => ⟨rfl, Iff.rfl⟩
  | cons i rest ih =>
    intro n s
    have hstep := step_shape n i s
    rw [List.map_cons, traceFrom, traceFrom]
    -- An instruction is refused on both sides or on neither, and leaves the same state.
    cases h : step n i s with
    | error e =>
      rw [h] at hstep
      cases h' : step n i.shape s with
      | error e' => exact ⟨rfl, iff_of_false (Option.some_ne_none _) (Option.some_ne_none _)⟩
      | ok r => rw [h'] at hstep; cases hstep
    | ok r =>
      obtain ⟨event, after⟩ := r
      rw [h, toOption_ok, toOption_eq_some_iff] at hstep
      rw [hstep]
      obtain ⟨hsteps, herror⟩ := ih (n + 1) after
      exact ⟨congrArg (Step.shape ⟨n, i, event, after⟩ :: ·) hsteps, herror⟩

/-- **A shape is replayed step by step as the code is.** -/
theorem trace_shape (code : List Instruction) :
    (trace (code.map Instruction.shape)).steps = (trace code).steps.map Step.shape ∧
      ((trace (code.map Instruction.shape)).error? = none ↔ (trace code).error? = none) :=
  traceFrom_shape code 0 .initial

end Replay

/-! ### The index -/

namespace Index

/-- The tables alone, without what there was to say. -/
def mute (x : Index) : Index := { x with notices := [] }

/-- Two indices agree up to their lines when their tables do. -/
theorem mute_eq_iff {x y : Index} : x.mute = y.mute ↔ x.methods = y.methods ∧
    x.classes = y.classes ∧ x.callers = y.callers ∧ x.arity = y.arity ∧ x.calls = y.calls := by
  obtain ⟨_, _, _, _, _, _⟩ := x
  obtain ⟨_, _, _, _, _, _⟩ := y
  simp [mute]

theorem mute_setMethod (x : Index) (name : String) (n : Nat) (owner : Option String) :
    (x.setMethod name n owner).mute = x.mute.setMethod name n owner := by
  cases owner with
  | none => rfl
  | some owner =>
    cases h : x.classes.get? owner <;> simp only [setMethod, mute, h]

/-- Whether a definition is noticed makes no difference to the tables. -/
theorem mute_define (x : Index) (n : Nat) (name : String) (owner : Option String) (line : Int) :
    (x.define n name owner line).mute =
      { x.mute.setMethod name n owner with
        arity := (x.mute.setMethod name n owner).arity.set n 0 } := by
  -- A notice may or may not have been added before the method is entered.
  have hnote : ∀ y : Index, y.mute = x.mute →
      Index.mute { y.setMethod name n owner with
        arity := (y.setMethod name n owner).arity.set n 0 } =
      { x.mute.setMethod name n owner with
        arity := (x.mute.setMethod name n owner).arity.set n 0 } := by
    intro y hy
    have hset := mute_setMethod y name n owner
    rw [hy] at hset
    rw [← hset]
    rfl
  unfold define
  split
  · exact hnote _ rfl
  · exact hnote _ rfl

/-- Apart from what it says, opening a class depends on the class alone. -/
theorem mute_openClass (x : Index) (n : Nat) (name : String) (line : Int) :
    (x.openClass n name line).mute =
      if x.mute.classes.contains name then x.mute
      else { x.mute with classes := x.mute.classes.set name ⟨n, .empty⟩ } := by
  show Index.mute (if x.classes.contains name then _ else _) = if x.classes.contains name then _ else _
  split <;> rfl

/-- Notices, which tell lines, have no effect on the tables. -/
theorem mute_learn (x : Index) (t : Replay.Step) :
    (x.learn t).mute = (x.mute.learn t.shape).mute := by
  obtain ⟨n, ⟨op, origin⟩, event, after⟩ := t
  cases op <;> cases event <;> try rfl
  · exact (mute_define ..).trans (mute_define x.mute ..).symm
  · exact (mute_openClass ..).trans (mute_openClass x.mute ..).symm

/-- Indices that agree up to what they say learn alike from steps of the same shape. -/
theorem foldl_learn_shape (ts : List Replay.Step) : ∀ {x y : Index}, x.mute = y.mute →
    ((ts.map Replay.Step.shape).foldl learn x).mute = (ts.foldl learn y).mute := by
  induction ts with
  | nil => exact fun h => h
  | cons t ts ih =>
    intro x y h
    refine ih ?_
    rw [mute_learn, Replay.Step.shape_shape, h, ← mute_learn]

/-- **A shape fills the same tables.** -/
theorem ofTrace_shape (code : List Instruction) :
    (ofTrace (Replay.trace (code.map Instruction.shape))).mute =
      (ofTrace (Replay.trace code)).mute := by
  rw [ofTrace, (Replay.trace_shape code).1]
  exact foldl_learn_shape _ rfl

/-- What a call's type comes from is told by the tables, the name and the number of arguments. -/
theorem choose_shape {x y : Index} (h : x.mute = y.mute) {i j : Instruction}
    (hname : i.op.name? = j.op.name?) (receiver : Ty) (info : CallInfo) :
    (x.choose receiver i info).toOption = (y.choose receiver j info).toOption := by
  have hfind : ∀ name owner, x.findMethod name owner = y.findMethod name owner :=
    fun name owner => show x.mute.findMethod name owner = y.mute.findMethod name owner by rw [h]
  have himplicit : ∀ name owner, x.implicitMethod name owner = y.implicitMethod name owner :=
    fun name owner =>
      show x.mute.implicitMethod name owner = y.mute.implicitMethod name owner by rw [h]
  -- The number of arguments is checked on both sides, though the error names the call.
  have harity : ∀ given method name name',
      (x.checkArity i given method name).toOption = (y.checkArity j given method name').toOption := by
    intro given method name name'
    simp only [checkArity, (mute_eq_iff.mp h).2.2.2.1]
    split <;> rfl
  unfold choose
  cases receiver with
  | nil =>
    simp only [hname, himplicit]
    split
    · exact harity ..
    · rfl
  | object className =>
    simp only [hname, hfind]
    split
    · exact harity ..
    · rfl
  | cls => simp only [hname]
  | _ => rfl

end Index

/-! ### The edges -/

namespace Wiring

/-- What calls pass is found without looking at what was said. -/
theorem passedArgs_mute (x : Index) (index : Int) (callers : List Nat) :
    passedArgs x.mute index callers = passedArgs x index callers := by
  induction callers with
  | nil => rfl
  | cons call rest ih => rw [passedArgs, passedArgs, ih]; rfl

/-- The name of a method is told by the instruction that defines it. -/
theorem methodName_shape {code : List Instruction} {method : Nat} {i : Instruction} {name : String}
    (hi : code[method]? = some i) (hop : i.op = .defStart name) :
    methodName (code.map Instruction.shape).toArray method = methodName code.toArray method := by
  simp only [methodName, List.getElem?_toArray, List.getElem?_map, hi, Option.map_some,
    Option.bind_some, Instruction.op_shape, hop]
  rfl

/-- A call is wired to the same method whatever the literals around it are. -/
theorem sendDependency_shape {x y : Index} (h : x.mute = y.mute) {i j : Instruction}
    (hname : i.op.name? = j.op.name?) (type? : Option Ty) (info : CallInfo) (site : CallSite) :
    (sendDependency x type? i info site).toOption =
      (sendDependency y type? j info site).toOption := by
  have hchoose : ∀ t, (x.choose t i info).toOption = (y.choose t j info).toOption := fun t =>
    Index.choose_shape h hname t info
  unfold sendDependency
  split
  · rfl
  · rfl
  · rw [toOption_bind, toOption_bind, hchoose]

/-- An instruction is wired as its shape is. -/
theorem learn_shape {code : List Instruction} {x y : Index} (h : x.mute = y.mute)
    {t : Replay.Step} (hmethod : ∀ d, t.event = .pushArg d →
      methodName (code.map Instruction.shape).toArray d = methodName code.toArray d) (w : State) :
    (learn (code.map Instruction.shape).toArray x w t.shape).toOption =
      (learn code.toArray y w t).toOption := by
  obtain ⟨n, ⟨op, origin⟩, event, after⟩ := t
  obtain ⟨-, hclasses, hcallers, -⟩ := Index.mute_eq_iff.mp h
  have hargs : ∀ index callers, passedArgs x index callers = passedArgs y index callers :=
    fun index callers => by rw [← passedArgs_mute x, h, passedArgs_mute]
  -- What the operations learn; the other pairs do not occur and learn nothing.
  cases op <;> cases event <;> try rfl
  · next name =>
    simp only [learn, Replay.Step.shape, Instruction.shape, Operation.shape, hclasses]
    split <;> rfl
  · next name =>
    simp only [learn, Replay.Step.shape, Instruction.shape, Operation.shape]
    split <;> rfl
  · next index method =>
    simp only [learn, Replay.Step.shape, Instruction.shape, Operation.shape, hcallers, hargs,
      hmethod method rfl]
  · next name count receiver args =>
    -- A literal receiver keeps its type in its shape.
    have htype : ((code.map Instruction.shape).toArray[receiver]?.bind fun r => r.op.givenType?) =
        code.toArray[receiver]?.bind fun r => r.op.givenType? := by
      rw [List.getElem?_toArray, List.getElem?_toArray, List.getElem?_map]
      cases code[receiver]? with
      | none => rfl
      | some i => exact i.op.givenType?_shape
    have hsend := sendDependency_shape h (i := ⟨.send name count, ⟨origin.kind, .start⟩⟩)
      (j := ⟨.send name count, origin⟩) rfl (code.toArray[receiver]?.bind fun r => r.op.givenType?)
      ⟨args, after.currentClass⟩ ⟨receiver, n, args⟩
    simp only [learn, Replay.Step.shape, Instruction.shape, Operation.shape, htype]
    revert hsend
    generalize sendDependency x _ _ _ _ = d
    generalize sendDependency y _ _ _ _ = d'
    intro hsend
    cases d <;> cases d' <;> cases hsend <;> rfl

end Wiring

/-! ### The graph -/

/-- Two folds of which each step comes to the same, come to the same. -/
theorem Replay.fold_shape {σ ε : Type} {f g : σ → Replay.Step → Except ε σ} :
    ∀ (ts : List Replay.Step) (w : σ),
      (∀ t ∈ ts, ∀ w, (g w t.shape).toOption = (f w t).toOption) →
      (fold g w (ts.map Replay.Step.shape)).1 = (fold f w ts).1 ∧
        ((fold g w (ts.map Replay.Step.shape)).2 = none ↔ (fold f w ts).2 = none) := by
  intro ts
  induction ts with
  | nil => exact fun _ _ => ⟨rfl, Iff.rfl⟩
  | cons t ts ih =>
    intro w h
    have ht := h t (.head _) w
    rw [List.map_cons, fold, fold]
    -- Both folds stop at this step, or go on from the same state.
    cases hf : f w t with
    | error e =>
      rw [hf] at ht
      cases hg : g w t.shape with
      | error e' => exact ⟨rfl, iff_of_false (Option.some_ne_none _) (Option.some_ne_none _)⟩
      | ok w' => rw [hg] at ht; cases ht
    | ok w' =>
      rw [hf, toOption_ok, toOption_eq_some_iff] at ht
      rw [ht]
      exact ih w' fun t ht => h t (.tail _ ht)

/-- A record of which the instruction is left as a shape. -/
def Record.shape (r : Record) : Record := { r with instruction := r.instruction.shape }

namespace Graph

/-- A graph without literals, positions and notices. -/
def shape (g : Graph) : Graph := ⟨g.records.map Record.shape, g.index.mute⟩

/-- The records of the two graphs have the same shape. -/
theorem recordsFrom_shape {x y : Index} (h : x.calls = y.calls) (w : Wiring.State) :
    ∀ (code : List Instruction) (n : Nat),
      (recordsFrom x w n (code.map Instruction.shape)).map Record.shape =
        (recordsFrom y w n code).map Record.shape := by
  intro code
  induction code with
  | nil => exact fun _ => rfl
  | cons i rest ih =>
    intro n
    simp only [List.map_cons, recordsFrom, ih, h, Record.shape, Instruction.shape_shape,
      Instruction.op_shape, Operation.givenType?_shape]

/-- The steps of a trace that went through are those of its instructions. -/
theorem exists_occurs_of_mem {code : List Instruction} (h : (Replay.trace code).error? = none)
    {t : Replay.Step} (ht : t ∈ (Replay.trace code).steps) :
    ∃ n, Replay.Occurs code n t.instruction t.event := by
  obtain ⟨n, hn⟩ := List.getElem?_of_mem ht
  have hlt := (List.getElem?_eq_some_iff.mp hn).1
  rw [show (Replay.trace code).steps.length = code.length from
    Replay.length_steps _ _ _ h] at hlt
  obtain ⟨e, ho, hs⟩ := Replay.exists_occurs h (List.getElem?_eq_getElem hlt)
  obtain rfl := Option.some.inj (hn.symm.trans hs)
  exact ⟨n, ho⟩

/-- A parameter that occurs belongs to a method definition. -/
theorem methodName_of_occurs {code : List Instruction} (h : (Replay.trace code).error? = none)
    {n d : Nat} {i : Instruction} (ho : Replay.Occurs code n i (.pushArg d)) :
    Wiring.methodName (code.map Instruction.shape).toArray d =
      Wiring.methodName code.toArray d := by
  have hof := ho.of_op
  -- The event is that of a parameter, which stands in a definition.
  obtain ⟨index, hop⟩ : ∃ index, i.op = .pushArg index := by
    cases hop : i.op <;> rw [hop] at hof <;> first | exact ⟨_, rfl⟩ | cases hof
  obtain ⟨d', defs, hdefs, he, -⟩ := ho.pushArg hop
  obtain rfl := Replay.Event.pushArg.inj he
  obtain ⟨-, j, name, hj, hname⟩ :=
    (Replay.opened_stateAt h n (Nat.le_of_lt ho.lt)).defs d (hdefs ▸ .head _)
  exact Wiring.methodName_shape hj hname

/-- **The graph of a shape has the shape of the graph.** -/
theorem build_shape (code : List Instruction) :
    (build (code.map Instruction.shape)).toOption.map shape = (build code).toOption.map shape := by
  obtain ⟨hsteps, herror⟩ := Replay.trace_shape code
  have hmute := Index.ofTrace_shape code
  unfold build
  dsimp only
  -- The replay fails on both sides or on neither.
  cases h : (Replay.trace code).error? with
  | some e =>
    cases h' : (Replay.trace (code.map Instruction.shape)).error? with
    | some e' => rfl
    | none => rw [herror.mp h'] at h; cases h
  | none =>
    rw [herror.mpr h]
    dsimp only
    rw [hsteps]
    -- So does the wiring, which is a fold over the same steps.
    obtain ⟨hfst, hsnd⟩ := Replay.fold_shape
      (f := Wiring.learn code.toArray (.ofTrace (Replay.trace code)))
      (g := Wiring.learn (code.map Instruction.shape).toArray
        (.ofTrace (Replay.trace (code.map Instruction.shape))))
      (Replay.trace code).steps .initial fun t ht w => by
        obtain ⟨n, ho⟩ := exists_occurs_of_mem h ht
        exact Wiring.learn_shape hmute (fun d hd => methodName_of_occurs h (hd ▸ ho)) w
    revert hfst hsnd
    generalize Replay.fold _ _ (List.map _ _) = r'
    generalize Replay.fold _ _ _ = r
    obtain ⟨w, e⟩ := r
    obtain ⟨w', e'⟩ := r'
    rintro rfl hsnd
    cases e with
    | some e =>
      cases e' with
      | some e' => rfl
      | none => cases hsnd.mp rfl
    | none =>
      obtain rfl : e' = none := hsnd.mpr rfl
      dsimp only
      simp only [toOption_ok, Option.map_some, shape, hmute, List.map_toArray,
        recordsFrom_shape (Index.mute_eq_iff.mp hmute).2.2.2.2]

end Graph

end Rubylet
