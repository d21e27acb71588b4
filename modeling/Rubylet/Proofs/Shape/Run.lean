import Rubylet.Proofs.Code.Compiled
import Rubylet.Proofs.Machine.Runs
import Rubylet.Proofs.Shape.Types
import Rubylet.Proofs.Syntax.Accepted
import Rubylet.Proofs.Typing.Flow

/-!
# Control flow is told by the shape

Two programs of one shape are run side by side. Their states have one shape all the way: the same
instruction comes next, the same methods have been entered, and the operands, locals and arguments
of every activation are values of the same kinds (`control_told_by_shape`).

Only the value of an operator depends on more than the kinds of its operands, and it always has the
kind that the operator promises. What can differ is whether there is a value at all: a division by
zero, or a repetition that is too long, ends one run and not the other. So the runs are compared up
to the first step in which that happens (`Machine.Interrupted`); that it cannot be left out of
account is shown by `huge_repetition_diverges`.
-/

namespace Rubylet

open Machine

/-! ### Values and states of one shape -/

/-- A value without the contents of integers and strings. -/
def Value.shape : Value → Value
  | .int _ => .int 0
  | .str _ => .str ""
  | v => v

namespace Machine

/-- Locals without the contents of their values. -/
def shapeLocals (t : Table String Value) : Table String Value :=
  ⟨t.entries.map fun (name, v) => (name, v.shape)⟩

/-- An activation without the contents of its values. -/
def Activation.shape (a : Activation) : Activation :=
  { a with
    stack := a.stack.map Value.shape
    locals := shapeLocals a.locals
    args := a.args.map Value.shape }

/-- A state without the contents of its values. -/
def State.shape (s : State) : State := { s with frames := s.frames.map Activation.shape }

/-- The shape of the state that a step leads to. -/
def Progress.shape : Progress → Option State
  | .next s => some s.shape
  | .stop _ _ => none

end Machine

/-- Errors that depend on the contents of values: a division by zero, a repetition of a text that is
too long. -/
def RunError.isArithmetic : RunError → Bool
  | .failed e => e.cause = .dividedByZero
  | .fault .beyondIndex | .fault .outOfMemory => true
  | _ => false

/-- The next step of a state fails on the contents of values. -/
def Machine.Interrupted (m : Machine) (s : State) : Prop :=
  ∃ i e s', m.code[s.next]? = some i ∧ m.step i s = .stop e s' ∧ e.isArithmetic

instance (m : Machine) (s : State) : Decidable (m.Interrupted s) :=
  decidable_of_iff ((m.code[s.next]?.any fun i =>
      match m.step i s with
      | .next _ => false
      | .stop e _ => e.isArithmetic) = true) <| by
    constructor
    · intro h
      obtain ⟨i, hi, hany⟩ := Option.any_eq_true _ _ |>.mp h
      cases hstep : m.step i s with
      | next s' => rw [hstep] at hany; cases hany
      | stop e s' => rw [hstep] at hany; exact ⟨i, e, s', hi, hstep, hany⟩
    · rintro ⟨i, e, s', hi, hstep, he⟩
      rw [hi, Option.any_some, hstep]
      exact he

/-! ### Tables of values -/

namespace Table

variable {κ α β : Type} [DecidableEq κ]

/-- A search among values that were changed finds the changed value. -/
theorem find_map (f : α → β) (k : κ) (es : List (κ × α)) :
    find k (es.map fun (k, v) => (k, f v)) = (find k es).map f := by
  induction es with
  | nil => rfl
  | cons e es ih =>
    rw [List.map_cons, find, find, ih]
    split <;> rfl

theorem update_map (f : α → β) (k : κ) (v : α) (es : List (κ × α)) :
    (update k v es).map (fun (k, v) => (k, f v)) = update k (f v) (es.map fun (k, v) => (k, f v)) := by
  induction es with
  | nil => rfl
  | cons e es ih =>
    rw [List.map_cons, update, update]
    split
    · rfl
    · rw [List.map_cons, ih]

end Table

namespace Value

theorem type?_shape (v : Value) : v.shape.type? = v.type? := by cases v <;> rfl

theorem isTruthy_shape (v : Value) : v.shape.isTruthy = v.isTruthy := by cases v <;> rfl

end Value

/-! ### Operators -/

/-- Two integers give an integer, all other operands that an operator takes give a text. -/
theorem Operator.shape_of_apply {o : Operator} {memory : Nat} {l r v : Value}
    (h : o.apply memory l r = .ok v) :
    v.shape = if l.shape = .int 0 ∧ r.shape = .int 0 then .int 0 else .str "" := by
  -- A repetition is a text, however long.
  have hrep : ∀ {s : String} {k : Int}, (Value.replicateText memory s k).map Value.str = .ok v →
      v.shape = .str "" := by
    intro s k h
    cases hs : Value.replicateText memory s k with
    | error f => rw [hs] at h; cases h
    | ok t =>
      rw [hs] at h
      rw [← Except.ok.inj h, Value.shape]
  unfold Operator.apply at h
  split at h <;> first
    | exact hrep h
    | (cases h; rfl)
    | cases h
    | (split at h <;> cases h; rfl)

/-- Two results of an operator have the same shape when the operands do. -/
theorem Operator.apply_shape {o : Operator} {memory memory' : Nat} {l l' r r' v v' : Value}
    (hl : l.shape = l'.shape) (hr : r.shape = r'.shape) (h : o.apply memory l r = .ok v)
    (h' : o.apply memory' l' r' = .ok v') :
    v.shape = v'.shape := by
  rw [shape_of_apply h, shape_of_apply h', hl, hr]

/-- An operator whose operands are of the right types fails only on their contents. -/
theorem Operator.fault_of_apply {t : Ty} {name : String} {o : Operator} {memory : Nat} {l r : Value}
    {f : Fault} (ho : Operator.find? t name = some o) (hl : l.type? = some t)
    (hr : r.type? = some o.argType) (h : o.apply memory l r = .error f) :
    f = .divisionByZero ∨ f = .beyondIndex ∨ f = .outOfMemory := by
  have hrep : ∀ {s : String} {k : Int}, (Value.replicateText memory s k).map Value.str = .error f →
      f = .beyondIndex ∨ f = .outOfMemory := by
    intro s k h
    unfold Value.replicateText at h
    split at h
    · next fault hf =>
      obtain rfl := Except.error.inj h
      unfold repetitionFault? at hf
      grind
    · cases h
  -- The receiver's type decides which operators there are, and both types which values.
  have hkinds : t = .int ∧ o ∈ [add, subtract, multiply, divide] ∨
      t = .str ∧ o ∈ [concat, replicate] := by
    unfold find? at ho
    cases t <;> simp only [reduceCtorEq] at ho <;> grind
  rcases hkinds with ⟨rfl, hmem⟩ | ⟨rfl, hmem⟩
  · obtain ⟨a, rfl⟩ : ∃ a, l = .int a := by cases l <;> cases hl; exact ⟨_, rfl⟩
    obtain ⟨b, rfl⟩ : ∃ b, r = .int b := by
      simp only [List.mem_cons, List.not_mem_nil, or_false] at hmem
      rcases hmem with rfl | rfl | rfl | rfl <;> cases r <;> cases hr <;> exact ⟨_, rfl⟩
    simp only [List.mem_cons, List.not_mem_nil, or_false] at hmem
    rcases hmem with rfl | rfl | rfl | rfl
    · cases h
    · cases h
    · cases h
    · simp only [apply] at h
      split at h <;> cases h
      exact .inl rfl
  · obtain ⟨a, rfl⟩ : ∃ a, l = .str a := by cases l <;> cases hl; exact ⟨_, rfl⟩
    simp only [List.mem_cons, List.not_mem_nil, or_false] at hmem
    rcases hmem with rfl | rfl
    · cases r <;> cases hr
      cases h
    · cases r <;> cases hr
      exact .inr (hrep h)

namespace Machine

variable {m m' : Machine} {s s' : State} {a a' : Activation} {outer outer' : List Activation}

/-! ### Parts of a step -/

/-- Frames of the same shape agree in everything but the numbers and texts they hold. -/
theorem Activation.shape_eq_iff : a.shape = a'.shape ↔
    a.stack.map Value.shape = a'.stack.map Value.shape ∧ shapeLocals a.locals = shapeLocals a'.locals ∧
      a.args.map Value.shape = a'.args.map Value.shape ∧ a.returnTo = a'.returnTo ∧
      a.owner = a'.owner ∧ a.ifs = a'.ifs := by
  simp only [Activation.shape, Activation.mk.injEq]

/-- Values of the same shape are pushed on frames of the same shape. -/
theorem shape_push {v v' : Value} (ha : a.shape = a'.shape) (hv : v.shape = v'.shape) :
    Activation.shape { a with stack := v :: a.stack } =
      Activation.shape { a' with stack := v' :: a'.stack } := by
  simp only [Activation.shape, Activation.mk.injEq, List.map_cons] at ha ⊢
  exact ⟨by rw [hv, ha.1], ha.2⟩

/-- Stacks of one shape are both empty, or have tops of one shape. -/
theorem shape_pop (ha : a.shape = a'.shape) :
    (a.stack = [] ∧ a'.stack = []) ∨ ∃ v stack v' stack', a.stack = v :: stack ∧
      a'.stack = v' :: stack' ∧ v.shape = v'.shape ∧ stack.length = stack'.length ∧
      Activation.shape { a with stack := stack } = Activation.shape { a' with stack := stack' } := by
  simp only [Activation.shape, Activation.mk.injEq] at ha ⊢
  obtain ⟨hstack, hrest⟩ := ha
  -- Equal shapes make both stacks empty, or both one value longer than stacks of equal shape.
  cases hs : a.stack with
  | nil =>
    rw [hs] at hstack
    exact .inl ⟨rfl, List.map_eq_nil_iff.mp hstack.symm⟩
  | cons v stack =>
    rw [hs] at hstack
    obtain ⟨v', stack', hs', hv, hrest'⟩ := List.map_eq_cons_iff.mp hstack.symm
    exact .inr ⟨v, stack, v', stack', rfl, hs', hv.symm, by simpa using (congrArg List.length hrest').symm,
      hrest'.symm, hrest⟩

/-- What stands on top of stacks of one shape has one shape, and is nil if nothing is there. -/
theorem shape_headD {vs vs' : List Value} (h : vs.map Value.shape = vs'.map Value.shape) :
    (vs.headD .nil).shape = (vs'.headD .nil).shape := by
  cases vs with
  | nil => rw [List.map_eq_nil_iff.mp h.symm]
  | cons v vs =>
    obtain ⟨v', vs', rfl, hv, -⟩ := List.map_eq_cons_iff.mp h.symm
    exact hv.symm

/-- A conditional that is opened starts from one height in both. -/
theorem shape_openBranch {stack stack' : List Value} (hlength : stack.length = stack'.length)
    (h : Activation.shape { a with stack } = Activation.shape { a' with stack := stack' }) :
    Activation.shape { a with stack, ifs := stack.length :: a.ifs } =
      Activation.shape { a' with stack := stack', ifs := stack'.length :: a'.ifs } := by
  obtain ⟨hstack, hlocals, hargs, hreturn, howner, hifs⟩ := Activation.shape_eq_iff.mp h
  refine Activation.shape_eq_iff.mpr ⟨hstack, hlocals, hargs, hreturn, howner, ?_⟩
  dsimp only at hifs ⊢
  rw [hlength, hifs]

/-- A branch ends in both activations, with results of one shape, or in none of them. -/
theorem shape_closeBranch (ha : a.shape = a'.shape) :
    (∃ e e', closeBranch a = .error e ∧ closeBranch a' = .error e') ∨
      ∃ c c', closeBranch a = .ok c ∧ closeBranch a' = .ok c' ∧ c.shape = c'.shape := by
  obtain ⟨hstack, hlocals, hargs, hreturn, howner, hifs⟩ := Activation.shape_eq_iff.mp ha
  have hlength : a.stack.length = a'.stack.length := by
    simpa using congrArg List.length hstack
  unfold closeBranch
  rw [hifs]
  -- Both frames have the same conditionals open, with the same heights.
  cases a'.ifs with
  | nil => exact .inl ⟨_, _, rfl, rfl⟩
  | cons height ifs =>
    -- The value of the branch lies above the same height, or is nil on both sides.
    have htop : (if height < a.stack.length then a.stack.headD .nil else .nil : Value).shape =
        (if height < a'.stack.length then a'.stack.headD .nil else .nil : Value).shape := by
      rw [hlength]
      split
      · exact shape_headD hstack
      · rfl
    refine .inr ⟨_, _, rfl, rfl, ?_⟩
    simp only [Activation.shape, List.map_cons, htop, OperandStack.map_truncate, hstack, hlocals,
      hargs, hreturn, howner]

/-- Stacks of the same shape give arguments of the same shape, above stacks of the same shape. -/
theorem shape_takeArgs (count : Nat) {vs vs' : List Value}
    (h : vs.map Value.shape = vs'.map Value.shape) :
    (takeArgs count vs).1.map Value.shape = (takeArgs count vs').1.map Value.shape ∧
      (takeArgs count vs).2.map Value.shape = (takeArgs count vs').2.map Value.shape := by
  have hlength : vs.length = vs'.length := by simpa using congrArg List.length h
  simp only [takeArgs, hlength, List.map_reverse, List.map_take, List.map_drop, h, and_self]

/-- What a message leads to, without the contents of values. -/
def Reaction.shape : Reaction → Option (Value ⊕ Nat × Option String)
  | .answer v => some (.inl v.shape)
  | .call method owner => some (.inr (method, owner))
  | .fail _ | .fault _ => none

/-- A reaction that fails on the contents of values. -/
def Reaction.isArithmetic : Reaction → Bool
  | .fail cause => cause = .dividedByZero
  | .fault f => (RunError.fault f).isArithmetic
  | _ => false

/-- An operator that fails on operands of the right types fails on their contents. -/
theorem isArithmetic_of_apply {t : Ty} {name : String} {o : Operator} {memory : Nat} {r arg : Value}
    {f : Fault} (hfind : Operator.find? t name = some o) (hr : r.type? = some t)
    (harg : arg.type? = some o.argType) (h : o.apply memory r arg = .error f) :
    (primitive memory name r [arg]).isArithmetic := by
  have hfind' : (r.type?.bind fun t => Operator.find? t name) = some o := by
    rw [hr]
    exact hfind
  simp only [primitive, hfind', harg, if_true, h]
  rcases Operator.fault_of_apply hfind hr harg h with rfl | rfl | rfl <;> rfl

@[simp] theorem shape_showing (cause : Except Fault BackendCause) :
    (Reaction.showing cause).shape = none := by
  cases cause <;> rfl

/-- An operator reacts alike to operands of one shape, however much room there is for texts. -/
theorem shape_primitive {memory memory' : Nat} {name : String} {r r' : Value}
    {args args' : List Value} (hr : r.shape = r'.shape)
    (hargs : args.map Value.shape = args'.map Value.shape)
    (hn : ¬ (primitive memory name r args).isArithmetic)
    (hn' : ¬ (primitive memory' name r' args').isArithmetic) :
    (primitive memory name r args).shape = (primitive memory' name r' args').shape := by
  -- The type of the receiver is in its shape, so both sides find the same operator.
  have htype : r.type? = r'.type? := by rw [← r.type?_shape, hr, r'.type?_shape]
  cases ho : (r.type?.bind fun t => Operator.find? t name) with
  | none =>
    have ho' : (r'.type?.bind fun t => Operator.find? t name) = none := htype ▸ ho
    simp only [primitive, ho, ho', shape_showing]
  | some o =>
    have ho' : (r'.type?.bind fun t => Operator.find? t name) = some o := htype ▸ ho
    obtain ⟨t, ht, hfind⟩ := Option.bind_eq_some_iff.mp ho
    have hlength : args.length = args'.length := by simpa using congrArg List.length hargs
    match args, args', hlength with
    | [], [], _ => simp only [primitive, ho, ho', shape_showing]
    | [arg], [arg'], _ =>
      have harg : arg.shape = arg'.shape := (List.cons.inj hargs).1
      have htype' : arg.type? = arg'.type? := by rw [← arg.type?_shape, harg, arg'.type?_shape]
      -- The argument converts on both sides or on neither.
      by_cases hconv : arg.type? = some o.argType
      · have hconv' : arg'.type? = some o.argType := htype' ▸ hconv
        cases h : o.apply memory r arg with
        | error f => exact absurd (isArithmetic_of_apply hfind ht hconv h) hn
        | ok v =>
          cases h' : o.apply memory' r' arg' with
          | error f => exact absurd (isArithmetic_of_apply hfind (htype ▸ ht) hconv' h') hn'
          | ok v' =>
            simp only [primitive, ho, ho', hconv, hconv', h, h', if_true, Reaction.shape]
            rw [Operator.apply_shape hr harg h h']
      · have hconv' : arg'.type? ≠ some o.argType := htype' ▸ hconv
        simp only [primitive, ho, ho', hconv, hconv', if_false, shape_showing]
    | _ :: _ :: _, _ :: _ :: _, _ => simp only [primitive, ho, ho', shape_showing]

/-! ### Steps -/

/-- Two machines of one shape, which call their methods by the same names. -/
structure Alike (m m' : Machine) : Prop where
  code : m.code.map Instruction.shape = m'.code.map Instruction.shape
  methods : m.methods = m'.methods
  classes : m.classes = m'.classes
  jumps : m.jumps = m'.jumps
  names : ∀ {owner name receiver args d owner'}, m.react owner name receiver args = .call d owner' →
    m.methodName d = m'.methodName d

/-- States of one shape are at the same instruction, with activations of one shape. -/
theorem shape_eq_iff : s.shape = s'.shape ↔ s.next = s'.next ∧
    s.frames.map Activation.shape = s'.frames.map Activation.shape ∧ s.calls = s'.calls := by
  obtain ⟨_, _, _⟩ := s
  obtain ⟨_, _, _⟩ := s'
  simp [State.shape]

/-- Receivers of the same shape react alike, as long as no arithmetic fails. -/
theorem shape_react (owner : Option String) (name : String) {r r' : Value}
    {args args' : List Value} (hm : Alike m m') (hr : r.shape = r'.shape)
    (hargs : args.map Value.shape = args'.map Value.shape)
    (hn : ¬ (m.react owner name r args).isArithmetic)
    (hn' : ¬ (m'.react owner name r' args').isArithmetic) :
    (m.react owner name r args).shape = (m'.react owner name r' args').shape := by
  have hmethod : ∀ owner, m.methodOf? owner name = m'.methodOf? owner name := by
    intro owner
    rw [methodOf?, methodOf?, hm.classes]
  -- Equal shapes come from the same constructor.
  cases r <;> cases r' <;> cases hr
  case nil => simp only [react, hmethod, hm.methods]
  case cls className => simp only [react]
  case object className =>
    simp only [react, hmethod] at hn hn' ⊢
    cases hd : m'.methodOf? (some className) name with
    | some d => rfl
    | none =>
      rw [hd] at hn hn'
      exact shape_primitive rfl hargs hn hn'
  all_goals exact shape_primitive rfl hargs hn hn'

/-- A reaction that fails on the contents of values ends the step that sends the message. -/
theorem isArithmetic_of_react {i : Instruction} {name : String} {n : Nat}
    (calls : List (String × Nat)) {receiver : Value} {args below : List Value}
    (htake : takeArgs i.op.argCount a.stack = (args, receiver :: below))
    (h : (m.react a.owner name receiver args).isArithmetic) :
    ∃ e t, m.send i name ⟨n, a :: outer, calls⟩ a outer = .stop e t ∧ e.isArithmetic := by
  rw [send, htake]
  dsimp only
  -- An answer and a call are no failure.
  cases hreact : m.react a.owner name receiver args with
  | answer v => rw [hreact] at h; cases h
  | call d o => rw [hreact] at h; cases h
  | fail cause => rw [hreact] at h; exact ⟨_, _, rfl, h⟩
  | fault f => rw [hreact] at h; exact ⟨_, _, rfl, h⟩

/-- A call goes the same way on both sides, as long as no arithmetic fails. -/
theorem shape_send (hm : Alike m m') {i i' : Instruction} {name : String} {n : Nat}
    {calls : List (String × Nat)} (hi : i.op = i'.op) (ha : a.shape = a'.shape)
    (houter : outer.map Activation.shape = outer'.map Activation.shape)
    (hn : ∀ e t, m.send i name ⟨n, a :: outer, calls⟩ a outer = .stop e t → ¬ e.isArithmetic)
    (hn' : ∀ e t, m'.send i' name ⟨n, a' :: outer', calls⟩ a' outer' = .stop e t →
      ¬ e.isArithmetic) :
    (m.send i name ⟨n, a :: outer, calls⟩ a outer).shape =
      (m'.send i' name ⟨n, a' :: outer', calls⟩ a' outer').shape := by
  obtain ⟨hstack, hlocals, hargs, hreturn, howner, hifs⟩ := Activation.shape_eq_iff.mp ha
  obtain ⟨htaken, hbelow⟩ := shape_takeArgs i.op.argCount hstack
  cases htake : takeArgs i.op.argCount a.stack with
  | mk args below =>
    cases htake' : takeArgs i.op.argCount a'.stack with
    | mk args' below' =>
      rw [htake, htake'] at htaken hbelow
      cases below with
      | nil =>
        obtain rfl := List.map_eq_nil_iff.mp hbelow.symm
        rw [send, send, ← hi, htake, htake']
        rfl
      | cons r below =>
        obtain ⟨r', below', rfl, hr, hrest⟩ := List.map_eq_cons_iff.mp hbelow.symm
        have hlength : args.length = args'.length := by simpa using congrArg List.length htaken
        have hdepth : outer.length = outer'.length := by simpa using congrArg List.length houter
        have hreact := shape_react a.owner name hm hr.symm htaken
          (fun h => by
            obtain ⟨e, t, hs, he⟩ := isArithmetic_of_react (n := n) calls htake h
            exact hn e t hs he)
          (fun h => by
            rw [howner] at h
            rw [hi] at htake'
            obtain ⟨e, t, hs, he⟩ := isArithmetic_of_react (n := n) calls htake' h
            exact hn' e t hs he)
        rw [send, send, ← hi, htake, htake', ← howner]
        dsimp only
        -- Both reactions are failures, answers of one shape, or calls of one method.
        cases h : m.react a.owner name r args with
        | fail | fault =>
          rw [h] at hreact
          cases h' : m'.react a.owner name r' args' <;> rw [h'] at hreact <;>
            first | rfl | cases hreact
        | answer v =>
          rw [h] at hreact
          cases h' : m'.react a.owner name r' args' with
          | answer v' =>
            rw [h'] at hreact
            have hv : v.shape = v'.shape := Sum.inl.inj (Option.some.inj hreact)
            simp only [Progress.shape, State.shape, List.map_cons, Activation.shape, hv, hrest,
              hlocals, hargs, hreturn, howner, hifs, houter]
          | _ => rw [h'] at hreact; cases hreact
        | call d owner =>
          rw [h] at hreact
          cases h' : m'.react a.owner name r' args' with
          | call d' owner' =>
            rw [h'] at hreact
            obtain ⟨rfl, rfl⟩ := Prod.mk.inj (Sum.inr.inj (Option.some.inj hreact))
            dsimp only
            rw [hm.names h, hlength, List.length_cons, List.length_cons, hdepth]
            split
            · rfl
            · simp only [Progress.shape, State.shape, List.map_cons, Activation.shape,
                Activation.fresh, htaken, hrest, hlocals, hargs, hreturn, howner, hifs, houter]
          | _ => rw [h'] at hreact; cases hreact

/-- A jump goes to the same place in machines that are alike. -/
theorem shape_jump (hm : Alike m m') {n : Nat} {calls : List (String × Nat)}
    {frames frames' rest rest' : List Activation}
    (h : frames.map Activation.shape = frames'.map Activation.shape) :
    (m.jump ⟨n, rest, calls⟩ frames).shape = (m'.jump ⟨n, rest', calls⟩ frames').shape := by
  simp only [jump, hm.jumps]
  split
  · simp only [Progress.shape, State.shape, h]
  · rfl

/-- So does a step to the next instruction. -/
theorem shape_advance {n : Nat} {calls : List (String × Nat)}
    {frames frames' rest rest' : List Activation}
    (h : frames.map Activation.shape = frames'.map Activation.shape) :
    (advance ⟨n, rest, calls⟩ frames).shape = (advance ⟨n, rest', calls⟩ frames').shape := by
  simp only [advance, Progress.shape, State.shape, h]

/-- A local has values of one shape, or is bound in neither activation. -/
theorem shape_local (ha : a.shape = a'.shape) (name : String) :
    ((a.locals.get? name).getD .nil).shape = ((a'.locals.get? name).getD .nil).shape := by
  have hlocals : shapeLocals a.locals = shapeLocals a'.locals := (Activation.shape_eq_iff.mp ha).2.1
  have hget : ∀ t : Table String Value, (shapeLocals t).get? name = (t.get? name).map Value.shape :=
    fun t => Table.find_map Value.shape name t.entries
  have hgetD : ∀ v? : Option Value, (v?.getD .nil).shape = (v?.map Value.shape).getD .nil := by
    intro v?
    cases v? <;> rfl
  rw [hgetD, hgetD, ← hget, ← hget, hlocals]

/-- A value of the same shape leaves locals of the same shape. -/
theorem shape_setVar {v v' : Value} (ha : a.shape = a'.shape) (hv : v.shape = v'.shape)
    (name : String) : Activation.shape { a with locals := a.locals.set name v } =
      Activation.shape { a' with locals := a'.locals.set name v' } := by
  obtain ⟨hstack, hlocals, hrest⟩ := Activation.shape_eq_iff.mp ha
  have hset : ∀ (t : Table String Value) (v : Value),
      shapeLocals (t.set name v) = (shapeLocals t).set name v.shape :=
    fun t v => congrArg Table.mk (Table.update_map Value.shape name v t.entries)
  refine Activation.shape_eq_iff.mpr ⟨hstack, ?_, hrest⟩
  rw [hset, hset, hlocals, hv]

/-- An argument is there on both sides or on neither, and of the same shape. -/
theorem shape_elementAt? {vs vs' : List Value} (h : vs.map Value.shape = vs'.map Value.shape)
    (index : Int) :
    (elementAt? vs index).map Value.shape = (elementAt? vs' index).map Value.shape := by
  rw [← elementAt?_map, h, elementAt?_map]

/-- **One step.** Machines of one shape in states of one shape step to states of one shape, if
neither step fails on the contents of values. -/
theorem shape_step (hm : Alike m m') {i i' : Instruction} (hi : i.shape = i'.shape)
    (hs : s.shape = s'.shape) (hn : ∀ e t, m.step i s = .stop e t → ¬ e.isArithmetic)
    (hn' : ∀ e t, m'.step i' s' = .stop e t → ¬ e.isArithmetic) :
    (m.step i s).shape = (m'.step i' s').shape := by
  obtain ⟨n, frames, calls⟩ := s
  obtain ⟨n', frames', calls'⟩ := s'
  obtain ⟨rfl, hframes, rfl⟩ := shape_eq_iff.mp hs
  dsimp only at hframes
  cases frames with
  | nil =>
    obtain rfl := List.map_eq_nil_iff.mp hframes.symm
    rfl
  | cons a outer =>
  obtain ⟨a', outer', rfl, ha, houter⟩ := List.map_eq_cons_iff.mp hframes.symm
  obtain ⟨hstack, hlocals, hargs, hreturn, howner, hifs⟩ := Activation.shape_eq_iff.mp ha.symm
  have push : ∀ {v v' : Value}, v.shape = v'.shape →
      (advance ⟨n, a :: outer, calls⟩ ({ a with stack := v :: a.stack } :: outer)).shape =
        (advance ⟨n, a' :: outer', calls⟩ ({ a' with stack := v' :: a'.stack } :: outer')).shape := by
    intro v v' hv
    refine shape_advance ?_
    rw [List.map_cons, List.map_cons, shape_push ha.symm hv, houter]
  have hop : i.op.shape = i'.op.shape := congrArg Instruction.op hi
  unfold Machine.step at hn hn' ⊢
  dsimp only at hn hn' ⊢
  -- Either both push an integer, or both a text, or the operations are the same.
  rcases Operation.shape_cases hop with ⟨v, v', hv, hv'⟩ | ⟨t, t', ht, ht'⟩ | hsame
  · rw [hv, hv']
    exact push rfl
  · rw [ht, ht']
    exact push rfl
  rw [← hsame] at hn' ⊢
  cases hiop : i.op with
  | pushNil | pushInt | pushStr => exact push rfl
  | pushConst name =>
    dsimp only
    rw [hm.classes]
    split
    · exact push rfl
    · rfl
  | pushVar name => exact push (shape_local ha.symm name)
  | setVar name =>
    rcases shape_pop ha.symm with ⟨hs, hs'⟩ | ⟨v, stack, v', stack', hs, hs', hv, -, hrest⟩
    · rw [hs, hs']
      rfl
    · rw [hs, hs']
      refine shape_advance ?_
      rw [List.map_cons, List.map_cons, shape_setVar hrest hv name, houter]
  | pushArg index =>
    have harg := shape_elementAt? hargs index
    dsimp only
    cases h : elementAt? a.args index with
    | none =>
      rw [h] at harg
      rw [Option.map_eq_none_iff.mp harg.symm]
      rfl
    | some v =>
      rw [h] at harg
      obtain ⟨v', h', hv⟩ := Option.map_eq_some_iff.mp harg.symm
      rw [h']
      exact push hv.symm
  | send name count =>
    rw [hiop] at hn hn'
    exact shape_send hm hsame ha.symm houter.symm hn hn'
  | defStart name =>
    refine shape_jump hm ?_
    rw [List.map_cons, List.map_cons, shape_push ha.symm rfl, houter]
  | defEnd name =>
    have htop := shape_headD hstack
    cases outer with
    | nil =>
      obtain rfl := List.map_eq_nil_iff.mp houter
      rfl
    | cons caller rest =>
      obtain ⟨caller', rest', rfl, hcaller, hrest⟩ := List.map_eq_cons_iff.mp houter
      dsimp only
      rw [← hreturn]
      cases a.returnTo with
      | none => rfl
      | some call =>
        simp only [Progress.shape, State.shape, List.map_cons, shape_push hcaller.symm htop, hrest]
  | classStart name =>
    dsimp only
    rw [hm.classes]
    split
    · refine shape_advance ?_
      rw [List.map_cons, List.map_cons, List.map_cons, List.map_cons, ha, houter]
    · rfl
  | classEnd name => exact shape_advance houter.symm
  | ifStart =>
    rcases shape_pop ha.symm with ⟨hs, hs'⟩ | ⟨v, stack, v', stack', hs, hs', hv, hlen, hrest⟩
    · rw [hs, hs']
      rfl
    · have htruthy : v.isTruthy = v'.isTruthy := by rw [← v.isTruthy_shape, hv, v'.isTruthy_shape]
      have hframes := congrArg₂ List.cons (shape_openBranch hlen hrest) houter.symm
      rw [hs, hs']
      dsimp only
      rw [htruthy]
      split
      · exact shape_advance hframes
      · exact shape_jump hm hframes
  | ifElse =>
    dsimp only
    rcases shape_closeBranch ha.symm with ⟨e, e', h, h'⟩ | ⟨c, c', h, h', hc⟩
    · rw [h, h']
      rfl
    · rw [h, h']
      exact shape_jump hm (congrArg₂ List.cons hc houter.symm)
  | ifEnd =>
    dsimp only
    rcases shape_closeBranch ha.symm with ⟨e, e', h, h'⟩ | ⟨c, c', h, h', hc⟩
    · rw [h, h']
      rfl
    · rw [h, h']
      exact shape_advance (congrArg₂ List.cons hc houter.symm)
  | unknown opcode operand => rfl

/-! ### Runs -/

/-- **Runs side by side.** Machines of one shape go through states of one shape, as long as no step
of either of them fails on the contents of values. -/
theorem shape_trail (hm : Alike m m') : ∀ (k : Nat) {s s' : State}, s.shape = s'.shape →
    (∀ j < k, ∀ t, Reaches m j s t → ¬ m.Interrupted t) →
    (∀ j < k, ∀ t, Reaches m' j s' t → ¬ m'.Interrupted t) →
    (m.trail k s).map State.shape = (m'.trail k s').map State.shape := by
  intro k
  induction k with
  | zero => exact fun hs _ _ => congrArg ([·]) hs
  | succ k ih =>
    intro s s' hs hn hn'
    have hi : (m.code[s.next]?).map Instruction.shape = (m'.code[s'.next]?).map Instruction.shape := by
      rw [← Array.getElem?_map, hm.code, Array.getElem?_map, (shape_eq_iff.mp hs).1]
    rw [trail, trail]
    cases hcode : m.code[s.next]? with
    | none =>
      rw [hcode] at hi
      rw [Option.map_eq_none_iff.mp hi.symm]
      exact congrArg ([·]) hs
    | some i =>
      rw [hcode] at hi
      obtain ⟨i', hcode', hshape⟩ := Option.map_eq_some_iff.mp hi.symm
      have hstep := shape_step hm hshape.symm hs
        (fun e t hstop he => hn 0 (Nat.succ_pos k) s (.refl s) ⟨i, e, t, hcode, hstop, he⟩)
        (fun e t hstop he => hn' 0 (Nat.succ_pos k) s' (.refl s') ⟨i', e, t, hcode', hstop, he⟩)
      rw [hcode']
      dsimp only
      cases hnext : m.step i s with
      | stop e t =>
        rw [hnext] at hstep
        cases hnext' : m'.step i' s' with
        | stop e' t' => exact congrArg ([·]) hs
        | next t' => rw [hnext'] at hstep; cases hstep
      | next t =>
        rw [hnext] at hstep
        cases hnext' : m'.step i' s' with
        | stop e' t' => rw [hnext'] at hstep; cases hstep
        | next t' =>
          rw [hnext'] at hstep
          rw [List.map_cons, List.map_cons, hs]
          -- The steps after this one are reached from the states after it.
          refine congrArg (s'.shape :: ·) (ih (Option.some.inj hstep) ?_ ?_)
          · exact fun j hj u hu => hn (j + 1) (Nat.succ_lt_succ hj) u (.step hcode hnext hu)
          · exact fun j hj u hu => hn' (j + 1) (Nat.succ_lt_succ hj) u (.step hcode' hnext' hu)

/-! ### Loading -/

/-- The loader reads shapes only. -/
theorem learnAll_shape (code : List Instruction) : ∀ (l : Loading) (n : Nat),
    l.learnAll n (code.map Instruction.shape) = l.learnAll n code := by
  induction code with
  | nil => exact fun _ _ => rfl
  | cons i rest ih =>
    intro l n
    have hlearn : l.learn n i.op.shape = l.learn n i.op := by cases i.op <;> rfl
    rw [List.map_cons, Loading.learnAll, Loading.learnAll, Instruction.op_shape, hlearn]
    exact bind_congr fun l => ih l (n + 1)

/-- A machine is loaded when every record is typed and the code closes what it opens. -/
theorem load_eq_ok_iff {memory : Nat} {records : List TypedRecord} : load memory records = .ok m ↔
    firstUntyped? records = none ∧
      ∃ l, Loading.initial.learnAll 0 (records.map TypedRecord.instruction) = .ok l ∧
        l.opened = [] ∧
        m = ⟨(records.map TypedRecord.instruction).toArray, l.methods, l.classes, l.jumps,
          memory⟩ := by
  unfold load requireTypes
  cases firstUntyped? records with
  | some r => exact ⟨nofun, fun h => nomatch h.1⟩
  | none =>
    simp only [bind, Except.bind, true_and]
    cases Loading.initial.learnAll 0 (records.map TypedRecord.instruction) with
    | error e => exact ⟨nofun, fun ⟨_, h, _⟩ => nomatch h⟩
    | ok l =>
      dsimp only
      -- The load fails when a block is left open.
      cases ho : l.opened with
      | nil =>
        constructor
        · exact fun h => ⟨l, rfl, ho, (Except.ok.inj h).symm⟩
        · rintro ⟨_, h, -, rfl⟩
          obtain rfl := Except.ok.inj h
          rfl
      | cons n opened =>
        constructor
        · nofun
        · rintro ⟨_, h, h', -⟩
          obtain rfl := Except.ok.inj h
          rw [ho] at h'
          cases h'

end Machine

/-! ### Programs -/

namespace Node

variable {x y : Node} {records : List TypedRecord}

/-- **Trees of one shape are compiled alike**: to code of one shape, with the same types. -/
theorem typed_of_shape (h : x.shape = y.shape) {code : List Instruction}
    (hcode : Lowering.program x = .ok code) (hinfer : infer code = .ok records) :
    ∃ code' records', Lowering.program y = .ok code' ∧ infer code' = .ok records' ∧
      code.map Instruction.shape = code'.map Instruction.shape ∧
      records'.map TypedRecord.type? = records.map TypedRecord.type? := by
  have hlower := Lowering.lower_shape none x
  rw [h, Lowering.lower_shape none y, show Lowering.lower none x = .ok code from hcode] at hlower
  obtain ⟨code', hcode', hshape⟩ := Option.map_eq_some_iff.mp hlower
  obtain ⟨records', hinfer', htypes⟩ := infer_shape hshape.symm hinfer
  exact ⟨code', records', toOption_eq_some_iff.mp hcode', hinfer', hshape.symm, htypes⟩

end Node

/-- The machine of a program that has been compiled has machines of its shape alike. -/
theorem Compiled.alike {statements : List Node} {code code' : List Instruction} {g g' : Graph}
    {records records' : List TypedRecord} {m : Machine} (c : Compiled statements code g records m)
    (hshape : code.map Instruction.shape = code'.map Instruction.shape)
    (hg : Graph.build code' = .ok g') (hinfer : infer code' = .ok records') (memory : Nat) :
    ∃ m', Machine.load memory records' = .ok m' ∧ Machine.Alike m m' := by
  have b := Graph.built_of_build c.built
  obtain ⟨-, l, hlearn, hopened, hm⟩ := load_eq_ok_iff.mp c.loads
  rw [map_instruction_of_infer c.built c.inferred] at hlearn hm
  -- The tables come from the shapes, so one loading serves both programs.
  refine ⟨⟨code'.toArray, l.methods, l.classes, l.jumps, memory⟩, load_eq_ok_iff.mpr
    ⟨firstUntyped?_of_infer hg hinfer, l, ?_, hopened, ?_⟩, ?_, ?_, ?_, ?_, ?_⟩
  · rw [map_instruction_of_infer hg hinfer, ← learnAll_shape, ← hshape, learnAll_shape, hlearn]
  · rw [map_instruction_of_infer hg hinfer]
  · rw [hm, List.map_toArray, List.map_toArray, hshape]
  · rw [hm]
  · rw [hm]
  · rw [hm]
  · -- A method that is called stands in the index, so its record defines it in both programs.
    intro owner name receiver args d owner' hcall
    obtain ⟨i, hi, hop, -⟩ := b.method_definition (b.findMethod_of_react c.loaded hcall)
    have hsome : (code.map Instruction.shape)[d]? = some i.shape := by
      rw [List.getElem?_map, hi]
      rfl
    rw [hshape, List.getElem?_map] at hsome
    obtain ⟨i', hi', hsame⟩ := Option.map_eq_some_iff.mp hsome
    have hop' : i'.op = .defStart name := by
      have hops : i'.op.shape = i.op.shape := congrArg Instruction.op hsame
      rw [hop] at hops
      cases ho : i'.op <;> rw [ho] at hops <;> cases hops
      rfl
    rw [Machine.methodName, Machine.methodName, hm]
    simp only [List.getElem?_toArray, hi, hi', Option.bind_some, hop, hop']

/-! ### Two programs of one shape -/

namespace Sample

/-- A text that is repeated, and something after it. -/
def repeated (count : String) : String := "\"\" * " ++ count ++ "\n1\n"

/-- The tree of such a text, of which the first line ends at a column. -/
def repeatedTree (count : String) (column : Nat) : Tree :=
  .node .program [.node (.body false true true) [
    .node .exprStatement [.node .expr [.node .singleTerm [.node .times [
      .node .singleChain [.node .singlePrimary [.node .text [.leaf ⟨.string, "\"\"", ⟨1, 1⟩⟩]]],
      .leaf ⟨.star, "*", ⟨1, 4⟩⟩, Syntax.digit count 6]]]],
    .node .secondStatement [
      .node .separator [.node .oneTerminator [.leaf ⟨.terminator, "\n", ⟨1, column⟩⟩]],
      .node .exprStatement [.node .expr [.node .singleTerm [.node .singleChain [
        .node .singlePrimary [.node .integer [.leaf ⟨.int, "1", ⟨2, 1⟩⟩]]]]]]],
    .node .separator [.node .oneTerminator [.leaf ⟨.terminator, "\n", ⟨2, 2⟩⟩]]]]

def repeatedRoot (count : Int) : Node :=
  .block .start [.call ⟨1, 4⟩ (some (.text ⟨1, 1⟩ "")) "*" [.integer ⟨1, 6⟩ count],
    .integer ⟨2, 1⟩ 1]

def repeatedCode (count : Int) : List Instruction := [
  ⟨.pushStr "", .text, 1, 1⟩,
  ⟨.pushInt count, .integer, 1, 6⟩,
  ⟨.send "*" (some 1), .call, 1, 4⟩,
  ⟨.pushInt 1, .integer, 2, 1⟩]

def repeatedRecords (count : Int) : List TypedRecord :=
  (repeatedCode count).zipWith TypedRecord.mk [some .str, some .int, some .str, some .int]

def repeatedMachine (count : Int) : Machine :=
  ⟨(repeatedCode count).toArray, .empty, .empty, .empty, memory⟩

/-- A count that no text can be repeated by. -/
def huge : Int := 9223372036854775808

theorem read_huge : Syntax.read (repeated "9223372036854775808") = .ok (repeatedRoot huge) :=
  Syntax.read_of_derives (t := repeatedTree "9223372036854775808" 25) (by decide +kernel)
    (Tree.derives_of_follows _ (by decide +kernel)) (by decide +kernel)

theorem read_zero : Syntax.read (repeated "0") = .ok (repeatedRoot 0) :=
  Syntax.read_of_derives (t := repeatedTree "0" 7) (by decide +kernel)
    (Tree.derives_of_follows _ (by decide +kernel)) (by decide +kernel)

/-- Programs that differ in the count only are typed alike. -/
theorem typed_repeated : ∀ count ∈ [0, 3, huge],
    (repeatedRoot count).typed = .ok (repeatedRecords count) := by
  decide +kernel

end Sample

/-! ### Runs of one shape -/

/-- **Control flow is told by the shape.** Of two trees of one shape, one of them read from a
program text, either both are compiled to typed code or none is, and the records of both have the
same types. Then both are loaded, and their runs go through states of one shape: the same
instructions, activations of the same methods and classes with equally high stacks, the same
branches. They do so for any number of steps of which none fails on the contents of values, in
either run. -/
theorem control_told_by_shape {source : String} {x y : Node} (hread : Syntax.read source = .ok x)
    (hshape : x.shape = y.shape) (memory : Nat) :
    ((∃ records, x.typed = .ok records) ↔ ∃ records, y.typed = .ok records) ∧
    ∀ records records', x.typed = .ok records → y.typed = .ok records' →
      records.map TypedRecord.type? = records'.map TypedRecord.type? ∧
      ∃ m m', Machine.load memory records = .ok m ∧ Machine.load memory records' = .ok m' ∧
        ∀ k, (∀ j < k, ∀ s, Reaches m j .initial s → ¬ m.Interrupted s) →
          (∀ j < k, ∀ s, Reaches m' j .initial s → ¬ m'.Interrupted s) →
          (m.trail k .initial).map State.shape = (m'.trail k .initial).map State.shape := by
  have typed : ∀ {x y : Node}, x.shape = y.shape → (∃ records, x.typed = .ok records) →
      ∃ records, y.typed = .ok records := by
    rintro x y h ⟨records, hx⟩
    obtain ⟨code, hcode, hinfer⟩ := Node.typed_eq_ok_iff.mp hx
    obtain ⟨code', records', hcode', hinfer', -⟩ := Node.typed_of_shape h hcode hinfer
    exact ⟨records', Node.typed_eq_ok_iff.mpr ⟨code', hcode', hinfer'⟩⟩
  refine ⟨⟨typed hshape, typed hshape.symm⟩, fun records records' hx hy => ?_⟩
  obtain ⟨code, hcode, hinfer⟩ := Node.typed_eq_ok_iff.mp hx
  obtain ⟨code', records'', hcode', hinfer', hsame, htypes⟩ :=
    Node.typed_of_shape hshape hcode hinfer
  -- The second program has one code and one list of types.
  obtain rfl : records'' = records' := by
    obtain ⟨code'', hcode'', hinfer''⟩ := Node.typed_eq_ok_iff.mp hy
    obtain rfl := Except.ok.inj (hcode'.symm.trans hcode'')
    exact Except.ok.inj (hinfer'.symm.trans hinfer'')
  have hsource : Program.code source = .ok code := Program.code_eq_ok_iff.mpr ⟨x, hread, hcode⟩
  obtain ⟨statements, g, m, -, c, rfl⟩ := compiled_of_code hsource hinfer memory
  obtain ⟨g', hg', -⟩ := exists_build_of_shape hsame c.built
  obtain ⟨m', hload', halike⟩ := c.alike hsame hg' hinfer' m.memory
  exact ⟨htypes.symm, m, m', c.loads, hload', fun k hn hn' => shape_trail halike k rfl hn hn'⟩

/-- Texts that are repeated three times and not at all: the runs have one shape. -/
theorem control_told_by_shape_repeated :
    (Sample.repeatedRoot 0).shape = (Sample.repeatedRoot 3).shape ∧
      ((Sample.repeatedMachine 0).trail 4 .initial).map State.shape =
        ((Sample.repeatedMachine 3).trail 4 .initial).map State.shape := by
  have hshape : (Sample.repeatedRoot 0).shape = (Sample.repeatedRoot 3).shape := rfl
  obtain ⟨-, m, m', hload, hload', htrail⟩ :=
    (control_told_by_shape Sample.read_zero hshape Sample.memory).2 _ (Sample.repeatedRecords 3)
      (Sample.typed_repeated 0 (by decide)) (Sample.typed_repeated 3 (by decide))
  obtain rfl : Sample.repeatedMachine 0 = m := Except.ok.inj hload
  obtain rfl : Sample.repeatedMachine 3 = m' := Except.ok.inj hload'
  -- Neither run is interrupted: both trails are short enough to be checked state by state.
  have hquiet : ∀ n ∈ [0, 3], ∀ s ∈ (Sample.repeatedMachine n).trail 5 .initial,
      ¬ (Sample.repeatedMachine n).Interrupted s := by
    decide +kernel
  refine ⟨hshape, htrail 4 (fun j _ s hs => hquiet 0 (.head _) s ?_)
    fun j _ s hs => hquiet 3 (.tail _ (.head _)) s ?_⟩
  · exact mem_trail hs (n := 5) (r := .ok (.int 1)) rfl
  · exact mem_trail hs (n := 5) (r := .ok (.int 1)) rfl

/-- **A repetition that is too long ends a run, too**: a program fails where another one of its shape
goes on, and none of them divides. -/
theorem huge_repetition_diverges :
    Syntax.read (Sample.repeated "9223372036854775808") = .ok (Sample.repeatedRoot Sample.huge) ∧
    Syntax.read (Sample.repeated "0") = .ok (Sample.repeatedRoot 0) ∧
    (Sample.repeatedRoot Sample.huge).shape = (Sample.repeatedRoot 0).shape ∧
    ∃ records records' m m', (Sample.repeatedRoot Sample.huge).typed = .ok records ∧
      (Sample.repeatedRoot 0).typed = .ok records' ∧
      Machine.load Sample.memory records = .ok m ∧ Machine.load Sample.memory records' = .ok m' ∧
      m.run = .error (.fault .beyondIndex) ∧ m'.run = .ok (.int 1) ∧
      (m.trail 4 .initial).map State.next = [0, 1, 2] ∧
      (m'.trail 4 .initial).map State.next = [0, 1, 2, 3, 4] := by
  refine ⟨Sample.read_huge, Sample.read_zero, rfl, Sample.repeatedRecords Sample.huge,
    Sample.repeatedRecords 0, Sample.repeatedMachine Sample.huge, Sample.repeatedMachine 0,
    Sample.typed_repeated _ (by decide), Sample.typed_repeated 0 (by decide), rfl, rfl, ?_⟩
  -- Both runs are of a few steps.
  decide +kernel

end Rubylet
