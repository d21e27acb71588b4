import Rubylet.Proofs.Replay.Prescribed

/-!
# Walks whose frames may run out

A `Replay.State` has an innermost frame by its type, and closing the last frame leaves an empty one.
A `Walk` has no such comfort: its frames are a list, every instruction takes what it needs off the
top of some list, and where there is nothing to take the walk ends in a fault. Frames, methods,
classes and conditionals are popped independently of each other, and in code that no program lowers
to they need not match: the end of a method may close the frame of a class, and a branch may end at
a height that was taken in another frame.

What keeps the frames from running out is a count (`Balanced`): apart from the one that is there at
the start, there are as many frames as open methods and open classes. It holds of whatever code
(`step_balanced`), and so every walk is a replay (`walk_eq`):

* `walk_never_faults`: a walk ends after the last instruction, or is refused at an instruction with
  a structural error. It never faults, and the count holds after each of its steps.
-/

namespace Rubylet.Replay

variable {α : Type} {n : Nat} {i : Instruction} {s s' : State} {e : Event}

/-- What ends a walk before its last instruction. -/
inductive Stop where
  | refused (error : CompileError)
  | fault (fault : Fault)
  deriving Repr, DecidableEq

/-- Takes the top off a list that is expected to have one. -/
def takeTop : List α → Except Stop (α × List α)
  | [] => .error (.fault .emptyStack)
  | x :: rest => .ok (x, rest)

/-- The state of a walk. All lists have their top first. -/
structure Walk where
  frames : List (List Nat)
  ifs : List OpenIf
  defs : List Nat
  classes : List OpenClass
  deriving Repr, DecidableEq

namespace Walk

/-- Before the first instruction. -/
def initial : Walk := ⟨[[]], [], [], []⟩

/-- Pushes a record. -/
def push (w : Walk) (record : Nat) : Except Stop Walk := do
  let (stack, outer) ← takeTop w.frames
  return { w with frames := (record :: stack) :: outer }

/-- Pops one operand of the innermost frame above a height. -/
def pop (w : Walk) (i : Instruction) (floor : Nat) : Except Stop (Nat × Walk) := do
  let (stack, outer) ← takeTop w.frames
  if stack.length ≤ floor then .error (.refused (missingOperand i))
  else do
    let (value, rest) ← takeTop stack
    return (value, { w with frames := rest :: outer })

/-- Pops some operands, one after the other, and answers them in the order in which they were
pushed. -/
def popMany (w : Walk) (i : Instruction) : Nat → Except Stop (List Nat × Walk)
  | 0 => .ok ([], w)
  | count + 1 => do
    let (value, w) ← w.pop i 0
    let (values, w) ← w.popMany i count
    return (values ++ [value], w)

/-- The height of the innermost frame. -/
def height (w : Walk) : Except Stop Nat := do
  let (stack, _) ← takeTop w.frames
  return stack.length

/-- Drops what stands above a height. -/
def truncate (w : Walk) (height : Nat) : Except Stop Walk := do
  let (stack, outer) ← takeTop w.frames
  return { w with frames := OperandStack.truncate height stack :: outer }

/-- Closes the innermost frame. -/
def closeFrame (w : Walk) : Except Stop Walk := do
  let (_, frames) ← takeTop w.frames
  return { w with frames }

/-- The innermost open conditional. -/
def openIf (w : Walk) (i : Instruction) : Except Stop OpenIf :=
  if w.ifs.isEmpty then .error (.refused (.atOrigin i.origin (.unopenedConditional i.op.opcode)))
  else do
    let (opened, _) ← takeTop w.ifs
    return opened

/-- Walks over the instruction with a given number. -/
def step (number : Nat) (i : Instruction) (w : Walk) : Except Stop (Event × Walk) :=
  let refuse (cause : Cause) : Except Stop (Event × Walk) :=
    .error (.refused (.atOrigin i.origin cause))
  match i.op with
  | .pushNil | .pushInt _ | .pushStr _ => do return (.literal, ← w.push number)
  | .pushConst _ => do return (.pushConst, ← w.push number)
  | .pushVar _ => do return (.pushVar, ← w.push number)
  | .pushArg _ =>
    if w.defs.isEmpty then refuse .argumentOutsideMethod
    else do
      let (method, _) ← takeTop w.defs
      return (.pushArg method, ← w.push number)
  | .setVar _ => do
    let (value, w) ← w.pop i 0
    return (.setVar value, w)
  | .send _ _ => do
    let (args, w) ← w.popMany i i.op.argCount
    let (receiver, w) ← w.pop i 0
    return (.send receiver args, ← w.push number)
  | .defStart _ =>
    .ok (.defStart (w.classes.head?.map OpenClass.name),
      { w with defs := number :: w.defs, frames := [] :: w.frames })
  | .defEnd name =>
    if w.defs.isEmpty then refuse (.unopenedMethod name)
    else do
      let (result, w) ← w.pop i 0
      let (method, defs) ← takeTop w.defs
      let w ← { w with defs }.closeFrame
      return (.defEnd method result, ← w.push result)
  | .classStart name =>
    if w.classes.isEmpty then
      .ok (.classStart, { w with classes := [⟨number, name⟩], frames := [] :: w.frames })
    else do
      let (outer, _) ← takeTop w.classes
      refuse (.nestedClass name outer.name)
  | .classEnd name =>
    if w.classes.isEmpty then refuse (.unopenedClass name)
    else do
      let (opened, classes) ← takeTop w.classes
      return (.classEnd opened.opened, ← { w with classes }.closeFrame)
  | .ifStart => do
    let (condition, w) ← w.pop i 0
    let height ← w.height
    return (.ifStart condition, { w with ifs := ⟨number, height⟩ :: w.ifs })
  | .ifElse => do
    let opened ← w.openIf i
    let (value, w) ← w.pop i opened.height
    return (.ifElse opened.opened value, ← w.truncate opened.height)
  | .ifEnd => do
    let opened ← w.openIf i
    let (value, w) ← w.pop i opened.height
    let w ← w.truncate opened.height
    let (_, ifs) ← takeTop w.ifs
    return (.ifEnd opened.opened value, ← { w with ifs }.push opened.opened)
  | .unknown opcode _ => refuse (.unknownInstruction opcode)

end Walk

/-- A walk as far as it went: what each step consumed and the walk after it, and what stopped it. -/
structure Walked where
  passed : List (Event × Walk)
  stop? : Option Stop
  deriving Repr, DecidableEq

/-- Walks over instructions from a state on. -/
def walkFrom (number : Nat) (w : Walk) : List Instruction → Walked
  | [] => ⟨[], none⟩
  | i :: rest =>
    match w.step number i with
    | .error stop => ⟨[], some stop⟩
    | .ok (event, after) =>
      let later := walkFrom (number + 1) after rest
      { later with passed := (event, after) :: later.passed }

/-- Walks over a list of instructions. -/
def walk (code : List Instruction) : Walked := walkFrom 0 .initial code

/-! ### The count of the frames -/

/-- Apart from the first, there are as many frames as open methods and open classes, and classes do
not nest. -/
structure Balanced (s : State) : Prop where
  outer : s.outer.length = s.defs.length + s.classes.length
  classes : s.classes.length ≤ 1

theorem balanced_initial : Balanced .initial := ⟨rfl, Nat.zero_le 1⟩

/-- A state with the blocks of a balanced one is balanced, whatever its innermost frame and its
conditionals are. -/
theorem Balanced.congr (h : Balanced s) (houter : s'.outer = s.outer) (hdefs : s'.defs = s.defs)
    (hclasses : s'.classes = s.classes) : Balanced s' :=
  ⟨by rw [houter, hdefs, hclasses]; exact h.outer, by rw [hclasses]; exact h.classes⟩

/-- An operand that is popped leaves all but the innermost frame alone. -/
theorem pop_blocks {floor v : Nat} (h : pop i floor s = .ok (v, s')) :
    s'.outer = s.outer ∧ s'.defs = s.defs ∧ s'.classes = s.classes ∧ s'.ifs = s.ifs := by
  obtain ⟨rest, -, -, rfl⟩ := pop_eq_ok_iff.mp h
  exact ⟨rfl, rfl, rfl, rfl⟩

/-- A block that is open has a frame around it to go back to. -/
theorem Balanced.outer_ne_nil (h : Balanced s) (hopen : 0 < s.defs.length + s.classes.length) :
    s.outer ≠ [] := by
  rw [← List.length_pos_iff, h.outer]
  exact hopen

/-- **A step keeps the count of the frames**, whatever the instruction is. -/
theorem step_balanced (h : step n i s = .ok (e, s')) (hb : Balanced s) : Balanced s' := by
  have hs := step_eq_ok_iff.mp h
  have houter := hb.outer
  have hsingle := hb.classes
  generalize i.op = op at hs
  cases hs with
  | pushNil | pushInt | pushStr | pushConst | pushVar | pushArg | setVar | send | ifStart | ifElse |
    ifEnd => exact hb.congr rfl rfl rfl
  -- Only these four open or close a frame, and they count it.
  | defStart =>
    refine ⟨?_, hsingle⟩
    simp only [State.openFrame, List.length_cons]
    omega
  | defEnd hdefs _ =>
    rw [hdefs, List.length_cons] at houter
    refine ⟨?_, hsingle⟩
    simp only [State.closeFrame, State.push, List.length_tail]
    omega
  | classStart hclasses =>
    rw [hclasses] at houter
    refine ⟨?_, Nat.le_refl 1⟩
    simp only [State.openFrame, List.length_cons]
    omega
  | classEnd hclasses =>
    rw [hclasses, List.length_cons] at houter hsingle
    refine ⟨?_, Nat.le_of_succ_le hsingle⟩
    simp only [State.closeFrame, List.length_tail]
    omega

/-! ### Walks are replays -/

/-- A state as a walk. -/
def State.asWalk (s : State) : Walk := ⟨s.frames, s.ifs, s.defs, s.classes⟩

/-- What a walk answers where a replay answers something. -/
def asWalk : Except CompileError (α × State) → Except Stop (α × Walk)
  | .ok (a, s) => .ok (a, s.asWalk)
  | .error e => .error (.refused e)

/-- A walk that follows the replay in its first part and in its second follows it in both. -/
theorem asWalk_bind {β : Type} {x : Except CompileError (α × State)}
    {f : α × State → Except CompileError (β × State)} {f' : α × Walk → Except Stop (β × Walk)}
    (h : ∀ a t, x = .ok (a, t) → f' (a, t.asWalk) = asWalk (f (a, t))) :
    asWalk x >>= f' = asWalk (x >>= f) := by
  cases x with
  | error e => rfl
  | ok r => exact h r.1 r.2 rfl

@[simp] theorem push_asWalk (s : State) (record : Nat) :
    s.asWalk.push record = .ok (s.push record).asWalk := rfl

@[simp] theorem truncate_asWalk (s : State) (height : Nat) :
    s.asWalk.truncate height =
      .ok { s with stack := OperandStack.truncate height s.stack }.asWalk := rfl

@[simp] theorem height_asWalk (s : State) : s.asWalk.height = .ok s.stack.length := rfl

/-- The walk takes an operand as the replay does. -/
theorem pop_asWalk (floor : Nat) (s : State) : s.asWalk.pop i floor = asWalk (pop i floor s) := by
  obtain ⟨stack, outer, ifs, defs, classes⟩ := s
  cases stack with
  | nil => rfl
  | cons x rest =>
    -- The operand lies above the floor of the conditional, or there is none to take.
    rcases Nat.lt_or_ge rest.length floor with hlt | hge
    · have : rest.length + 1 ≤ floor := hlt
      simp [Walk.pop, pop, OperandStack.pop, State.asWalk, State.frames, takeTop, asWalk, hlt, this,
        bind, Except.bind, throw, throwThe, MonadExceptOf.throw]
    · have : ¬ rest.length + 1 ≤ floor := by omega
      simp [Walk.pop, pop, OperandStack.pop, State.asWalk, State.frames, takeTop, asWalk, this,
        Nat.not_lt.mpr hge, bind, Except.bind, pure, Except.pure]

/-- Operands that are popped one after the other are the top of the stack. -/
theorem popMany_asWalk (count : Nat) : ∀ s : State, s.asWalk.popMany i count =
    if count ≤ s.stack.length then
      .ok ((s.stack.take count).reverse, { s with stack := s.stack.drop count }.asWalk)
    else .error (.refused (missingOperand i)) := by
  -- The operands are taken one by one in the walk, at once in the replay.
  induction count with
  | zero => intro s; rfl
  | succ count ih =>
    intro s
    rw [Walk.popMany, pop_asWalk]
    obtain ⟨stack, outer, ifs, defs, classes⟩ := s
    cases stack with
    | nil => rfl
    | cons x rest =>
      have hpop : pop i 0 ⟨x :: rest, outer, ifs, defs, classes⟩ =
          .ok (x, ⟨rest, outer, ifs, defs, classes⟩) := rfl
      simp only [hpop, asWalk, bind, Except.bind, ih, List.length_cons, Nat.add_le_add_iff_right]
      by_cases hcount : count ≤ rest.length
      · simp [hcount, pure, Except.pure]
      · simp [hcount]

theorem openIf_asWalk (s : State) : s.asWalk.openIf i = (openIf i s).mapError .refused := by
  obtain ⟨stack, outer, ifs, defs, classes⟩ := s
  cases ifs <;> rfl

/-- A frame that is closed leaves the walk of the state only if there is one around it. -/
theorem closeFrame_asWalk (h : s.outer ≠ []) : s.asWalk.closeFrame = .ok s.closeFrame.asWalk := by
  obtain ⟨stack, outer, ifs, defs, classes⟩ := s
  cases outer with
  | nil => exact absurd rfl h
  | cons frame outer => rfl

/-- **The step of a walk is the step of the replay**, as long as the frames are counted. -/
theorem step_asWalk (hb : Balanced s) : s.asWalk.step n i = asWalk (step n i s) := by
  cases ho : i.op <;> simp only [Walk.step, step, ho]
  case pushNil | pushInt | pushStr | pushConst | pushVar | defStart | unknown => rfl
  case pushArg index =>
    obtain ⟨stack, outer, ifs, defs, classes⟩ := s
    cases defs <;> rfl
  case classStart name =>
    obtain ⟨stack, outer, ifs, defs, classes⟩ := s
    cases classes <;> rfl
  case setVar name | ifStart =>
    rw [pop_asWalk]
    exact asWalk_bind fun v t _ => rfl
  case send name count =>
    rw [← ho, popMany_asWalk, OperandStack.popMany]
    by_cases hcount : i.op.argCount ≤ s.stack.length
    · simp only [hcount, if_true, bind, Except.bind, pop_asWalk]
      exact asWalk_bind fun r t _ => rfl
    · simp only [hcount, if_false]
      rfl
  case defEnd name =>
    cases hdefs : s.defs with
    | nil => simp [State.asWalk, hdefs, refuse, asWalk, throw, throwThe, MonadExceptOf.throw]
    | cons method defs =>
      have houter : s.outer ≠ [] := hb.outer_ne_nil (by rw [hdefs, List.length_cons]; omega)
      have hopen : s.asWalk.defs.isEmpty = false := by simp [State.asWalk, hdefs]
      simp only [hopen, Bool.false_eq_true, if_false, pop_asWalk]
      refine asWalk_bind fun result t hp => ?_
      -- The walk asks for the definition and its frame again, behind the value that it popped.
      obtain ⟨ho', hd, -, -⟩ := pop_blocks hp
      have htop : takeTop t.asWalk.defs = .ok (method, defs) := by
        rw [State.asWalk, hd, hdefs, takeTop]
      have hclose : ({ t with defs } : State).asWalk.closeFrame = _ :=
        closeFrame_asWalk (by simpa [ho'] using houter)
      simp only [htop, bind, Except.bind]
      change (do
        let w ← ({ t with defs } : State).asWalk.closeFrame
        return (Event.defEnd method result, ← w.push result)) = _
      rw [hclose]
      rfl
  case classEnd name =>
    cases hclasses : s.classes with
    | nil => simp [State.asWalk, hclasses, refuse, asWalk, throw, throwThe, MonadExceptOf.throw]
    | cons opened classes =>
      have houter : s.outer ≠ [] := hb.outer_ne_nil (by rw [hclasses, List.length_cons]; omega)
      have hopen : s.asWalk.classes.isEmpty = false := by simp [State.asWalk, hclasses]
      have htop : takeTop s.asWalk.classes = .ok (opened, classes) := by
        rw [State.asWalk, hclasses, takeTop]
      have hclose : ({ s with classes } : State).asWalk.closeFrame = _ :=
        closeFrame_asWalk houter
      simp only [hopen, Bool.false_eq_true, if_false, htop, bind, Except.bind]
      change (do
        return (Event.classEnd opened.opened,
          ← ({ s with classes } : State).asWalk.closeFrame)) = _
      rw [hclose]
      rfl
  case ifElse =>
    rw [openIf_asWalk]
    cases openIf i s with
    | error e => rfl
    | ok opened =>
      simp only [Except.mapError, bind, Except.bind, pop_asWalk]
      exact asWalk_bind fun value t _ => rfl
  case ifEnd =>
    rw [openIf_asWalk]
    cases hopened : openIf i s with
    | error e => rfl
    | ok opened =>
      simp only [Except.mapError, bind, Except.bind, pop_asWalk]
      refine asWalk_bind fun value t hp => ?_
      -- The walk closes the conditional by its list, which the value that it popped is no part of.
      obtain ⟨ifs, hifs⟩ := openIf_eq_ok_iff.mp hopened
      obtain ⟨-, -, -, hi⟩ := pop_blocks hp
      obtain ⟨stack, outer, ifs', defs, classes⟩ := t
      obtain rfl : ifs' = opened :: ifs := hi.trans hifs
      rfl

/-! ### Whole walks -/

/-- The steps of a trace as those of a walk. -/
def Trace.asWalked (t : Trace) : Walked :=
  ⟨t.steps.map fun s => (s.event, s.after.asWalk), t.error?.map .refused⟩

/-- From a balanced state the walk is the replay, and stays balanced. -/
theorem walkFrom_asWalk (code : List Instruction) : ∀ {n : Nat} {s : State}, Balanced s →
    walkFrom n s.asWalk code = (traceFrom n s code).asWalked ∧
      ∀ t ∈ (traceFrom n s code).steps, Balanced t.after := by
  induction code with
  | nil => intro n s _; exact ⟨rfl, fun t ht => absurd ht List.not_mem_nil⟩
  | cons i rest ih =>
    intro n s hb
    rw [walkFrom, traceFrom, step_asWalk hb]
    cases hs : step n i s with
    | error e => exact ⟨rfl, fun t ht => absurd ht List.not_mem_nil⟩
    | ok r =>
      obtain ⟨event, after⟩ := r
      -- The state after the step is balanced, so the rest is walked as it is replayed.
      have hafter := step_balanced hs hb
      obtain ⟨hwalk, hall⟩ := ih (n := n + 1) hafter
      refine ⟨?_, List.forall_mem_cons.mpr ⟨hafter, hall⟩⟩
      simp only [asWalk, hwalk]
      rfl

/-- **A walk is a replay**: it passes the same states, and stops where the replay stops. -/
theorem walk_eq (code : List Instruction) : walk code = (trace code).asWalked :=
  (walkFrom_asWalk code balanced_initial).1

/-- The count of the frames holds after every step of a replay. -/
theorem balanced_of_mem_steps {code : List Instruction} :
    ∀ t ∈ (trace code).steps, Balanced t.after :=
  (walkFrom_asWalk code balanced_initial).2

theorem error_of_pop {floor : Nat} {error : CompileError} (h : pop i floor s = .error error) :
    error = missingOperand i := by
  unfold pop at h
  split at h
  · cases h
  · exact (Except.error.inj h).symm

/-- What a step refuses, it refuses at its instruction and for the structure of the code. -/
theorem refused_of_step {error : CompileError} (h : step n i s = .error error) :
    ∃ cause, error = .atOrigin i.origin cause ∧ cause.category = .structural := by
  -- By the operation: what each one lacks when it is refused.
  cases ho : i.op <;> simp only [step, ho] at h
  case pushNil | pushInt | pushStr | pushConst | pushVar | defStart => cases h
  case pushArg | classStart | classEnd =>
    split at h
    · exact ⟨_, (Except.error.inj h).symm, rfl⟩
    · cases h
  case setVar | ifStart =>
    rcases error_of_bind_eq_error h with h | ⟨r, -, h⟩
    · exact ⟨_, error_of_pop h, rfl⟩
    · cases h
  case send | defEnd =>
    split at h
    · exact ⟨_, (Except.error.inj h).symm, rfl⟩
    · rcases error_of_bind_eq_error h with h | ⟨r, -, h⟩
      · exact ⟨_, error_of_pop h, rfl⟩
      · cases h
  case ifElse | ifEnd =>
    rcases error_of_bind_eq_error h with h | ⟨opened, -, h⟩
    · unfold openIf at h
      split at h
      · cases h
      · exact ⟨_, (Except.error.inj h).symm, rfl⟩
    · rcases error_of_bind_eq_error h with h | ⟨r, -, h⟩
      · exact ⟨_, error_of_pop h, rfl⟩
      · cases h
  case unknown => exact ⟨_, (Except.error.inj h).symm, rfl⟩

/-- The instruction that ends a replay is the one after those that it passed. -/
theorem exists_of_traceFrom_error (code : List Instruction) : ∀ {n : Nat} {s : State}
    {error : CompileError}, (traceFrom n s code).error? = some error →
    ∃ i cause, code[(traceFrom n s code).steps.length]? = some i ∧
      error = .atOrigin i.origin cause ∧ cause.category = .structural := by
  induction code with
  | nil => intro n s error h; cases h
  | cons i rest ih =>
    intro n s error h
    rw [traceFrom] at h ⊢
    -- The refusal comes from this record, or from one behind it.
    cases hs : step n i s with
    | error e =>
      simp only [hs] at h
      obtain ⟨cause, he, hc⟩ := refused_of_step hs
      exact ⟨i, cause, rfl, Option.some.inj h ▸ he, hc⟩
    | ok r =>
      simp only [hs] at h
      exact ih h

/-- **No code makes a walk fault.** Whatever the instructions are, a walk either passes all of
them, or passes some and refuses the next one with a structural error at its place. After every
step, apart from the first frame there are as many frames as open methods and open classes, and at
most one class is open. -/
theorem walk_never_faults (code : List Instruction) :
    ((walk code).stop? = none ∧ (walk code).passed.length = code.length ∨
      ∃ i cause, code[(walk code).passed.length]? = some i ∧ cause.category = .structural ∧
        (walk code).stop? = some (.refused (.atOrigin i.origin cause))) ∧
    (∀ event w, (event, w) ∈ (walk code).passed →
      w.frames.length = 1 + w.defs.length + w.classes.length ∧ w.classes.length ≤ 1) ∧
    walk code = (trace code).asWalked := by
  refine ⟨?_, ?_, walk_eq code⟩
  -- The walk is the replay, whose only way to stop early is to refuse a record.
  · rw [walk_eq]
    simp only [Trace.asWalked, List.length_map]
    cases herror : (trace code).error? with
    | none => exact .inl ⟨rfl, length_steps code 0 .initial herror⟩
    | some error =>
      obtain ⟨i, cause, hi, he, hc⟩ := exists_of_traceFrom_error code herror
      exact .inr ⟨i, cause, hi, hc, by rw [he]; rfl⟩
  -- Its states are balanced all the way.
  · intro event w hw
    rw [walk_eq] at hw
    obtain ⟨t, ht, heq⟩ := List.mem_map.mp hw
    obtain ⟨-, rfl⟩ := Prod.mk.inj heq
    have hb := balanced_of_mem_steps t ht
    refine ⟨?_, hb.classes⟩
    have := hb.outer
    simp only [State.asWalk, State.frames, List.length_cons]
    omega

end Rubylet.Replay
