import Rubylet.Proofs.Replay.Points

/-!
# Events

What an instruction says about the states around it. `Steps` lists for every operation what it finds
on the stacks, its event and what it leaves there, and `step_eq_ok_iff` that a replay does just this.
For an instruction that occurs there is one lemma for each operation. Later modules use these and
never unfold `Replay.step`.

`Opened code s` says that the open blocks of a state were opened by instructions of the right kind;
it holds at every point (`opened_stateAt`).
-/

namespace Rubylet.Replay

variable {code : List Instruction} {n : Nat} {i : Instruction} {e : Event} {name : String}

/-- An operand is taken when there is one above the floor. -/
theorem pop_eq_ok_iff {floor v : Nat} {s s' : State} :
    pop i floor s = .ok (v, s') ↔
      ∃ rest, s.stack = v :: rest ∧ floor < s.stack.length ∧ s' = { s with stack := rest } := by
  unfold pop
  -- The operand stack answers, and the replay wraps the answer or reports the lack.
  cases h : OperandStack.pop floor s.stack with
  | none =>
    simp only [throw, throwThe, MonadExceptOf.throw, reduceCtorEq, false_iff]
    rintro ⟨rest, hs, hf, -⟩
    have := OperandStack.pop_eq_some_iff.mpr ⟨hs, hf⟩
    rw [h] at this
    cases this
  | some r =>
    obtain ⟨w, rest⟩ := r
    obtain ⟨hs, hf⟩ := OperandStack.pop_eq_some_iff.mp h
    constructor
    · intro heq
      obtain ⟨rfl, rfl⟩ := Prod.mk.inj (Except.ok.inj heq)
      exact ⟨rest, hs, hf, rfl⟩
    · rintro ⟨rest', hs', -, rfl⟩
      obtain ⟨rfl, rfl⟩ := List.cons.inj (hs.symm.trans hs')
      rfl

/-- The innermost open conditional is the head of the list. -/
theorem openIf_eq_ok_iff {s : State} {o : OpenIf} :
    openIf i s = .ok o ↔ ∃ ifs, s.ifs = o :: ifs := by
  unfold openIf refuse
  cases h : s.ifs with
  | nil => simp [throw, throwThe, MonadExceptOf.throw]
  | cons o' ifs => simp

theorem pop_of_cons {s : State} {v : Nat} {rest : List Nat} (h : s.stack = v :: rest) :
    pop i 0 s = .ok (v, { s with stack := rest }) :=
  pop_eq_ok_iff.mpr ⟨rest, h, h ▸ Nat.succ_pos _, rfl⟩

/-- The arguments are on top, the last one first. -/
theorem popMany_eq_some_iff {count : Nat} {stack args rest : List Nat} :
    OperandStack.popMany count stack = (some args, rest) ↔
      stack = args.reverse ++ rest ∧ args.length = count := by
  constructor
  · intro h
    obtain ⟨hargs, rfl⟩ := Prod.mk.inj h
    -- Enough operands, or none is taken.
    split at hargs
    · next hle =>
      obtain rfl := Option.some.inj hargs
      rw [List.reverse_reverse, List.take_append_drop, List.length_reverse, List.length_take]
      exact ⟨rfl, Nat.min_eq_left hle⟩
    · cases hargs
  · rintro ⟨rfl, rfl⟩
    exact OperandStack.popMany_push args rest

/-- What it takes to replay an operation under a number, and what comes of it. -/
inductive Steps (n : Nat) (s : State) : Operation → Event → State → Prop
  | pushNil : Steps n s .pushNil .literal (s.push n)
  | pushInt {v : Int} : Steps n s (.pushInt v) .literal (s.push n)
  | pushStr {t : String} : Steps n s (.pushStr t) .literal (s.push n)
  | pushConst {name : String} : Steps n s (.pushConst name) .pushConst (s.push n)
  | pushVar {name : String} : Steps n s (.pushVar name) .pushVar (s.push n)
  | pushArg {index : Int} {d : Nat} {defs : List Nat} : s.defs = d :: defs →
      Steps n s (.pushArg index) (.pushArg d) (s.push n)
  | setVar {name : String} {v : Nat} {rest : List Nat} : s.stack = v :: rest →
      Steps n s (.setVar name) (.setVar v) { s with stack := rest }
  | send {name : String} {count : Option Int} {r : Nat} {args rest : List Nat} :
      s.stack = args.reverse ++ r :: rest →
      args.length = (Operation.send name count).argCount →
      Steps n s (.send name count) (.send r args) { s with stack := n :: rest }
  | defStart {name : String} : Steps n s (.defStart name) (.defStart s.currentClass)
      { s with defs := n :: s.defs }.openFrame
  | defEnd {name : String} {d r : Nat} {defs rest : List Nat} : s.defs = d :: defs →
      s.stack = r :: rest → Steps n s (.defEnd name) (.defEnd d r)
        (({ s with stack := rest, defs } : State).closeFrame.push r)
  | classStart {name : String} : s.classes = [] →
      Steps n s (.classStart name) .classStart { s with classes := [⟨n, name⟩] }.openFrame
  | classEnd {name : String} {c : OpenClass} {cs : List OpenClass} : s.classes = c :: cs →
      Steps n s (.classEnd name) (.classEnd c.opened) ({ s with classes := cs } : State).closeFrame
  | ifStart {v : Nat} {rest : List Nat} : s.stack = v :: rest →
      Steps n s .ifStart (.ifStart v) { s with stack := rest, ifs := ⟨n, rest.length⟩ :: s.ifs }
  | ifElse {o : OpenIf} {ifs : List OpenIf} {v : Nat} {rest : List Nat} : s.ifs = o :: ifs →
      s.stack = v :: rest → o.height < s.stack.length → Steps n s .ifElse (.ifElse o.opened v)
        { s with stack := OperandStack.truncate o.height rest }
  | ifEnd {o : OpenIf} {ifs : List OpenIf} {v : Nat} {rest : List Nat} : s.ifs = o :: ifs →
      s.stack = v :: rest → o.height < s.stack.length → Steps n s .ifEnd (.ifEnd o.opened v)
        { s with stack := o.opened :: OperandStack.truncate o.height rest, ifs }

/-- The replay steps only as the relation says. -/
theorem steps_of_step {s s' : State} (h : step n i s = .ok (e, s')) : Steps n s i.op e s' := by
  -- Each operation is read off its own branch of `step`; where it pops, what it found is kept.
  unfold step at h
  cases ho : i.op with
  | pushNil | pushInt v | pushStr t | pushConst name | pushVar name | defStart name =>
    rw [ho] at h
    obtain ⟨rfl, rfl⟩ := Prod.mk.inj (Except.ok.inj h)
    constructor
  | pushArg index =>
    simp only [ho] at h
    split at h
    · cases h
    · next d defs hdefs =>
      obtain ⟨rfl, rfl⟩ := Prod.mk.inj (Except.ok.inj h)
      exact .pushArg hdefs
  | setVar name =>
    simp only [ho] at h
    obtain ⟨⟨v, t⟩, hp, h⟩ := exists_of_bind_eq_ok h
    obtain ⟨rest, hstack, -, rfl⟩ := pop_eq_ok_iff.mp hp
    obtain ⟨rfl, rfl⟩ := Prod.mk.inj (Except.ok.inj h)
    exact .setVar hstack
  | send name count =>
    simp only [ho] at h
    split at h
    · cases h
    · next args stack hmany =>
      obtain ⟨hstack, hcount⟩ := popMany_eq_some_iff.mp hmany
      obtain ⟨⟨r, t⟩, hp, h⟩ := exists_of_bind_eq_ok h
      obtain ⟨rest, rfl, -, rfl⟩ := pop_eq_ok_iff.mp hp
      obtain ⟨rfl, rfl⟩ := Prod.mk.inj (Except.ok.inj h)
      exact .send hstack hcount
  | defEnd name =>
    simp only [ho] at h
    split at h
    · cases h
    · next d defs hdefs =>
      obtain ⟨⟨r, t⟩, hp, h⟩ := exists_of_bind_eq_ok h
      obtain ⟨rest, hstack, -, rfl⟩ := pop_eq_ok_iff.mp hp
      obtain ⟨rfl, rfl⟩ := Prod.mk.inj (Except.ok.inj h)
      exact .defEnd hdefs hstack
  | classStart name =>
    simp only [ho] at h
    split at h
    · cases h
    · next hclasses =>
      obtain ⟨rfl, rfl⟩ := Prod.mk.inj (Except.ok.inj h)
      exact .classStart hclasses
  | classEnd name =>
    simp only [ho] at h
    split at h
    · cases h
    · next hclasses =>
      obtain ⟨rfl, rfl⟩ := Prod.mk.inj (Except.ok.inj h)
      exact .classEnd hclasses
  | ifStart =>
    simp only [ho] at h
    obtain ⟨⟨v, t⟩, hp, h⟩ := exists_of_bind_eq_ok h
    obtain ⟨rest, hstack, -, rfl⟩ := pop_eq_ok_iff.mp hp
    obtain ⟨rfl, rfl⟩ := Prod.mk.inj (Except.ok.inj h)
    exact .ifStart hstack
  | ifElse =>
    simp only [ho] at h
    obtain ⟨o, hopen, h⟩ := exists_of_bind_eq_ok h
    obtain ⟨ifs, hifs⟩ := openIf_eq_ok_iff.mp hopen
    obtain ⟨⟨v, t⟩, hp, h⟩ := exists_of_bind_eq_ok h
    obtain ⟨rest, hstack, hlt, rfl⟩ := pop_eq_ok_iff.mp hp
    obtain ⟨rfl, rfl⟩ := Prod.mk.inj (Except.ok.inj h)
    exact .ifElse hifs hstack hlt
  | ifEnd =>
    simp only [ho] at h
    obtain ⟨o, hopen, h⟩ := exists_of_bind_eq_ok h
    obtain ⟨ifs, hifs⟩ := openIf_eq_ok_iff.mp hopen
    obtain ⟨⟨v, t⟩, hp, h⟩ := exists_of_bind_eq_ok h
    obtain ⟨rest, hstack, hlt, rfl⟩ := pop_eq_ok_iff.mp hp
    obtain ⟨rfl, rfl⟩ := Prod.mk.inj (Except.ok.inj h)
    rw [hifs, List.tail_cons]
    exact .ifEnd hifs hstack hlt
  | unknown opcode operand =>
    rw [ho] at h
    cases h

/-- **An instruction is replayed** just when its operation finds what it takes. -/
theorem step_eq_ok_iff {s s' : State} : step n i s = .ok (e, s') ↔ Steps n s i.op e s' := by
  refine ⟨steps_of_step, fun h => ?_⟩
  generalize ho : i.op = op at h
  rw [step, ho]
  -- What a step says about the state is what the function looks at.
  cases h with
  | pushNil | pushInt | pushStr | pushConst | pushVar | defStart => rfl
  | pushArg hdefs => simp only [hdefs]
  | setVar hstack | ifStart hstack =>
    simp only [pop_of_cons hstack, bind, Except.bind]
    rfl
  | send hstack hcount =>
    simp only [popMany_eq_some_iff.mpr ⟨hstack, hcount⟩, bind, Except.bind]
    rfl
  | defEnd hdefs hstack =>
    simp only [hdefs, pop_of_cons hstack, bind, Except.bind]
    rfl
  | classStart hclasses | classEnd hclasses => simp only [hclasses]
  | ifElse hifs hstack hlt =>
    simp only [openIf_eq_ok_iff.mpr ⟨_, hifs⟩, pop_eq_ok_iff.mpr ⟨_, hstack, hlt, rfl⟩, bind,
      Except.bind]
    rfl
  | ifEnd hifs hstack hlt =>
    simp only [openIf_eq_ok_iff.mpr ⟨_, hifs⟩, pop_eq_ok_iff.mpr ⟨_, hstack, hlt, rfl⟩, bind,
      Except.bind, hifs, List.tail_cons]
    rfl

/-- Is the event one of the operation? -/
def Event.Of : Event → Operation → Bool
  | .literal, .pushNil | .literal, .pushInt _ | .literal, .pushStr _ | .pushConst, .pushConst _
  | .pushVar, .pushVar _ | .pushArg _, .pushArg _ | .setVar _, .setVar _ | .send _ _, .send _ _
  | .defStart _, .defStart _ | .defEnd _ _, .defEnd _ | .classStart, .classStart _
  | .classEnd _, .classEnd _ | .ifStart _, .ifStart | .ifElse _ _, .ifElse
  | .ifEnd _ _, .ifEnd => true
  | _, _ => false

/-- What an operation makes of a state in which it finds its operands. -/
def State.effect (s : State) (n : Nat) : Operation → State
  | .pushNil | .pushInt _ | .pushStr _ | .pushConst _ | .pushVar _ | .pushArg _ => s.push n
  | .setVar _ => { s with stack := s.stack.tail }
  | op@(.send _ _) => { s with stack := n :: (s.stack.drop op.argCount).tail }
  | .defStart _ => { s with defs := n :: s.defs }.openFrame
  | .defEnd _ =>
    ({ s with stack := s.stack.tail, defs := s.defs.tail } : State).closeFrame.push (s.stack.headD n)
  | .classStart name => { s with classes := [⟨n, name⟩] }.openFrame
  | .classEnd _ => ({ s with classes := s.classes.tail } : State).closeFrame
  | .ifStart =>
    { s with stack := s.stack.tail, ifs := ⟨n, s.stack.tail.length⟩ :: s.ifs }
  | .ifElse =>
    { s with stack := OperandStack.truncate (s.ifs.headD default).height s.stack.tail }
  | .ifEnd =>
    let opened := s.ifs.headD default
    { s with
      stack := opened.opened :: OperandStack.truncate opened.height s.stack.tail
      ifs := s.ifs.tail }
  | .unknown _ _ => s

/-- The state after a step is a function of the operation. -/
theorem Steps.eq_effect {s s' : State} {op : Operation} (h : Steps n s op e s') :
    s' = s.effect n op := by
  -- On the step: its conditions determine what the effect drops.
  cases h with
  | pushNil | pushInt | pushStr | pushConst | pushVar | pushArg | defStart | classStart => rfl
  | setVar hstack | ifStart hstack => rw [State.effect, hstack, List.tail_cons]
  | send hstack hcount =>
    rw [State.effect, hstack, ← hcount, ← List.length_reverse, List.drop_left, List.tail_cons]
  | defEnd hdefs hstack =>
    rw [State.effect, hdefs, hstack, List.tail_cons, List.tail_cons, List.headD_cons]
  | classEnd hclasses => rw [State.effect, hclasses, List.tail_cons]
  | ifElse hifs hstack =>
    simp only [State.effect, hifs, hstack, List.tail_cons, List.headD_cons]
  | ifEnd hifs hstack =>
    rw [State.effect, hifs, hstack, List.tail_cons, List.tail_cons, List.headD_cons]

/-- An instruction leaves its own record, unless it opens a conditional or a method; that of the
conditional that it ends; or old ones. -/
theorem State.mem_effect {s : State} {n r : Nat} {op : Operation}
    (h : r ∈ (s.effect n op).frames.flatten) :
    (r = n ∧ op ≠ .ifStart ∧ ∀ name, op ≠ .defStart name) ∨
      (op = .ifEnd ∧ r = (s.ifs.headD default).opened) ∨ r ∈ s.frames.flatten := by
  obtain ⟨stack, outer, ifs, defs, classes⟩ := s
  -- Whatever an operation takes away from the operands, what is left was there before.
  have htail : r ∈ stack.tail → r ∈ stack := List.mem_of_mem_tail
  have hdrop : ∀ k, r ∈ (stack.drop k).tail → r ∈ stack :=
    fun k h => List.mem_of_mem_drop (List.mem_of_mem_tail h)
  have htruncate : ∀ k, r ∈ OperandStack.truncate k stack.tail → r ∈ stack :=
    fun k h => htail (List.mem_of_mem_drop h)
  have hhead : r = stack.headD n → r = n ∨ r ∈ stack := by cases stack <;> grind
  have hclose : r ∈ outer.headD [] ∨ r ∈ outer.tail.flatten → r ∈ outer.flatten := by
    cases outer <;> simp
  cases op <;> simp only [State.effect, State.frames, State.push, State.openFrame,
    State.closeFrame, List.flatten_cons, List.mem_append, List.mem_cons, List.not_mem_nil,
    false_or] at h ⊢ <;> grind

namespace Occurs

/-- An instruction that occurs found what it takes. -/
theorem steps (h : Occurs code n i e) :
    ∃ s', stateAt code (n + 1) = s' ∧ Steps n (stateAt code n) i.op e s' :=
  ⟨_, rfl, step_eq_ok_iff.mp h.2⟩

theorem literal (h : Occurs code n i e) (ho : i.op = .pushNil ∨ (∃ v, i.op = .pushInt v) ∨
    ∃ t, i.op = .pushStr t) :
    e = .literal ∧ stateAt code (n + 1) = (stateAt code n).push n := by
  obtain ⟨s', hs', hs⟩ := h.steps
  rcases ho with ho | ⟨v, ho⟩ | ⟨t, ho⟩ <;> rw [ho] at hs <;> cases hs <;> exact ⟨rfl, hs'⟩

theorem pushConst (h : Occurs code n i e) (ho : i.op = .pushConst name) :
    e = .pushConst ∧ stateAt code (n + 1) = (stateAt code n).push n := by
  obtain ⟨s', hs', hs⟩ := h.steps
  rw [ho] at hs
  cases hs
  exact ⟨rfl, hs'⟩

theorem pushVar (h : Occurs code n i e) (ho : i.op = .pushVar name) :
    e = .pushVar ∧ stateAt code (n + 1) = (stateAt code n).push n := by
  obtain ⟨s', hs', hs⟩ := h.steps
  rw [ho] at hs
  cases hs
  exact ⟨rfl, hs'⟩

theorem pushArg {index : Int} (h : Occurs code n i e) (ho : i.op = .pushArg index) :
    ∃ d defs, (stateAt code n).defs = d :: defs ∧ e = .pushArg d ∧
      stateAt code (n + 1) = (stateAt code n).push n := by
  obtain ⟨s', hs', hs⟩ := h.steps
  rw [ho] at hs
  cases hs with
  | pushArg hdefs => exact ⟨_, _, hdefs, rfl, hs'⟩

/-- An assignment takes the top of the stack. -/
theorem setVar (h : Occurs code n i e) (ho : i.op = .setVar name) :
    ∃ v rest, (stateAt code n).stack = v :: rest ∧ e = .setVar v ∧
      stateAt code (n + 1) = { stateAt code n with stack := rest } := by
  obtain ⟨s', hs', hs⟩ := h.steps
  rw [ho] at hs
  cases hs with
  | setVar hstack => exact ⟨_, _, hstack, rfl, hs'⟩

/-- A call takes its arguments and the receiver below them, and leaves its own record. -/
theorem send {count : Option Int} (h : Occurs code n i e) (ho : i.op = .send name count) :
    ∃ r args rest, (stateAt code n).stack = args.reverse ++ r :: rest ∧
      args.length = i.op.argCount ∧ e = .send r args ∧
      stateAt code (n + 1) = { stateAt code n with stack := n :: rest } := by
  obtain ⟨s', hs', hs⟩ := h.steps
  rw [ho] at hs
  cases hs with
  | send hstack hcount => exact ⟨_, _, _, hstack, ho ▸ hcount, rfl, hs'⟩

/-- A definition opens a frame under the class that is open. -/
theorem defStart (h : Occurs code n i e) (ho : i.op = .defStart name) :
    e = .defStart (stateAt code n).currentClass ∧ stateAt code (n + 1) =
      { stateAt code n with defs := n :: (stateAt code n).defs }.openFrame := by
  obtain ⟨s', hs', hs⟩ := h.steps
  rw [ho] at hs
  cases hs
  exact ⟨rfl, hs'⟩

/-- The end of a definition takes its last value and pushes the definition. -/
theorem defEnd (h : Occurs code n i e) (ho : i.op = .defEnd name) :
    ∃ d defs r rest, (stateAt code n).defs = d :: defs ∧ (stateAt code n).stack = r :: rest ∧
      e = .defEnd d r ∧ stateAt code (n + 1) =
        (({ stateAt code n with stack := rest, defs } : State).closeFrame).push r := by
  obtain ⟨s', hs', hs⟩ := h.steps
  rw [ho] at hs
  cases hs with
  | defEnd hdefs hstack => exact ⟨_, _, _, _, hdefs, hstack, rfl, hs'⟩

/-- A class opens a frame when no other class is open. -/
theorem classStart (h : Occurs code n i e) (ho : i.op = .classStart name) :
    (stateAt code n).classes = [] ∧ e = .classStart ∧ stateAt code (n + 1) =
      { stateAt code n with classes := [⟨n, name⟩] }.openFrame := by
  obtain ⟨s', hs', hs⟩ := h.steps
  rw [ho] at hs
  cases hs with
  | classStart hclasses => exact ⟨hclasses, rfl, hs'⟩

/-- The end of a class drops its frame. -/
theorem classEnd (h : Occurs code n i e) (ho : i.op = .classEnd name) :
    ∃ c cs, (stateAt code n).classes = c :: cs ∧ e = .classEnd c.opened ∧
      stateAt code (n + 1) = ({ stateAt code n with classes := cs } : State).closeFrame := by
  obtain ⟨s', hs', hs⟩ := h.steps
  rw [ho] at hs
  cases hs with
  | classEnd hclasses => exact ⟨_, _, hclasses, rfl, hs'⟩

/-- A conditional takes its condition and notes the height of the stack. -/
theorem ifStart (h : Occurs code n i e) (ho : i.op = .ifStart) :
    ∃ v rest, (stateAt code n).stack = v :: rest ∧ e = .ifStart v ∧
      stateAt code (n + 1) =
        { stateAt code n with
          stack := rest, ifs := ⟨n, rest.length⟩ :: (stateAt code n).ifs } := by
  obtain ⟨s', hs', hs⟩ := h.steps
  rw [ho] at hs
  cases hs with
  | ifStart hstack => exact ⟨_, _, hstack, rfl, hs'⟩

/-- The first branch ends with its value, and the stack goes back to the noted height. -/
theorem ifElse (h : Occurs code n i e) (ho : i.op = .ifElse) :
    ∃ o ifs v rest, (stateAt code n).ifs = o :: ifs ∧ (stateAt code n).stack = v :: rest ∧
      e = .ifElse o.opened v ∧ stateAt code (n + 1) =
        { stateAt code n with stack := OperandStack.truncate o.height rest } := by
  obtain ⟨s', hs', hs⟩ := h.steps
  rw [ho] at hs
  cases hs with
  | ifElse hifs hstack _ => exact ⟨_, _, _, _, hifs, hstack, rfl, hs'⟩

/-- The second branch ends in the same way, and the conditional itself is pushed. -/
theorem ifEnd (h : Occurs code n i e) (ho : i.op = .ifEnd) :
    ∃ o ifs v rest, (stateAt code n).ifs = o :: ifs ∧ (stateAt code n).stack = v :: rest ∧
      e = .ifEnd o.opened v ∧ stateAt code (n + 1) =
        { stateAt code n with
          stack := o.opened :: OperandStack.truncate o.height rest, ifs } := by
  obtain ⟨s', hs', hs⟩ := h.steps
  rw [ho] at hs
  cases hs with
  | ifEnd hifs hstack _ => exact ⟨_, _, _, _, hifs, hstack, rfl, hs'⟩

/-- Code that is replayed has no opcode outside the language. -/
theorem ne_unknown {opcode : String} {operand : Option String} (h : Occurs code n i e) :
    i.op ≠ .unknown opcode operand := by
  intro ho
  obtain ⟨s', -, hs⟩ := h.steps
  rw [ho] at hs
  cases hs

/-- The event of an instruction is of its kind. -/
theorem of_op (h : Occurs code n i e) : e.Of i.op := by
  obtain ⟨s', -, hs⟩ := h.steps
  generalize i.op = op at hs ⊢
  cases hs <;> rfl

theorem op_of_send {r : Nat} {args : List Nat} (h : Occurs code n i (.send r args)) :
    ∃ name count, i.op = .send name count := by
  have he := h.of_op
  cases ho : i.op <;> rw [ho] at he <;> first | exact ⟨_, _, rfl⟩ | cases he

theorem op_of_defEnd {d r : Nat} (h : Occurs code n i (.defEnd d r)) :
    ∃ name, i.op = .defEnd name := by
  have he := h.of_op
  cases ho : i.op <;> rw [ho] at he <;> first | exact ⟨_, rfl⟩ | cases he

theorem op_of_setVar {v : Nat} (h : Occurs code n i (.setVar v)) : ∃ name, i.op = .setVar name := by
  have he := h.of_op
  cases ho : i.op <;> rw [ho] at he <;> first | exact ⟨_, rfl⟩ | cases he

theorem op_of_ifElse {o v : Nat} (h : Occurs code n i (.ifElse o v)) : i.op = .ifElse := by
  have he := h.of_op
  cases ho : i.op <;> rw [ho] at he <;> first | rfl | cases he

theorem op_of_ifEnd {o v : Nat} (h : Occurs code n i (.ifEnd o v)) : i.op = .ifEnd := by
  have he := h.of_op
  cases ho : i.op <;> rw [ho] at he <;> first | rfl | cases he

/-! ### The state after an instruction -/

/-- The state after a record is the effect of its operation. -/
theorem state_succ (h : Occurs code n i e) :
    stateAt code (n + 1) = (stateAt code n).effect n i.op := by
  obtain ⟨s', hs', hs⟩ := h.steps
  rw [hs', hs.eq_effect]

/-- Definitions open and close with their records. -/
theorem defs_succ (h : Occurs code n i e) :
    (stateAt code (n + 1)).defs =
      match i.op with
      | .defStart _ => n :: (stateAt code n).defs
      | .defEnd _ => (stateAt code n).defs.tail
      | _ => (stateAt code n).defs := by
  rw [h.state_succ]
  cases i.op <;> rfl

/-- At most one class is open. -/
theorem classes_succ (h : Occurs code n i e) :
    (stateAt code (n + 1)).classes =
      match i.op with
      | .classStart name => [⟨n, name⟩]
      | .classEnd _ => (stateAt code n).classes.tail
      | _ => (stateAt code n).classes := by
  rw [h.state_succ]
  cases i.op <;> rfl

/-- Conditionals open and close with their records. -/
theorem ifs_succ (h : Occurs code n i e) :
    (stateAt code (n + 1)).ifs =
      match i.op with
      | .ifStart => ⟨n, (stateAt code n).stack.tail.length⟩ :: (stateAt code n).ifs
      | .ifEnd => (stateAt code n).ifs.tail
      | _ => (stateAt code n).ifs := by
  rw [h.state_succ]
  cases i.op <;> rfl

end Occurs

/-- The open blocks of a state were opened by instructions of their kinds, before a point. -/
structure Opened (code : List Instruction) (n : Nat) (s : State) : Prop where
  defs : ∀ d ∈ s.defs, d < n ∧ ∃ i name, code[d]? = some i ∧ i.op = .defStart name
  classes : ∀ c ∈ s.classes, c.opened < n ∧ ∃ i, code[c.opened]? = some i ∧ i.op = .classStart c.name
  ifs : ∀ o ∈ s.ifs, o.opened < n ∧ ∃ i, code[o.opened]? = some i ∧ i.op = .ifStart

theorem Occurs.opened_succ (h : Occurs code n i e) (ho : Opened code n (stateAt code n)) :
    Opened code (n + 1) (stateAt code (n + 1)) := by
  constructor
  · intro d hd
    rw [h.defs_succ] at hd
    -- A block that was open before stays what it was.
    have old : d ∈ (stateAt code n).defs → d < n + 1 ∧
        ∃ i name, code[d]? = some i ∧ i.op = .defStart name :=
      fun hm => ⟨Nat.lt_succ_of_lt (ho.defs d hm).1, (ho.defs d hm).2⟩
    split at hd
    · next name hop =>
      rcases List.mem_cons.mp hd with rfl | hd
      · exact ⟨Nat.lt_succ_self _, i, name, h.1, hop⟩
      · exact old hd
    · exact old (List.mem_of_mem_tail hd)
    · exact old hd
  · intro c hc
    rw [h.classes_succ] at hc
    have old : c ∈ (stateAt code n).classes → c.opened < n + 1 ∧
        ∃ i, code[c.opened]? = some i ∧ i.op = .classStart c.name :=
      fun hm => ⟨Nat.lt_succ_of_lt (ho.classes c hm).1, (ho.classes c hm).2⟩
    split at hc
    · next name hop =>
      obtain rfl := List.mem_singleton.mp hc
      exact ⟨Nat.lt_succ_self _, i, h.1, hop⟩
    · exact old (List.mem_of_mem_tail hc)
    · exact old hc
  · intro o hi
    rw [h.ifs_succ] at hi
    have old : o ∈ (stateAt code n).ifs → o.opened < n + 1 ∧
        ∃ i, code[o.opened]? = some i ∧ i.op = .ifStart :=
      fun hm => ⟨Nat.lt_succ_of_lt (ho.ifs o hm).1, (ho.ifs o hm).2⟩
    split at hi
    · next hop =>
      rcases List.mem_cons.mp hi with rfl | hi
      · exact ⟨Nat.lt_succ_self _, i, h.1, hop⟩
      · exact old hi
    · exact old (List.mem_of_mem_tail hi)
    · exact old hi

/-- **The open blocks at a point** were opened before it, by instructions of their kinds. -/
theorem opened_stateAt (h : (trace code).error? = none) :
    ∀ n, n ≤ code.length → Opened code n (stateAt code n) := by
  intro n
  -- On the number of records replayed.
  induction n with
  | zero =>
    intro _
    rw [stateAt_zero]
    exact ⟨nofun, nofun, nofun⟩
  | succ n ih =>
    intro hn
    obtain ⟨e, he, -⟩ := exists_occurs h (List.getElem?_eq_getElem (Nat.lt_of_succ_le hn))
    exact he.opened_succ (ih (Nat.le_of_succ_le hn))

end Rubylet.Replay
