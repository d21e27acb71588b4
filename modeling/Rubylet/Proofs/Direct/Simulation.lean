import Rubylet.Proofs.Code.Compiled
import Rubylet.Proofs.Machine.Runs

/-!
# The machine evaluates directly

Running the code of a part does what evaluating the part says (`Simulated`): the machine comes behind
the code with the values on its stack and the same locals, or stops with the same error at the same
record. `simulates` proves this by induction on the layout of the part, `carries_callers` of calls by
induction on the number of frames that are left.

A branch may leave more operands than its value; they are cut off where it ends. So the stack behind
a body is known only up to some `junk` in between. And every part is given the steps it may take at
most: `cost` of them for each of its instructions, which counts the calls that start there.
-/

namespace Rubylet

open Machine Direct

namespace Direct

/-! ### Evaluation and runs -/

section Leads

variable {m : Machine} {c c' : Nat} {s : State} {α β : Type} {x : Evaluation α}
  {f : α → Evaluation β} {l : Locals}

/-- What is evaluated first is run first. -/
theorem leads_bind {at₁ : α × Locals → Nat × List Activation}
    {at₂ : β × Locals → Nat × List Activation} (hx : m.Leads c s ((x.run l).map at₁))
    (hf : ∀ v l', x.run l = .ok (v, l') → ∀ calls,
      m.Leads c' ⟨(at₁ (v, l')).1, (at₁ (v, l')).2, calls⟩ (((f v).run l').map at₂)) :
    m.Leads (c + c') s (((x >>= f).run l).map at₂) := by
  rw [StateT.run_bind]
  -- If the first evaluation fails, the machine has failed as well and the second is not reached.
  cases hr : x.run l with
  | error e =>
    rw [hr] at hx
    exact hx.mono (Nat.le_add_right _ _)
  | ok r =>
    rw [hr] at hx
    exact hx.trans (hf r.1 r.2 hr)

/-- What is run behind a part whose results are known. -/
theorem leads_then {ρ : Type} {x : Except RunError ρ} {at₁ at₂ : ρ → Nat × List Activation}
    (hx : m.Leads c s (x.map at₁))
    (h : ∀ r, x = .ok r → ∀ calls, m.Leads c' ⟨(at₁ r).1, (at₁ r).2, calls⟩ (.ok (at₂ r))) :
    m.Leads (c + c') s (x.map at₂) := by
  cases hr : x with
  | error e =>
    rw [hr] at hx
    exact hx.mono (Nat.le_add_right _ _)
  | ok r =>
    rw [hr] at hx
    exact hx.trans (h r hr)

theorem map_inNewFrame {γ : Type} (x : Evaluation α) (g : α → γ) :
    (inNewFrame x).map g = (x.run .empty).map fun r => g r.1 := by
  rw [inNewFrame, StateT.run'_eq]
  cases x.run .empty <;> rfl

theorem leads_lift {y : Except RunError α} {at₁ : α × Locals → Nat × List Activation}
    (h : m.Leads c s (y.map fun v => at₁ (v, l))) :
    m.Leads c s (((liftM y : Evaluation α).run l).map at₁) := by
  cases y <;> exact h

end Leads

/-! ### What lists of syntax evaluate to -/

/-- A list of statements is evaluated head first, each at its own place in the code. -/
theorem evalAll_cons {known : List Declaration} {f : Frame} {n : Nat} {x : Node} {xs : List Node}
    {l l' : Locals} {vs : List Value} (h : (evalAll known f n (x :: xs)).run l = .ok (vs, l')) :
    ∃ v l₁ ws, (eval known f n x).run l = .ok (v, l₁) ∧
      (evalAll known f (n + x.count) xs).run l₁ = .ok (ws, l') ∧ vs = v :: ws := by
  rw [evalAll, StateT.run_bind] at h
  obtain ⟨⟨v, l₁⟩, hx, h⟩ := exists_of_bind_eq_ok h
  rw [StateT.run_bind] at h
  obtain ⟨⟨ws, l₂⟩, hxs, h⟩ := exists_of_bind_eq_ok h
  obtain ⟨rfl, rfl⟩ := Prod.mk.inj (Except.ok.inj h)
  exact ⟨v, l₁, ws, hx, hxs, rfl⟩

/-- Every statement has a value. -/
theorem length_evalAll {known : List Declaration} {f : Frame} :
    ∀ {xs : List Node} {n : Nat} {l l' : Locals} {vs : List Value},
      (evalAll known f n xs).run l = .ok (vs, l') → vs.length = xs.length := by
  intro xs
  induction xs with
  | nil =>
    intro n l l' vs h
    obtain ⟨rfl, -⟩ := Prod.mk.inj (Except.ok.inj h)
    rfl
  | cons x xs ih =>
    intro n l l' vs h
    obtain ⟨v, l₁, ws, -, hxs, rfl⟩ := evalAll_cons h
    rw [List.length_cons, List.length_cons, ih hxs]

/-- What the last of several pieces of syntax leaves behind. -/
theorem evalAll_last {known : List Declaration} {f : Frame} {P : Node → Value → Locals → Prop}
    (hP : ∀ {x n l v l'}, (eval known f n x).run l = .ok (v, l') → P x v l') :
    ∀ {xs : List Node} {n : Nat} {l l' : Locals} {vs : List Value} {x : Node},
      (evalAll known f n xs).run l = .ok (vs, l') → xs.getLast? = some x →
      P x (vs.getLastD .nil) l' := by
  intro xs
  induction xs with
  | nil => intro n l l' vs x _ hx; cases hx
  | cons y ys ih =>
    intro n l l' vs x h hx
    obtain ⟨v, l₁, ws, hy, hys, rfl⟩ := evalAll_cons h
    -- The last statement is the head only when nothing follows it.
    cases ys with
    | nil =>
      obtain ⟨rfl, rfl⟩ := Prod.mk.inj (Except.ok.inj hys)
      obtain rfl := Option.some.inj hx
      exact hP hy
    | cons z zs =>
      have hlen := length_evalAll hys
      cases ws with
      | nil => cases hlen
      | cons w ws =>
        have hlast := ih hys hx
        rw [List.getLastD_cons] at hlast
        rwa [List.getLastD_cons, List.getLastD_cons]

/-- What a list leaves: the value of the head, if the head leaves one, and then the rest. -/
theorem left_cons (x : Node) (xs : List Node) (v : Value) (vs : List Value) :
    left (x :: xs) (v :: vs) = if leaves x then v :: left xs vs else left xs vs := by
  simp only [left, List.zip_cons_cons, List.filter_cons]
  split <;> rfl

/-- A body whose last statement leaves a value has that value on top. -/
theorem left_of_leaves :
    ∀ {xs : List Node} {vs : List Value} {x : Node}, vs.length = xs.length →
      xs.getLast? = some x → leaves x → ∃ ws, left xs vs = ws ++ [vs.getLastD .nil] := by
  intro xs
  induction xs with
  | nil => intro vs x _ hx; cases hx
  | cons y ys ih =>
    intro vs x hlen hx hl
    cases vs with
    | nil => cases hlen
    | cons v vs =>
      -- The last value lies on top whether or not the earlier statements left theirs.
      cases ys with
      | nil =>
        obtain rfl : y = x := Option.some.inj hx
        obtain rfl := List.length_eq_zero_iff.mp (Nat.succ.inj hlen)
        exact ⟨[], by simp [left, hl]⟩
      | cons z zs =>
        cases vs with
        | nil => cases hlen
        | cons w ws =>
          obtain ⟨us, hus⟩ := ih (Nat.succ.inj hlen) hx hl
          rw [List.getLastD_cons] at hus
          rw [List.getLastD_cons, List.getLastD_cons]
          rw [left_cons, hus]
          split
          · exact ⟨v :: us, rfl⟩
          · exact ⟨us, rfl⟩

/-! ### Sending -/

theorem takeArgs_append (args stack : List Value) :
    takeArgs args.length (args.reverse ++ stack) = (args, stack) := by
  have hle : args.length ≤ (args.reverse ++ stack).length := by simp
  simp only [takeArgs, if_pos hle]
  rw [List.take_left' List.length_reverse, List.drop_left' List.length_reverse,
    List.reverse_reverse]

/-- What a search finds has been declared. -/
theorem mem_of_find? {known : List Declaration} {owner : Option String} {name : String}
    {d : Definition} (h : find? known owner name = some d) : .method d ∈ known := by
  obtain ⟨x, hx, hd⟩ := List.exists_of_findSome?_eq_some h
  rw [List.mem_reverse] at hx
  -- A class is no answer to a search for a method.
  cases x with
  | cls _ => cases hd
  | method d' =>
    simp only [Declaration.method?] at hd
    split at hd
    · obtain rfl := Option.some.inj hd
      exact hx
    · cases hd

/-- The most steps that an instruction takes, with the calls that start from it. -/
def cost (size : Nat) : (room : Nat) → Nat
  | 0 => 1
  | room + 1 => 1 + size * cost size room

theorem cost_pos (size room : Nat) : 0 < cost size room := by
  cases room <;> simp only [cost] <;> omega

/-- With less room there is less to do. -/
theorem cost_mono (size : Nat) : ∀ room, cost size (room - 1) ≤ cost size room := by
  intro room
  induction room with
  | zero => exact Nat.le_refl _
  | succ room ih =>
    rw [Nat.add_sub_cancel]
    cases room with
    | zero => simp only [cost]; omega
    | succ room =>
      simp only [cost] at ih ⊢
      -- The cost with room to spare is a multiple of the cost below it.
      have := Nat.mul_le_mul_left size ih
      rw [Nat.add_sub_cancel] at this
      omega

/-! ### What a part does -/

/-- Running a part does what evaluating it says: within a number of steps, the machine comes behind
it with its values on the stack, or stops with the same error. -/
def Simulated (m : Machine) (known : List Declaration) (f : Frame) (c : Nat) (a : Activation)
    (outer : List Activation) (s : State) (n n' : Nat) : Part → Prop
  | .expr x => m.Leads c s <| ((eval known f n x).run a.locals).map fun r =>
      (n', { a with stack := r.1 :: a.stack, locals := r.2 } :: outer)
  | .statement x => m.Leads c s <| ((eval known f n x).run a.locals).map fun r =>
      (n', { a with stack := if leaves x then r.1 :: a.stack else a.stack, locals := r.2 } :: outer)
  | .exprs xs => m.Leads c s <| ((evalAll known f n xs).run a.locals).map fun r =>
      (n', { a with stack := r.1.reverse ++ a.stack, locals := r.2 } :: outer)
  | .statements xs => m.Leads c s <| ((evalAll known f n xs).run a.locals).map fun r =>
      (n', { a with stack := (left xs r.1).reverse ++ a.stack, locals := r.2 } :: outer)
  | .receiver _ r => m.Leads c s <| ((evalReceiver known f n r).run a.locals).map fun r =>
      (n', { a with stack := r.1 :: a.stack, locals := r.2 } :: outer)
  | .body _ b => ∃ junk, m.Leads c s <| ((evalBody known f n b).run a.locals).map fun r =>
      (n', { a with stack := r.1 :: (junk ++ a.stack), locals := r.2 } :: outer)

/-- A way of calling methods does what the machine does when a number of frames are left. -/
def Carries (m : Machine) (code : List Instruction) (known : List Declaration) (room : Nat)
    (call : Caller) : Prop :=
  ∀ {record : Nat} {pos : Pos} {name : String} {d : Definition} {owner : Option String}
    {args : List Value} {a : Activation} {outer : List Activation} {calls : List (String × Nat)}
    {receiver : Value} {stack : List Value},
    .method d ∈ known → code[record]? = some ⟨.send name (some args.length), ⟨.call, pos⟩⟩ →
    a.stack = args.reverse ++ receiver :: stack →
    m.react a.owner name receiver args = .call d.record owner →
    maxCallDepth - (outer.length + 1) = room →
    m.Leads (cost code.length room) ⟨record, a :: outer, calls⟩
      ((call record pos d owner args).map fun v => (record + 1, { a with stack := v :: stack } :: outer))

section Program

variable {m : Machine} {code : List Instruction} {statements : List Node}
  (hl : Loaded m code statements)

include hl

/-- The machine runs the code of the layout. -/
theorem getElem?_code {n : Nat} {i : Instruction} (h : code[n]? = some i) :
    m.code[n]? = some i := by
  rw [hl.code_eq, List.getElem?_toArray, h]

variable {f : Frame} {room : Nat}

/-- A reaction and what evaluation answers, unless a method is called. -/
inductive Agrees (n : Nat) (pos : Pos) : Reaction → Except RunError Value → Prop
  | answer (v : Value) : Agrees n pos (.answer v) (.ok v)
  | fail (cause : BackendCause) : Agrees n pos (.fail cause) (.error (.failed ⟨cause, n, pos⟩))
  | fault (fault : Fault) : Agrees n pos (.fault fault) (.error (.fault fault))

omit hl in
theorem agrees_showing (n : Nat) (pos : Pos) (cause : Except Fault BackendCause) :
    Agrees n pos (.showing cause) (.error (.showing n pos cause)) := by
  cases cause with
  | ok cause => exact .fail cause
  | error fault => exact .fault fault

omit hl in
/-- The machine and the evaluation apply an operator alike, faults included. -/
theorem agrees_operate (memory n : Nat) (pos : Pos) (name : String) (receiver : Value)
    (args : List Value) :
    Agrees n pos (primitive memory name receiver args)
      (operate memory n pos name receiver args) := by
  unfold primitive operate
  cases receiver.type?.bind fun t => Operator.find? t name with
  | none => exact agrees_showing ..
  | some o =>
    -- An operator takes one argument; every other count is refused before it is applied.
    match args with
    | [] => exact agrees_showing ..
    | _ :: _ :: _ => exact agrees_showing ..
    | [arg] =>
      dsimp only
      split
      · cases o.apply memory receiver arg with
        | ok v => exact .answer v
        | error fault => cases fault <;> first | exact .fail _ | exact .fault _
      · exact agrees_showing ..

/-- **The machine and evaluation react in the same way**: both call a method, and it is the same
one, or both agree on an answer. -/
theorem send_cases (hmemory : f.memory = m.memory) (n : Nat) (pos : Pos) (name : String)
    (receiver : Value) (args : List Value) :
    (∃ d owner, .method d ∈ declared statements ∧
      m.react f.owner name receiver args = .call d.record owner ∧
      send (declared statements) f n pos name receiver args = f.call n pos d owner args) ∨
    Agrees n pos (m.react f.owner name receiver args)
      (send (declared statements) f n pos name receiver args) := by
  have hprimitive (v : Value) : Agrees n pos (primitive m.memory name v args)
      (operate f.memory n pos name v args) := hmemory ▸ agrees_operate f.memory n pos name v args
  cases receiver with
  | nil =>
    simp only [react, send]
    cases howner : f.owner with
    | none =>
      -- Outside of classes the two ways to look a method up are one.
      cases hd : find? (declared statements) none name with
      | some d =>
        refine .inl ⟨d, none, mem_of_find? hd, ?_, rfl⟩
        simp only [methodOf?, Option.bind_none, hl.method, hd, Option.map_some]
      | none =>
        simp only [methodOf?, Option.bind_none, hl.method, hd, Option.map_none]
        exact .inr (.fail _)
    | some c =>
      rw [hl.methodOf]
      cases hd : find? (declared statements) (some c) name with
      | some d => exact .inl ⟨d, some c, mem_of_find? hd, rfl, rfl⟩
      | none =>
        rw [hl.method]
        cases hd' : find? (declared statements) none name with
        | some d => exact .inl ⟨d, none, mem_of_find? hd', rfl, rfl⟩
        | none => exact .inr (.fail _)
  | cls c =>
    simp only [react, send]
    split
    · exact .inr (.answer _)
    · exact .inr (.fail _)
  | object c =>
    simp only [react, send]
    rw [hl.methodOf]
    cases hd : find? (declared statements) (some c) name with
    | some d => exact .inl ⟨d, some c, mem_of_find? hd, rfl, rfl⟩
    | none => exact .inr (hprimitive _)
  | int v => exact .inr (hprimitive _)
  | str t => exact .inr (hprimitive _)

omit hl in
/-- What the machine does with a message. -/
theorem step_send (m : Machine) (n : Nat) (pos : Pos) (name : String) (outer : List Activation)
    (calls : List (String × Nat)) {receiver : Value} {args stack : List Value} {a : Activation}
    (hstack : a.stack = args.reverse ++ receiver :: stack) :
    m.step ⟨.send name (some args.length), ⟨.call, pos⟩⟩ ⟨n, a :: outer, calls⟩ =
      match m.react a.owner name receiver args with
      | .answer value => .next ⟨n + 1, { a with stack := value :: stack } :: outer, calls⟩
      | .fail cause => .stop (.failed ⟨cause, n, pos⟩) ⟨n, a :: outer, calls⟩
      | .fault f => .stop (.fault f) ⟨n, a :: outer, calls⟩
      | .call method owner =>
        let calls' := (m.methodName method, args.length) :: calls
        if maxCallDepth ≤ outer.length + 1 then
          .stop (.failed ⟨.stackTooDeep, n, pos⟩) ⟨n, a :: outer, calls'⟩
        else .next ⟨method + 1, .fresh args (some n) owner :: { a with stack } :: outer, calls'⟩ := by
  simp only [Machine.step, Machine.send, Operation.argCount, Int.toNat_natCast, hstack,
    takeArgs_append]
  rfl

omit hl in
theorem isTruthy_iff {v : Value} : v.isTruthy ↔ v ≠ .nil := by cases v <;> simp [Value.isTruthy]

section Blocks

variable {k j : Nat} {a a' : Activation} (o : Origin) (outer : List Activation)
  (calls : List (String × Nat))

omit hl

/-- The branch that a condition asks for begins, with the height of the stack noted. -/
theorem step_ifStart (hlink : m.Linked k j) (a : Activation) (v : Value) :
    m.step ⟨.ifStart, o⟩ ⟨k, { a with stack := v :: a.stack } :: outer, calls⟩ =
      .next ⟨(if v.isTruthy then k else j) + 1, { a with ifs := a.stack.length :: a.ifs } :: outer,
        calls⟩ := by
  by_cases hv : v.isTruthy
  · simp only [Machine.step, hv, if_true]
    rfl
  · simp only [Machine.step, if_neg hv, jump, show m.jumps.get? k = some j from hlink]

/-- Behind the first branch the other one is jumped over. -/
theorem step_ifElse (hlink : m.Linked k j) (h : closeBranch a = .ok a') :
    m.step ⟨.ifElse, o⟩ ⟨k, a :: outer, calls⟩ = .next ⟨j + 1, a' :: outer, calls⟩ := by
  simp only [Machine.step, h, jump, show m.jumps.get? k = some j from hlink]

theorem step_ifEnd (h : closeBranch a = .ok a') :
    m.step ⟨.ifEnd, o⟩ ⟨k, a :: outer, calls⟩ = .next ⟨k + 1, a' :: outer, calls⟩ := by
  simp only [Machine.step, h]
  rfl

/-- The definition of a method is jumped over. -/
theorem step_defStart (hlink : m.Linked k j) (a : Activation) (name : String) :
    m.step ⟨.defStart name, o⟩ ⟨k, a :: outer, calls⟩ =
      .next ⟨j + 1, { a with stack := .nil :: a.stack } :: outer, calls⟩ := by
  simp only [Machine.step, jump, show m.jumps.get? k = some j from hlink]

end Blocks

/-- **A message does what evaluation says**, once receiver and arguments are on the stack. -/
theorem leads_send {n : Nat} {pos : Pos} {name : String} {receiver : Value} {args : List Value}
    {a : Activation} {outer : List Activation} {calls : List (String × Nat)} {stack : List Value}
    (hf : Carries m code (declared statements) room f.call) (hmemory : f.memory = m.memory)
    (hi : code[n]? = some ⟨.send name (some args.length), ⟨.call, pos⟩⟩)
    (hstack : a.stack = args.reverse ++ receiver :: stack) (howner : a.owner = f.owner)
    (hroom : maxCallDepth - (outer.length + 1) = room) :
    m.Leads (cost code.length room) ⟨n, a :: outer, calls⟩
      ((send (declared statements) f n pos name receiver args).map fun v =>
        (n + 1, { a with stack := v :: stack } :: outer)) := by
  have hcode := getElem?_code hl hi
  have hstep := step_send m n pos name outer calls hstack
  rcases send_cases hl hmemory n pos name receiver args with ⟨d, owner, hd, hreact, hsend⟩ | hagree
  · rw [hsend]
    exact hf hd hi hstack (howner ▸ hreact) hroom
  · have hpos := cost_pos code.length room
    rw [← howner] at hagree
    -- The step and the agreement speak of one reaction: both are put back before it is a variable.
    revert hagree hstep
    generalize m.react a.owner name receiver args = reaction
    generalize send (declared statements) f n pos name receiver args = answer
    intro hstep hagree
    cases hagree with
    | answer v => exact .one hcode hstep rfl hpos
    | fail cause => exact .stop hcode hstep rfl hpos
    | fault fault => exact .stop hcode hstep rfl hpos

/-! ### Parts -/

omit hl in
/-- A branch, and the instruction behind it that closes it and goes on elsewhere. -/
theorem leads_branch {n n' t c : Nat} {i : Instruction} {owner : Origin} {b : Option Node}
    {a : Activation} {outer : List Activation} {calls : List (String × Nat)} {l : Locals}
    (h : Simulated m (declared statements) f c { a with locals := l, ifs := a.stack.length :: a.ifs }
      outer ⟨n, { a with locals := l, ifs := a.stack.length :: a.ifs } :: outer, calls⟩ n n'
      (.body owner b))
    (hi : m.code[n']? = some i)
    (hstep : ∀ a₁ a₂ calls, closeBranch a₁ = .ok a₂ →
      m.step i ⟨n', a₁ :: outer, calls⟩ = .next ⟨t, a₂ :: outer, calls⟩) :
    m.Leads (c + 1) ⟨n, { a with locals := l, ifs := a.stack.length :: a.ifs } :: outer, calls⟩
      (((evalBody (declared statements) f n b).run l).map fun r =>
        (t, { a with stack := r.1 :: a.stack, locals := r.2 } :: outer)) := by
  obtain ⟨junk, h⟩ := h
  -- The closing record puts the value of the branch where the condition stood.
  refine leads_then h fun r _ calls => .one hi (hstep _ _ calls ?_) rfl Nat.one_pos
  exact closeBranch_eq rfl rfl

/-- What a frame has to do to be simulated: its calls are carried out, and so are those in the body
of a class, if one can stand here. -/
structure Ready (m : Machine) (code : List Instruction) (known : List Declaration)
    (inside : Option String) (room : Nat) (f : Frame) : Prop where
  memory : f.memory = m.memory
  call : Carries m code known room f.call
  classCall : inside = none → Carries m code known (room - 1) f.classCall

omit hl in
/-- An expression leaves its value. -/
theorem leaves_of_layout {links : Nat → Nat → Prop} {inside : Option String} {x : Node} {n n' : Nat}
    (h : Layout code links inside (.expr x) n n') : leaves x := by
  cases h with
  | leaf hx _ => cases x <;> first | rfl | cases hx
  | call => rfl
  | conditional => rfl

omit hl in
/-- What is pushed behind a body is the value of its last statement. -/
theorem step_closing {known : List Declaration} {xs : List Node} {i : Instruction} {n : Nat}
    {l l' : Locals} {vs : List Value} (hc : Lowering.closingLast xs = [i])
    (hr : (evalAll known f n xs).run l = .ok (vs, l')) (k : Nat) (a : Activation)
    (outer : List Activation) (calls : List (String × Nat)) (ha : a.locals = l') :
    m.step i ⟨k, a :: outer, calls⟩ =
      .next ⟨k + 1, { a with stack := vs.getLastD .nil :: a.stack } :: outer, calls⟩ := by
  have hlast : ∀ x n l v l', (eval known f n x).run l = .ok (v, l') → a.locals = l' →
      Lowering.closing x = [i] → m.step i ⟨k, a :: outer, calls⟩ =
        .next ⟨k + 1, { a with stack := v :: a.stack } :: outer, calls⟩ := by
    intro x n l v l' hx ha hc
    cases x with
    | assign pos name value =>
      cases hc
      rw [eval, StateT.run_bind] at hx
      obtain ⟨⟨w, l₁⟩, -, hx⟩ := exists_of_bind_eq_ok hx
      obtain ⟨rfl, rfl⟩ := Prod.mk.inj (Except.ok.inj hx)
      simp only [Machine.step, ha, Table.get?_set_self]
      rfl
    | methodDef =>
      -- The nil that is pushed for a definition is its value.
      cases hc
      obtain ⟨rfl, -⟩ := Prod.mk.inj (Except.ok.inj hx)
      rfl
    | classDef =>
      cases hc
      rw [eval, StateT.run_bind] at hx
      obtain ⟨⟨w, l₁⟩, -, hx⟩ := exists_of_bind_eq_ok hx
      obtain ⟨rfl, -⟩ := Prod.mk.inj (Except.ok.inj hx)
      rfl
    | _ => cases hc
  unfold Lowering.closingLast at hc
  split at hc
  · next x hx =>
    exact evalAll_last (P := fun x v l' => a.locals = l' → Lowering.closing x = [i] → m.step i _ = _)
      (fun h => hlast _ _ _ _ _ h) hr hx ha hc
  · cases hc

/-- A part is simulated in every frame that carries out its calls. -/
def Simulates (m : Machine) (code : List Instruction) (known : List Declaration)
    (inside : Option String) (p : Part) (n n' : Nat) : Prop :=
  ∀ {f : Frame} {room : Nat}, Ready m code known inside room f →
    ∀ (a : Activation) (outer : List Activation) (calls : List (String × Nat)),
      a.owner = f.owner → maxCallDepth - (outer.length + 1) = room →
      Simulated m known f (p.count * cost code.length room) a outer ⟨n, a :: outer, calls⟩ n n' p

/-! ### The parts one by one -/

variable {inside : Option String} {n k j n' : Nat} {pos : Pos} {x : Node} {xs : List Node}

/-- A literal, a constant or a local is one step of the machine. -/
theorem simulates_leaf {i : Instruction} (hx : x.leaf? = some i) (hi : code[n]? = some i) :
    Simulates m code (declared statements) inside (.expr x) n (n + 1) := by
  intro f room hf a outer calls howner hroom
  have hcode := getElem?_code hl hi
  have hpos := cost_pos code.length room
  rw [Part.count, Node.count_of_leaf hx, Nat.one_mul]
  -- A constant is looked up and may be missing; the other leaves push at once.
  cases x with
  | constant pos name =>
    cases hx
    simp only [Simulated, eval, ← hl.hasClass]
    by_cases hc : m.classes.contains name
    · rw [if_pos hc]
      have hstep : m.step ⟨.pushConst name, ⟨.constant, pos⟩⟩ ⟨n, a :: outer, calls⟩ =
          .next ⟨n + 1, { a with stack := .cls name :: a.stack } :: outer, calls⟩ := by
        simp only [Machine.step, hc, if_true]
        rfl
      exact .one hcode hstep rfl hpos
    · rw [if_neg hc]
      have hstep : m.step ⟨.pushConst name, ⟨.constant, pos⟩⟩ ⟨n, a :: outer, calls⟩ =
          .stop (.fault .noSuchKey) ⟨n, a :: outer, calls⟩ := by
        simp only [Machine.step, hc]
        rfl
      exact .stop hcode hstep rfl hpos
  | localRead | integer | text | nil =>
    cases hx
    simp only [Simulated, eval]
    exact .one hcode rfl rfl hpos
  | _ => cases hx

/-- A call evaluates its receiver and its arguments, and the send takes them. -/
theorem simulates_call {r : Option Node} {name : String} {args : List Node}
    (hr : Simulates m code (declared statements) inside (.receiver pos r) n k)
    (hargs : Simulates m code (declared statements) inside (.exprs args) k j)
    (hk : k = n + (Part.receiver pos r).count) (hj : j = k + (Part.exprs args).count)
    (hi : code[j]? = some ⟨.send name (some args.length), ⟨.call, pos⟩⟩) :
    Simulates m code (declared statements) inside (.expr (.call pos r name args)) n (j + 1) := by
  intro f room hf a outer calls howner hroom
  subst hk
  simp only [Simulated, eval]
  -- Receiver, arguments, send: the three costs add up to the cost of the call.
  refine Leads.mono (c := (Part.receiver pos r).count * cost code.length room +
    ((Part.exprs args).count * cost code.length room + cost code.length room))
    (leads_bind (hr hf a outer calls howner hroom) fun v locals _ calls =>
      leads_bind (hargs hf { a with stack := v :: a.stack, locals } outer calls howner hroom)
        fun vs locals' hvs calls => ?_) (Nat.le_of_eq ?_)
  · refine leads_lift ?_
    -- The send carries the number of arguments in the source, which is the number of values.
    rw [← length_evalAll hvs] at hi
    subst hj
    exact leads_send hl hf.call hf.memory hi rfl howner hroom
  · simp only [Part.count, Node.count, Nat.add_mul, Nat.one_mul, Nat.add_assoc]

/-- The machine jumps as the evaluation branches. -/
theorem simulates_conditional {condition : Node} {thenBody elseBody : Option Node}
    (hc : Simulates m code (declared statements) inside (.expr condition) n k)
    (hs : code[k]? = some ⟨.ifStart, ⟨.conditional, pos⟩⟩)
    (ht : Simulates m code (declared statements) inside (.body ⟨.conditional, pos⟩ thenBody) (k + 1) j)
    (he : code[j]? = some ⟨.ifElse, ⟨.conditional, pos⟩⟩)
    (hb : Simulates m code (declared statements) inside (.body ⟨.conditional, pos⟩ elseBody) (j + 1)
      n')
    (hd : code[n']? = some ⟨.ifEnd, ⟨.conditional, pos⟩⟩) (hlt : m.Linked k j) (hle : m.Linked j n')
    (hk : k = n + (Part.expr condition).count)
    (hj : j = k + 1 + (Part.body ⟨.conditional, pos⟩ thenBody).count) :
    Simulates m code (declared statements) inside
      (.expr (.conditional pos condition thenBody elseBody)) n (n' + 1) := by
  intro f room hf a outer calls howner hroom
  subst hk hj
  have hpos := cost_pos code.length room
  simp only [Simulated, eval]
  -- Both branches are paid for, though only one of them is run.
  refine Leads.mono (c := (Part.expr condition).count * cost code.length room +
    (1 + (((Part.body ⟨.conditional, pos⟩ thenBody).count +
      (Part.body ⟨.conditional, pos⟩ elseBody).count) * cost code.length room + 1)))
    (leads_bind (hc hf a outer calls howner hroom) fun v locals _ calls =>
      Leads.step (getElem?_code hl hs) (step_ifStart _ outer calls hlt { a with locals } v) ?_) ?_
  · by_cases hv : v.isTruthy
    · rw [if_pos hv, if_neg (isTruthy_iff.mp hv)]
      refine (leads_branch (ht hf { a with locals, ifs := a.stack.length :: a.ifs } outer calls
        howner hroom) (getElem?_code hl he) fun _ _ calls => step_ifElse _ outer calls hle).mono ?_
      simp only [Nat.add_mul]
      omega
    · rw [if_neg hv, if_pos (not_not.mp fun h => hv (isTruthy_iff.mpr h))]
      refine (leads_branch (hb hf { a with locals, ifs := a.stack.length :: a.ifs } outer calls
        howner hroom) (getElem?_code hl hd) fun _ _ calls => step_ifEnd _ outer calls).mono ?_
      simp only [Nat.add_mul]
      omega
  · simp only [Part.count, Node.count, Nat.add_mul, Nat.one_mul]
    omega

/-- An assignment takes the value off the stack. -/
theorem simulates_assign {name : String} {value : Node}
    (hv : Simulates m code (declared statements) inside (.expr value) n k)
    (hi : code[k]? = some ⟨.setVar name, ⟨.assignment, pos⟩⟩) :
    Simulates m code (declared statements) inside (.statement (.assign pos name value)) n
      (k + 1) := by
  intro f room hf a outer calls howner hroom
  simp only [Simulated, eval]
  have hpos := cost_pos code.length room
  -- The value, and one step that takes it.
  refine Leads.mono (c := (Part.expr value).count * cost code.length room + 1)
    (leads_bind (hv hf a outer calls howner hroom) fun v locals _ calls => ?_) ?_
  · have hcode := getElem?_code hl hi
    exact .one hcode rfl rfl Nat.one_pos
  · simp only [Part.count, Node.count, Nat.add_mul, Nat.one_mul]
    omega

/-- The machine jumps over the definition of a method. -/
theorem simulates_methodDef {name : String} {params : List Param} {body : Option Node}
    (hs : code[n]? = some ⟨.defStart name, ⟨.methodDef, pos⟩⟩) (hlink : m.Linked n j) :
    Simulates m code (declared statements) inside (.statement (.methodDef pos name params body)) n
      (j + 1) := by
  intro f room hf a outer calls howner hroom
  have hpos := cost_pos code.length room
  simp only [Simulated, eval]
  refine .one (getElem?_code hl hs) (step_defStart _ outer calls hlink a name) rfl ?_
  exact Nat.mul_pos (by simp only [Part.count, Node.count]; omega) hpos

/-- The body of a class runs in a frame of its own, with one frame less. -/
theorem simulates_classDef {name : String} {start : Pos}
    (hs : code[n]? = some ⟨.classStart name, ⟨.classDef, pos⟩⟩)
    (hb : Simulates m code (declared statements) (some name) (.statements xs) (n + 1) j)
    (he : code[j]? = some ⟨.classEnd name, ⟨.classDef, pos⟩⟩) :
    Simulates m code (declared statements) none
      (.statement (.classDef pos name (.block start xs))) n (j + 1) := by
  intro f room hf a outer calls howner hroom
  have hstart : m.step ⟨.classStart name, ⟨.classDef, pos⟩⟩ ⟨n, a :: outer, calls⟩ =
      .next ⟨n + 1, .fresh [] none (some name) :: a :: outer, calls⟩ := by
    simp only [Machine.step, hl.entered hs, if_true]
    rfl
  have hbody := @hb { f with owner := some name, call := f.classCall } (room - 1)
    ⟨hf.memory, hf.classCall rfl, fun h => by cases h⟩ (.fresh [] none (some name)) (a :: outer) calls rfl
    (by rw [List.length_cons]; omega)
  have heval : (eval (declared statements) f n (.classDef pos name (.block start xs))).run a.locals =
      ((evalAll (declared statements) { f with owner := some name, call := f.classCall } (n + 1)
        xs).run .empty).map fun _ => (.nil, a.locals) := by
    simp only [eval, inNewFrame, StateT.run'_eq, StateT.run_bind]
    cases (evalAll (declared statements) { f with owner := some name, call := f.classCall } (n + 1)
      xs).run .empty <;> rfl
  simp only [Simulated] at hbody ⊢
  rw [heval]
  -- One frame less costs no more.
  have hmono := Nat.mul_le_mul_left (Node.countAll xs) (cost_mono code.length room)
  have hpos := cost_pos code.length room
  refine Leads.mono (c := 1 + (Node.countAll xs * cost code.length (room - 1) + 1))
    (Leads.step (getElem?_code hl hs) hstart ?_) ?_
  · cases hr : (evalAll (declared statements) { f with owner := some name, call := f.classCall }
      (n + 1) xs).run .empty with
    | error e =>
      have herror : m.Leads _ _ _ := hbody
      rw [show (Activation.fresh [] none (some name)).locals = .empty from rfl, hr] at herror
      exact herror.mono (Nat.le_succ _)
    | ok r =>
      have hok : m.Leads _ _ _ := hbody
      rw [show (Activation.fresh [] none (some name)).locals = .empty from rfl, hr] at hok
      exact hok.trans fun calls => .one (getElem?_code hl he) rfl rfl Nat.one_pos
  · simp only [Part.count, Node.count, Nat.add_mul, Nat.one_mul]
    omega

omit hl in
/-- One more argument is pushed above the ones before. -/
theorem simulates_moreExprs
    (hx : Simulates m code (declared statements) inside (.expr x) n k)
    (hxs : Simulates m code (declared statements) inside (.exprs xs) k n')
    (hk : k = n + (Part.expr x).count) :
    Simulates m code (declared statements) inside (.exprs (x :: xs)) n n' := by
  intro f room hf a outer calls howner hroom
  subst hk
  simp only [Simulated, evalAll]
  refine Leads.mono (c := (Part.expr x).count * cost code.length room +
    ((Part.exprs xs).count * cost code.length room + 0))
    (leads_bind (hx hf a outer calls howner hroom) fun v locals _ calls =>
      leads_bind (hxs hf { a with stack := v :: a.stack, locals } outer calls howner hroom)
        fun vs locals' _ calls => ?_) (Nat.le_of_eq ?_)
  -- The values come off a reversed list, so the new one lies below the rest.
  · have hstack : (v :: vs).reverse ++ a.stack = vs.reverse ++ v :: a.stack := by simp
    change m.Leads 0 _ (.ok (n', { a with
      stack := (v :: vs).reverse ++ a.stack
      locals := locals' } :: outer))
    rw [hstack]
    exact .refl m _
  · simp only [Part.count, Node.countAll, Nat.add_mul, Nat.add_zero]

omit hl in
/-- One more statement pushes its value if it leaves one. -/
theorem simulates_moreStatements
    (hx : Simulates m code (declared statements) inside (.statement x) n k)
    (hxs : Simulates m code (declared statements) inside (.statements xs) k n')
    (hk : k = n + (Part.statement x).count) :
    Simulates m code (declared statements) inside (.statements (x :: xs)) n n' := by
  intro f room hf a outer calls howner hroom
  subst hk
  simp only [Simulated, evalAll]
  refine Leads.mono (c := (Part.statement x).count * cost code.length room +
    ((Part.statements xs).count * cost code.length room + 0))
    (leads_bind (hx hf a outer calls howner hroom) fun v locals _ calls =>
      leads_bind (hxs hf { a with stack := if leaves x then v :: a.stack else a.stack, locals }
        outer calls howner hroom) fun vs locals' _ calls => ?_) (Nat.le_of_eq ?_)
  -- A statement that leaves nothing is not on the stack, nor among the values left.
  · have hstack : (left (x :: xs) (v :: vs)).reverse ++ a.stack =
        (left xs vs).reverse ++ if leaves x then v :: a.stack else a.stack := by
      rw [left_cons]
      split <;> simp
    change m.Leads 0 _ (.ok (n', { a with
      stack := (left (x :: xs) (v :: vs)).reverse ++ a.stack
      locals := locals' } :: outer))
    rw [hstack]
    exact .refl m _
  · simp only [Part.count, Node.countAll, Nat.add_mul, Nat.add_zero]

/-- A body without statements is one instruction that pushes nil. -/
theorem simulates_blank {owner : Origin} {b : Option Node} {o : Origin}
    (hb : b = none ∨ ∃ pos, b = some (.block pos [])) (hi : code[n]? = some ⟨.pushNil, o⟩) :
    Simulates m code (declared statements) inside (.body owner b) n (n + 1) := by
  intro f room hf a outer calls howner hroom
  have hcode := getElem?_code hl hi
  have hpos := cost_pos code.length room
  refine ⟨[], ?_⟩
  obtain rfl | ⟨pos, rfl⟩ := hb <;>
  · simp only [Part.count, Node.countBody, Nat.one_mul]
    exact .one hcode rfl rfl hpos

omit hl in
/-- The last statement leaves the value of the body, above what the others have left. -/
theorem simulates_left {owner : Origin} (hne : xs ≠ [])
    (hxs : Simulates m code (declared statements) inside (.statements xs) n n')
    (hc : Lowering.closingLast xs = []) :
    Simulates m code (declared statements) inside (.body owner (some (.block pos xs))) n n' := by
  intro f room hf a outer calls howner hroom
  have h := hxs hf a outer calls howner hroom
  have hlast := List.getLast?_eq_some_getLast hne
  -- Only behind a statement that leaves its value is nothing pushed.
  have hleaves : leaves (xs.getLast hne) := by
    simp only [Lowering.closingLast, hlast] at hc
    revert hc
    cases xs.getLast hne <;> first | exact fun _ => rfl | exact fun hc => by cases hc
  have hcount : (Part.body owner (some (.block pos xs))).count = (Part.statements xs).count := by
    obtain ⟨x, xs, rfl⟩ := List.exists_cons_of_ne_nil hne
    simp only [Part.count, Node.countBody, hc, List.length_nil, Nat.add_zero, Node.countAll]
  rw [hcount]
  simp only [Simulated, evalBody_block, StateT.run_bind] at h ⊢
  cases hr : (evalAll (declared statements) f n xs).run a.locals with
  | error e =>
    rw [hr] at h
    exact ⟨[], h⟩
  | ok r =>
    rw [hr] at h
    obtain ⟨vs, l⟩ := r
    obtain ⟨ws, hws⟩ := left_of_leaves (length_evalAll hr) hlast hleaves
    refine ⟨ws.reverse, ?_⟩
    change m.Leads _ _ (.ok (n', { a with
      stack := (left xs vs).reverse ++ a.stack, locals := l } :: outer)) at h
    rw [hws, List.reverse_append] at h
    exact h

/-- The value of the body is pushed behind it, above all that its statements have left. -/
theorem simulates_closed {owner : Origin} {i : Instruction}
    (hxs : Simulates m code (declared statements) inside (.statements xs) n k)
    (hc : Lowering.closingLast xs = [i]) (hi : code[k]? = some i) :
    Simulates m code (declared statements) inside (.body owner (some (.block pos xs))) n
      (k + 1) := by
  intro f room hf a outer calls howner hroom
  have h := hxs hf a outer calls howner hroom
  have hpos := cost_pos code.length room
  -- The closing record counts as one more node of the body.
  have hcount : (Part.body owner (some (.block pos xs))).count = (Part.statements xs).count + 1 := by
    cases xs with
    | nil => cases hc
    | cons => simp only [Part.count, Node.countBody, hc, List.length_cons, List.length_nil,
        Node.countAll]
  rw [hcount, Nat.add_mul, Nat.one_mul]
  simp only [Simulated, evalBody_block, StateT.run_bind] at h ⊢
  -- A failure inside the statements is a failure of the body, before its closing record.
  cases hr : (evalAll (declared statements) f n xs).run a.locals with
  | error e =>
    rw [hr] at h
    exact ⟨[], h.mono (Nat.le_add_right _ _)⟩
  | ok r =>
    rw [hr] at h
    obtain ⟨vs, l⟩ := r
    refine ⟨(left xs vs).reverse, h.trans fun calls => ?_⟩
    exact .one (getElem?_code hl hi)
      (step_closing hc hr k { a with stack := _, locals := l } outer calls rfl) rfl hpos

/-- **Every part is simulated** in a frame that carries out its calls. -/
theorem simulates {p : Part} (h : Layout code m.Linked inside p n n') :
    Simulates m code (declared statements) inside p n n' := by
  -- On the layout: each constructor is one of the lemmas above.
  induction h with
  | leaf hx hi => exact simulates_leaf hl hx hi
  | call hr hargs hi ihr ihargs =>
    exact simulates_call hl ihr ihargs hr.eq_add_count hargs.eq_add_count hi
  | conditional hc hs ht he _ hd hlt hle ihc iht ihb =>
    exact simulates_conditional hl ihc hs iht he ihb hd hlt hle hc.eq_add_count ht.eq_add_count
  | absent hi =>
    intro f room hf a outer calls howner hroom
    have hpos := cost_pos code.length room
    simp only [Simulated, Part.count, Node.countReceiver, Nat.one_mul]
    have hcode := getElem?_code hl hi
    exact .one hcode rfl rfl hpos
  | present _ ih =>
    intro f room hf a outer calls howner hroom
    exact ih hf a outer calls howner hroom
  | noExprs | noStatements =>
    intro f room hf a outer calls howner hroom
    exact (Leads.refl m _).mono (Nat.zero_le _)
  | moreExprs hx _ ihx ihxs => exact simulates_moreExprs ihx ihxs hx.eq_add_count
  | expression hx ih =>
    intro f room hf a outer calls howner hroom
    have h := ih hf a outer calls howner hroom
    simp only [Simulated, leaves_of_layout hx, if_true] at h ⊢
    exact h
  | assign _ hi ih => exact simulates_assign hl ih hi
  | methodDef hs _ _ _ _ hlink => exact simulates_methodDef hl hs hlink
  | classDef hs _ he _ ih => exact simulates_classDef hl hs ih he
  | moreStatements hx _ ihx ihxs => exact simulates_moreStatements ihx ihxs hx.eq_add_count
  | missing hi => exact simulates_blank hl (.inl rfl) hi
  | empty hi => exact simulates_blank hl (.inr ⟨_, rfl⟩) hi
  | left hne _ hc ih => exact simulates_left hne ih hc
  | closed _ hc hi ih => exact simulates_closed hl ih hc hi

/-! ### Calls -/

omit hl in
/-- The arguments of a call are bound to the parameters of its method. -/
theorem leads_params {args : List Value} (outer : List Activation) (hc : m.code = code.toArray) :
    ∀ {params : List Param} {n : Nat} (a : Activation) (calls : List (String × Nat)),
      ParamsAt code n params → a.args = args →
      m.Leads (2 * params.length) ⟨n, a :: outer, calls⟩
        (((bindParams args params).run a.locals).map fun r =>
          (n + 2 * params.length, { a with locals := r.2 } :: outer)) := by
  have getElem : ∀ {n : Nat} {i : Instruction}, code[n]? = some i → m.code[n]? = some i := by
    intro n i h
    rw [hc, List.getElem?_toArray, h]
  intro params
  -- On the parameters, each a push of the argument and an assignment.
  induction params with
  | nil => exact fun _ _ _ _ => .refl m _
  | cons p rest ih =>
    intro n a calls h hargs
    subst hargs
    rw [bindParams]
    -- An argument that was not passed stops both the machine and the evaluation.
    cases hv : elementAt? a.args p.index with
    | none =>
      have hstep : m.step ⟨.pushArg p.index, p.origin⟩ ⟨n, a :: outer, calls⟩ =
          .stop (.fault .noSuchElement) ⟨n, a :: outer, calls⟩ := by
        simp only [Machine.step, hv]
      exact .stop (getElem h.head) hstep rfl (by rw [List.length_cons]; omega)
    | some v =>
      have hpush : m.step ⟨.pushArg p.index, p.origin⟩ ⟨n, a :: outer, calls⟩ =
          .next ⟨n + 1, { a with stack := v :: a.stack } :: outer, calls⟩ := by
        simp only [Machine.step, hv]
        rfl
      have hrest := ih { a with locals := a.locals.set p.name v } calls h.tail.tail rfl
      have hall := Leads.step (getElem h.head) hpush (.step (getElem h.tail.head) rfl hrest)
      have hlen : n + 2 * (p :: rest).length = n + 1 + 1 + 2 * rest.length := by
        rw [List.length_cons]
        omega
      rw [hlen]
      exact hall.mono (by rw [List.length_cons]; omega)

/-- **Calls are carried out** as the machine does, however many frames are left. -/
theorem carries_callers (room : Nat) :
    Carries m code (declared statements) room (callers m.memory (declared statements) room).1 ∧
      Carries m code (declared statements) (room - 1)
        (callers m.memory (declared statements) room).2 := by
  have refuses : ∀ call : Caller,
      (∀ record pos d owner args, call record pos d owner args =
        .error (.failed ⟨.stackTooDeep, record, pos⟩)) →
      Carries m code (declared statements) 0 call := by
    intro call hcall record pos name d owner args a outer calls receiver stack hd hi hstack hreact
      hroom
    have hstep := step_send m record pos name outer calls hstack
    rw [hreact] at hstep
    have hdeep : maxCallDepth ≤ outer.length + 1 := Nat.sub_eq_zero_iff_le.mp hroom
    simp only [if_pos hdeep] at hstep
    rw [hcall]
    exact .stop (getElem?_code hl hi) hstep rfl Nat.one_pos
  -- Without a frame left, calls are refused from a body of a class as from anywhere else.
  induction room with
  | zero => exact ⟨refuses _ fun _ _ _ _ _ => rfl, refuses _ fun _ _ _ _ _ => rfl⟩
  | succ room ih =>
    refine ⟨?_, ih.1⟩
    intro record pos name d owner args a outer calls receiver stack hd hi hstack hreact hroom
    have hstep := step_send m record pos name outer calls hstack
    rw [hreact] at hstep
    have hdeep : ¬ maxCallDepth ≤ outer.length + 1 := by omega
    simp only [if_neg hdeep] at hstep
    obtain ⟨dpos, j, -, hj, hlaid⟩ := hl.layout.laidOut hd
    have hcount := hlaid.body.eq_add_count
    -- What the body calls is carried out by induction, with one frame less.
    have hready : Ready m code (declared statements) d.owner room
        (frame m.memory (declared statements) room owner) := ⟨rfl, ih.1, fun _ => ih.2⟩
    have hbody := fun l calls => simulates hl hlaid.body hready
      { Activation.fresh args (some record) owner with locals := l } ({ a with stack } :: outer)
      calls rfl (by rw [List.length_cons]; omega)
    have hparams := fun calls => leads_params ({ a with stack } :: outer) hl.code_eq
      (.fresh args (some record) owner) calls hlaid.params rfl
    have hpos := cost_pos code.length room
    simp only [callers, map_inNewFrame]
    refine Leads.mono (c := 1 + (2 * d.params.length +
      ((Part.body ⟨.methodDef, dpos⟩ d.body).count * cost code.length room + 1)))
      (Leads.step (getElem?_code hl hi) hstep (leads_bind (hparams _) fun _ l _ calls => ?_)) ?_
    · obtain ⟨junk, h⟩ := hbody l calls
      exact leads_then h fun r _ calls => .one (getElem?_code hl hlaid.closer) rfl rfl Nat.one_pos
    · -- The method takes no more instructions than the code has.
      have hle : 2 * d.params.length + (Part.body ⟨.methodDef, dpos⟩ d.body).count + 1 ≤
          code.length := by omega
      have hmul := Nat.mul_le_mul_right (cost code.length room) hle
      have hparam := Nat.le_mul_of_pos_right (2 * d.params.length) hpos
      simp only [Nat.add_mul, Nat.one_mul] at hmul
      rw [cost]
      omega

end Program

end Direct

end Rubylet
