import Rubylet.Proofs.Safety.Run

/-!
# Operand stacks and the replay

The machine and the replay move their stacks by the same discipline, each in its own way: the replay
goes through every instruction once, the machine passes over branches and definitions and comes
back to a method for every call. `machine_mirrors_replay` says that they agree all the same. Where
the machine is about to execute an instruction, the running activation has as many operands as the
replay has records there, and its open conditionals are those that the replay has opened in the
same frame.

An activation finds all it asks for then (`Supplied`): operands to pop, a value above the base of a
branch, a closer to jump to, a caller to go back to.

Unlike the types in `Rubylet.Proofs.Safety.Run`, this asks nothing of the locals of a program. What
a local is bound to can make a run stop, but it cannot make the stacks diverge.
-/

namespace Rubylet

open Replay Machine

/-- The conditionals that are open at a point and were opened in its own frame. -/
def Replay.openIn (code : List Instruction) (n : Nat) : List OpenIf :=
  (stateAt code n).ifs.filter fun o => frameOf code o.opened = frameOf code n

/-- An activation that stands at a point is level with the replay: it has a number of operands, its
conditionals start from where those of the frame do, and it belongs to the class that is open. -/
structure ActivationLevel (code : List Instruction) (n height : Nat) (a : Activation) : Prop where
  operands : a.stack.length = height
  ifs : a.ifs = (openIn code n).map OpenIf.height
  owner : a.owner = (stateAt code n).currentClass

/-- Activations are level with the replay, the innermost one at a point and with a number of
operands. Each of the others stands where the one above it was started. -/
inductive FramesLevel (code : List Instruction) : Nat → Nat → List Activation → Prop
  | main {n height a} : frameOf code n = none → ActivationLevel code n height a →
      FramesLevel code n height [a]
  /-- A method stands above its call, whose record is still to come. -/
  | method {n height a outer d i name r call callee count below} : frameOf code n = some d →
      code[d]? = some i → i.op = .defStart name → ActivationLevel code n height a →
      a.returnTo = some r → code[r]? = some call → call.op = .send callee count →
      (stateAt code (r + 1)).stack = r :: below → FramesLevel code r below.length outer →
      FramesLevel code n height (a :: outer)
  /-- The body of a class stands above its opener. -/
  | cls {n height a outer c i name} : frameOf code n = some c → code[c]? = some i →
      i.op = .classStart name → ActivationLevel code n height a →
      FramesLevel code c (stateAt code c).stack.length outer →
      FramesLevel code n height (a :: outer)

/-- A state of the machine is level with the replay. -/
structure StateLevel (code : List Instruction) (s : Machine.State) : Prop where
  next_le : s.next ≤ code.length
  frames : FramesLevel code s.next (stateAt code s.next).stack.length s.frames

/-- The running activation has what an operation asks for: operands, a value above the base of a
branch, somewhere to jump to or to go back to, a class. -/
def Machine.Supplied (m : Machine) (n : Nat) (a : Activation) (outer : List Activation) :
    Operation → Prop
  | .setVar _ => 0 < a.stack.length
  | op@(.send _ _) => op.argCount < a.stack.length
  | .pushConst name | .classStart name => m.classes.contains name
  | .defStart _ => (m.jumps.get? n).isSome
  | .defEnd _ => 0 < a.stack.length ∧ outer ≠ [] ∧ a.returnTo.isSome
  | .classEnd _ => outer ≠ []
  | .ifStart => 0 < a.stack.length ∧ (m.jumps.get? n).isSome
  | .ifElse => (∃ base ∈ a.ifs.head?, base < a.stack.length) ∧ (m.jumps.get? n).isSome
  | .ifEnd => ∃ base ∈ a.ifs.head?, base < a.stack.length
  | _ => True

/-! ### Conditionals of a frame -/

section OpenIn

variable {code : List Instruction} {n n' k : Nat} {i : Instruction} {e : Event}

/-- Where neither the conditionals nor the frame change, the conditionals of the frame do not. -/
theorem openIn_congr (hifs : (stateAt code n').ifs = (stateAt code n).ifs)
    (hframe : frameOf code n' = frameOf code n) : openIn code n' = openIn code n := by
  rw [openIn, openIn, hifs, hframe]

/-- A stretch closes the conditionals it opens. -/
theorem Replay.Replays.openIn_eq {left : List Nat} (h : Replays code n n' left) :
    openIn code n' = openIn code n :=
  openIn_congr (by rw [h.state_eq]) (frameOf_eq h.openers_eq)

/-- A conditional begins in the frame of its opener. -/
theorem Replay.Occurs.openIn_ifStart (h : Occurs code n i e) (hop : i.op = .ifStart) :
    openIn code (n + 1) =
      ⟨n, (stateAt code n).stack.tail.length⟩ :: openIn code n := by
  have hframe : frameOf code (n + 1) = frameOf code n :=
    frameOf_eq (by rw [openers_succ h.1, hop])
  have hifs : (stateAt code (n + 1)).ifs =
      ⟨n, (stateAt code n).stack.tail.length⟩ :: (stateAt code n).ifs := by
    rw [h.state_succ, hop, State.effect]
  rw [openIn, hifs, hframe, List.filter_cons_of_pos (by simp), openIn]

/-- In a frame that has just been opened, no conditional is open: all of them are older than it. -/
theorem Replay.Occurs.openIn_opened (hr : (trace code).error? = none) (h : Occurs code n i e)
    (hframe : frameOf code (n + 1) = some n)
    (hifs : (stateAt code (n + 1)).ifs = (stateAt code n).ifs) : openIn code (n + 1) = [] := by
  refine List.filter_eq_nil_iff.mpr fun o ho => ?_
  rw [hifs] at ho
  have hlt : o.opened < n := ((opened_stateAt hr n (Nat.le_of_lt h.lt)).ifs o ho).1
  simp only [decide_eq_true_eq, hframe]
  intro hsame
  have hopener : n < o.opened := openers_lt o.opened n (List.mem_of_mem_head? hsame)
  omega

/-- At the end of a branch, its conditional is the innermost one of the frame. -/
theorem Branch.openIn_eq {start opener value : Nat} (hr : (trace code).error? = none)
    (h : Branch code start opener n value) :
    openIn code n = ⟨opener, (stateAt code start).stack.length⟩ :: openIn code start := by
  obtain ⟨rest, hstate⟩ := h.state_eq hr
  -- The branch lies in the frame of its condition, so the conditional is among those open there.
  have hframe : frameOf code n = frameOf code start := frameOf_eq h.openers_eq
  have hopener : frameOf code opener = frameOf code start := by
    obtain ⟨c, hc⟩ := h.condition
    exact frameOf_eq hc.openers_eq
  have hifs : (stateAt code n).ifs =
      ⟨opener, (stateAt code start).stack.length⟩ :: (stateAt code start).ifs := by
    rw [hstate]
  rw [openIn, hifs, hframe, List.filter_cons_of_pos (by simp [hopener]), openIn]

end OpenIn

/-! ### Moving on -/

section Moving

variable {code : List Instruction} {n n' height height' : Nat} {i : Instruction} {e : Event}
  {a a' : Activation} {outer frames : List Activation} {stack : List Value}
  {l : List (String × Nat)}

theorem FramesLevel.activation (h : FramesLevel code n height (a :: outer)) :
    ActivationLevel code n height a := by
  cases h with
  | main _ ha => exact ha
  | method _ _ _ ha => exact ha
  | cls _ _ _ ha => exact ha

theorem FramesLevel.exists_cons (h : FramesLevel code n height frames) :
    ∃ a outer, frames = a :: outer := by
  cases h <;> exact ⟨_, _, rfl⟩

/-- The innermost activation may change and move on in its frame. -/
theorem FramesLevel.move (h : FramesLevel code n height (a :: outer))
    (hframe : frameOf code n' = frameOf code n) (ha : ActivationLevel code n' height' a')
    (hret : a'.returnTo = a.returnTo) : FramesLevel code n' height' (a' :: outer) := by
  cases h with
  | main hn _ => exact .main (hframe.trans hn) ha
  | method hn hi ho _ hr hcall hsend hbelow hrest =>
    exact .method (hframe.trans hn) hi ho ha (hret.trans hr) hcall hsend hbelow hrest
  | cls hn hi ho _ hrest => exact .cls (hframe.trans hn) hi ho ha hrest

/-- An activation that moves on, with other operands. -/
theorem ActivationLevel.move (h : ActivationLevel code n height a)
    (hopen : openIn code n' = openIn code n)
    (hcls : (stateAt code n').classes = (stateAt code n).classes)
    (hstack : stack.length = height') : ActivationLevel code n' height' { a with stack } where
  operands := hstack
  ifs := by rw [hopen]; exact h.ifs
  owner := by rw [State.currentClass, hcls]; exact h.owner

/-- The next instruction comes next, and finds some operands. -/
theorem FramesLevel.advance (h : FramesLevel code n height (a :: outer)) (ho : Occurs code n i e)
    (hop : openers code (n + 1) = openers code n)
    (hcls : (stateAt code (n + 1)).classes = (stateAt code n).classes)
    (hifs : (stateAt code (n + 1)).ifs = (stateAt code n).ifs)
    (hstack : stack.length = (stateAt code (n + 1)).stack.length) :
    StateLevel code ⟨n + 1, { a with stack } :: outer, l⟩ :=
  ⟨ho.lt, h.move (frameOf_eq hop)
    (h.activation.move (openIn_congr hifs (frameOf_eq hop)) hcls hstack) rfl⟩

/-- A value is pushed for the record. -/
theorem FramesLevel.push {v : Value} (h : FramesLevel code n (stateAt code n).stack.length (a :: outer))
    (ho : Occurs code n i e) (hs : stateAt code (n + 1) = (stateAt code n).push n)
    (hop : openers code (n + 1) = openers code n) :
    StateLevel code ⟨n + 1, { a with stack := v :: a.stack } :: outer, l⟩ := by
  refine h.advance ho hop (by rw [hs]; rfl) (by rw [hs]; rfl) ?_
  rw [hs, List.length_cons, h.activation.operands]
  rfl

end Moving

/-! ### Steps -/

section Steps

variable {code : List Instruction} {g : Graph} {m : Machine} {statements : List Node}
  {n : Nat} {i : Instruction} {e : Event} {a : Activation} {outer : List Activation}
  {l : List (String × Nat)} {name : String}

/-- An assignment takes one value off both stacks. -/
theorem level_setVar (h : FramesLevel code n (stateAt code n).stack.length (a :: outer))
    (ho : Occurs code n i e) (hop : i.op = .setVar name) :
    ∃ v rest, a.stack = v :: rest ∧
      StateLevel code ⟨n + 1, { a with stack := rest, locals := a.locals.set name v } :: outer, l⟩ := by
  obtain ⟨r, below, hstack, -, hs⟩ := ho.setVar hop
  -- The stacks have the same height, so where the replay takes a record the machine has a value.
  have hlen := h.activation.operands
  rw [hstack, List.length_cons] at hlen
  obtain ⟨v, rest, hvs⟩ := List.exists_cons_of_length_eq_add_one hlen
  rw [hvs, List.length_cons, Nat.add_right_cancel_iff] at hlen
  have hopeners : openers code (n + 1) = openers code n := by rw [openers_succ ho.1, hop]
  refine ⟨v, rest, hvs, ho.lt, h.move (frameOf_eq hopeners) ?_ rfl⟩
  -- The local is of no concern to the levels.
  have hmoved : ActivationLevel code (n + 1) below.length { a with stack := rest } :=
    h.activation.move (openIn_congr (by rw [hs]) (frameOf_eq hopeners)) (by rw [hs]) hlen
  rw [hs]
  exact ⟨hmoved.operands, hmoved.ifs, hmoved.owner⟩

/-- A branch that has ended has a value above its base, and keeps nothing else. -/
theorem level_branch {start opener r n' : Nat} (hr : (trace code).error? = none)
    (h : FramesLevel code n (stateAt code n).stack.length (a :: outer)) (hb : Branch code start opener n r)
    (hj : Joined code start opener n') (hle : n' ≤ code.length) :
    ∃ base a', a.ifs.head? = some base ∧ base < a.stack.length ∧ closeBranch a = .ok a' ∧
      StateLevel code ⟨n', a' :: outer, l⟩ := by
  obtain ⟨rest, hstate⟩ := hb.state_eq hr
  have hlen := h.activation.operands
  have hifs := h.activation.ifs
  rw [hstate, List.length_cons, List.length_append] at hlen
  rw [hb.openIn_eq hr, List.map_cons] at hifs
  -- The value of the branch stands above all operands that were there before.
  have hlt : (stateAt code start).stack.length < a.stack.length := by omega
  refine ⟨_, { a with
      stack := a.stack.headD .nil :: OperandStack.truncate (stateAt code start).stack.length a.stack
      ifs := (openIn code start).map OpenIf.height }, by rw [hifs]; rfl, hlt, ?_, hle, ?_⟩
  · simp only [closeBranch, hifs, if_pos hlt]
  · rw [hj.replays.state_eq]
    refine h.move (frameOf_eq (hj.replays.openers_eq.trans hb.openers_eq.symm)) ⟨?_, ?_, ?_⟩ rfl
    · simp only [List.length_cons, OperandStack.length_truncate, List.singleton_append]
      omega
    · rw [hj.replays.openIn_eq]
    · have howner := h.activation.owner
      rw [hstate] at howner
      rw [hj.replays.state_eq]
      exact howner

variable (b : g.Built code) (hl : Loaded m code statements)

include b hl

theorem Loaded.role (ho : Occurs code n i e) : Role code m.Linked n i.op :=
  hl.layout.roles b.replayed n i (Nat.zero_le n) ho.lt ho.1

variable (h : FramesLevel code n (stateAt code n).stack.length (a :: outer))
  (ho : Occurs code n i e)

include h ho

/-- A conditional takes its condition, whichever branch is run. -/
theorem level_ifStart (hop : i.op = .ifStart) :
    ∃ v rest j, a.stack = v :: rest ∧ m.jumps.get? n = some j ∧
      StateLevel code
        ⟨n + 1, { a with stack := rest, ifs := rest.length :: a.ifs } :: outer, l⟩ ∧
      StateLevel code
        ⟨j + 1, { a with stack := rest, ifs := rest.length :: a.ifs } :: outer, l⟩ := by
  have hrole := hl.role b ho
  rw [hop] at hrole
  obtain ⟨j, hlink, hlt, hj, hreplays⟩ := hrole
  obtain ⟨r, below, hstack, -, hs⟩ := ho.ifStart hop
  have hlen := h.activation.operands
  rw [hstack, List.length_cons] at hlen
  obtain ⟨v, rest, hvs⟩ := List.exists_cons_of_length_eq_add_one hlen
  rw [hvs, List.length_cons, Nat.add_right_cancel_iff] at hlen
  have hopeners : openers code (n + 1) = openers code n := by rw [openers_succ ho.1, hop]
  -- The height noted is the one of the stack below the condition, on both sides.
  have hbegun : ActivationLevel code (n + 1) below.length
      { a with stack := rest, ifs := rest.length :: a.ifs } := by
    refine ⟨hlen, ?_, ?_⟩
    · rw [ho.openIn_ifStart hop, hstack, List.tail_cons, List.map_cons, ← h.activation.ifs, hlen]
    · rw [hs]
      exact h.activation.owner
  refine ⟨v, rest, j, hvs, hlink, ⟨ho.lt, ?_⟩, ⟨hj, ?_⟩⟩
  · rw [hs]
    exact h.move (frameOf_eq hopeners) hbegun rfl
  · -- The branch that is passed over leaves nothing.
    rw [hreplays.state_eq, hs]
    refine h.move ((frameOf_eq hreplays.openers_eq).trans (frameOf_eq hopeners)) ?_ rfl
    exact hbegun.move hreplays.openIn_eq (by rw [hreplays.state_eq]) hlen

/-- A definition is passed over, with nil for the value of its body. -/
theorem level_defStart (hop : i.op = .defStart name) :
    ∃ j, m.jumps.get? n = some j ∧
      StateLevel code ⟨j + 1, { a with stack := .nil :: a.stack } :: outer, l⟩ := by
  have hrole := hl.role b ho
  rw [hop] at hrole
  obtain ⟨j, r, hlink, hlt, hj, hreplays, -⟩ := hrole
  -- The body is passed over, and what is left of it is the definition.
  refine ⟨j, hlink, hj, ?_⟩
  rw [hreplays.state_eq]
  refine h.move (frameOf_eq hreplays.openers_eq) ?_ rfl
  refine h.activation.move hreplays.openIn_eq (by rw [hreplays.state_eq]) ?_
  rw [List.length_cons, h.activation.operands]
  rfl

/-- A method returns with a value to its call. -/
theorem level_defEnd (hop : i.op = .defEnd name) :
    ∃ r caller rest, 0 < a.stack.length ∧ a.returnTo = some r ∧ outer = caller :: rest ∧
      StateLevel code
        ⟨r + 1, { caller with stack := a.stack.headD .nil :: caller.stack } :: rest, l⟩ := by
  have hrole := hl.role b ho
  rw [hop] at hrole
  obtain ⟨d, j, -, dname, value, hcloses, hj, hjop, -, -⟩ := hrole
  have hframe : frameOf code n = some d := by rw [frameOf, hcloses.openers_eq]; rfl
  obtain ⟨_, _, v, below, -, hstack, -, -⟩ := ho.defEnd hop
  have hpos : 0 < a.stack.length := by
    rw [h.activation.operands, hstack]
    exact Nat.succ_pos _
  cases h with
  | main hmain _ => rw [hframe] at hmain; cases hmain
  | cls hcls hi hclass _ _ =>
    -- The frame was opened by a definition, not by a class.
    obtain rfl := Option.some.inj (hframe.symm.trans hcls)
    obtain rfl := Option.some.inj (hj.symm.trans hi)
    rw [hjop] at hclass
    cases hclass
  | @method _ _ _ _ _ _ _ r call callee count below hmethod hi hdef ha hret hcall hsend hbelow hrest =>
    obtain ⟨caller, rest, rfl⟩ := hrest.exists_cons
    obtain ⟨f, hf⟩ := b.occurs hcall
    obtain ⟨_, _, _, -, -, -, hs⟩ := hf.send hsend
    have hopeners : openers code (r + 1) = openers code r := by rw [openers_succ hcall, hsend]
    refine ⟨r, caller, rest, hpos, hret, rfl, hf.lt, ?_⟩
    rw [hbelow]
    refine hrest.move (frameOf_eq hopeners) ?_ rfl
    refine hrest.activation.move (openIn_congr (by rw [hs]) (frameOf_eq hopeners)) (by rw [hs]) ?_
    rw [List.length_cons, List.length_cons, hrest.activation.operands]

/-- The body of a class runs in an activation of its own. -/
theorem level_classStart (hop : i.op = .classStart name) :
    m.classes.contains name ∧
      StateLevel code ⟨n + 1, .fresh [] none (some name) :: a :: outer, l⟩ := by
  obtain ⟨op, origin⟩ := i
  obtain rfl : op = .classStart name := hop
  obtain ⟨-, -, hs⟩ := ho.classStart rfl
  have hframe : frameOf code (n + 1) = some n := by rw [frameOf, openers_succ ho.1]; rfl
  -- The loader has entered every class that the code opens.
  refine ⟨hl.entered ho.1, ho.lt, .cls hframe ho.1 rfl ⟨?_, ?_, ?_⟩ h⟩
  · rw [hs]
    rfl
  · rw [ho.openIn_opened b.replayed hframe (by rw [hs]; rfl)]
    rfl
  · rw [hs]
    rfl

/-- At the end of a class there is a frame to go back to. -/
theorem level_classEnd (hop : i.op = .classEnd name) :
    outer ≠ [] ∧ StateLevel code ⟨n + 1, outer, l⟩ := by
  have hrole := hl.role b ho
  rw [hop] at hrole
  obtain ⟨d, j, dname, hcloses, hj, hjop, hreplays⟩ := hrole
  have hframe : frameOf code n = some d := by rw [frameOf, hcloses.openers_eq]; rfl
  cases h with
  | main hmain _ => rw [hframe] at hmain; cases hmain
  | method hmethod hi hdef _ _ _ _ _ _ =>
    obtain rfl := Option.some.inj (hframe.symm.trans hmethod)
    obtain rfl := Option.some.inj (hj.symm.trans hi)
    rw [hjop] at hdef
    cases hdef
  | cls hcls _ _ _ hrest =>
    obtain rfl := Option.some.inj (hframe.symm.trans hcls)
    obtain ⟨a', rest, rfl⟩ := hrest.exists_cons
    refine ⟨List.cons_ne_nil _ _, ho.lt, ?_⟩
    -- A class leaves nothing on the operands, so they are those of where it was opened.
    rw [hreplays.state_eq]
    refine hrest.move (frameOf_eq hreplays.openers_eq) ?_ rfl
    exact hrest.activation.move hreplays.openIn_eq (by rw [hreplays.state_eq])
      hrest.activation.operands

/-- A call has its arguments and its receiver. Whatever it does, the stacks stay level. -/
theorem level_send {count : Option Int} (hop : i.op = .send name count) :
    i.op.argCount < a.stack.length ∧
      ∀ s', m.send i name ⟨n, a :: outer, l⟩ a outer = .next s' → StateLevel code s' := by
  obtain ⟨r, args, below, hstack, hargs, -, hs⟩ := ho.send hop
  have hopeners : openers code (n + 1) = openers code n := by rw [openers_succ ho.1, hop]
  have hlen := h.activation.operands
  rw [hstack, List.length_append, List.length_reverse, hargs, List.length_cons] at hlen
  have hlt : i.op.argCount < a.stack.length := by omega
  refine ⟨hlt, fun s' hnext => ?_⟩
  -- Below the arguments there is at least the receiver.
  have hdrop : (a.stack.drop i.op.argCount).length = below.length + 1 := by
    rw [List.length_drop]
    omega
  obtain ⟨receiver, rest, hvs⟩ := List.exists_cons_of_length_eq_add_one hdrop
  rw [hvs, List.length_cons, Nat.add_right_cancel_iff] at hdrop
  rw [Machine.send, takeArgs, if_pos (Nat.le_of_lt hlt), hvs] at hnext
  dsimp only at hnext
  split at hnext
  · -- The answer stands for the call.
    obtain rfl := Progress.next.inj hnext
    refine h.advance ho hopeners (by rw [hs]) (by rw [hs]) ?_
    rw [hs, List.length_cons, List.length_cons, hdrop]
  · cases hnext
  · cases hnext
  · next d owner hreact =>
    split at hnext
    · cases hnext
    · -- The method starts with no operands and no conditionals, in the class that it belongs to.
      obtain rfl := Progress.next.inj hnext
      obtain ⟨f, hf, hdef, hcls⟩ := b.method_definition (b.findMethod_of_react hl hreact)
      obtain ⟨f', hocc⟩ := b.occurs hf
      obtain ⟨-, hopened⟩ := hocc.defStart hdef
      have hframe : frameOf code (d + 1) = some d := by
        rw [frameOf, openers_succ hf, hdef]
        rfl
      refine ⟨hocc.lt, .method hframe hf hdef ⟨?_, ?_, ?_⟩ rfl ho.1 hop
        (show (stateAt code (n + 1)).stack = n :: below by rw [hs]) ?_⟩
      · rw [hopened]
        rfl
      · rw [hocc.openIn_opened b.replayed hframe (by rw [hopened]; rfl)]
        rfl
      · rw [hopened]
        exact hcls.symm
      · exact h.move rfl (h.activation.move rfl rfl hdrop) rfl

/-- **Before a step** the running activation is supplied, and the step keeps the state level. -/
theorem level_step :
    m.Supplied n a outer i.op ∧
      ∀ s', m.step i ⟨n, a :: outer, l⟩ = .next s' → StateLevel code s' := by
  have hlit : ∀ {v : Value}, i.op = .pushNil ∨ (∃ v, i.op = .pushInt v) ∨ (∃ t, i.op = .pushStr t) →
      StateLevel code ⟨n + 1, { a with stack := v :: a.stack } :: outer, l⟩ := by
    intro v hlit
    refine h.push ho (ho.literal hlit).2 ?_
    rcases hlit with hop | ⟨v, hop⟩ | ⟨t, hop⟩ <;> rw [openers_succ ho.1, hop]
  unfold Machine.step
  cases hop : i.op with
  | pushNil => exact ⟨trivial, fun s' hs => Progress.next.inj hs ▸ hlit (.inl hop)⟩
  | pushInt v => exact ⟨trivial, fun s' hs => Progress.next.inj hs ▸ hlit (.inr (.inl ⟨v, hop⟩))⟩
  | pushStr t => exact ⟨trivial, fun s' hs => Progress.next.inj hs ▸ hlit (.inr (.inr ⟨t, hop⟩))⟩
  | pushConst name =>
    obtain ⟨info, hinfo, -⟩ := b.pushConst_edge ho hop
    have hin : m.classes.contains name := by rw [b.classes_contains_eq hl, hinfo]; rfl
    refine ⟨hin, fun s' hs => ?_⟩
    simp only [hin, if_true] at hs
    obtain rfl := Progress.next.inj hs
    exact h.push ho (ho.pushConst hop).2 (by rw [openers_succ ho.1, hop])
  | pushVar name =>
    -- A local that is not there is pushed as nil, which is one operand too.
    refine ⟨trivial, fun s' hs => ?_⟩
    obtain rfl := Progress.next.inj hs
    exact h.push ho (ho.pushVar hop).2 (by rw [openers_succ ho.1, hop])
  | setVar name =>
    obtain ⟨v, rest, hvs, hlevel⟩ := level_setVar (l := l) h ho hop
    refine ⟨by rw [Supplied, hvs]; exact Nat.succ_pos _, fun s' hs => ?_⟩
    simp only [hvs] at hs
    obtain rfl := Progress.next.inj hs
    exact hlevel
  | pushArg k =>
    refine ⟨trivial, fun s' hs => ?_⟩
    obtain ⟨_, _, -, -, hstate⟩ := ho.pushArg hop
    dsimp only at hs
    split at hs
    · obtain rfl := Progress.next.inj hs
      exact h.push ho hstate (by rw [openers_succ ho.1, hop])
    · cases hs
  | send name count =>
    obtain ⟨hlt, hlevel⟩ := level_send (l := l) b hl h ho hop
    refine ⟨?_, hlevel⟩
    rwa [hop] at hlt
  | defStart name =>
    obtain ⟨j, hj, hlevel⟩ := level_defStart (l := l) b hl h ho hop
    refine ⟨by rw [Supplied, hj]; rfl, fun s' hs => ?_⟩
    simp only [jump, hj] at hs
    obtain rfl := Progress.next.inj hs
    exact hlevel
  | defEnd name =>
    obtain ⟨r, caller, rest, hpos, hret, rfl, hlevel⟩ := level_defEnd (l := l) b hl h ho hop
    refine ⟨⟨hpos, List.cons_ne_nil _ _, by rw [hret]; rfl⟩, fun s' hs => ?_⟩
    simp only [hret] at hs
    obtain rfl := Progress.next.inj hs
    exact hlevel
  | classStart name =>
    obtain ⟨hin, hlevel⟩ := level_classStart (l := l) b hl h ho hop
    refine ⟨hin, fun s' hs => ?_⟩
    simp only [hin, if_true] at hs
    obtain rfl := Progress.next.inj hs
    exact hlevel
  | classEnd name =>
    obtain ⟨hne, hlevel⟩ := level_classEnd (l := l) b hl h ho hop
    exact ⟨hne, fun s' hs => Progress.next.inj hs ▸ hlevel⟩
  | ifStart =>
    obtain ⟨v, rest, j, hvs, hj, hthen, helse⟩ := level_ifStart (l := l) b hl h ho hop
    refine ⟨⟨by rw [hvs]; exact Nat.succ_pos _, by rw [hj]; rfl⟩, fun s' hs => ?_⟩
    simp only [hvs, jump, hj] at hs
    split at hs
    · exact Progress.next.inj hs ▸ hthen
    · exact Progress.next.inj hs ▸ helse
  | ifElse =>
    have hrole := hl.role b ho
    rw [hop] at hrole
    obtain ⟨k, start, opener, value, hlink, -, hk, hb, hj⟩ := hrole
    obtain ⟨base, a', hhead, hlt, hclose, hlevel⟩ := level_branch (l := l) b.replayed h hb hj hk
    have hjump : m.jumps.get? n = some k := hlink
    refine ⟨⟨⟨base, hhead, hlt⟩, by rw [hjump]; rfl⟩, fun s' hs => ?_⟩
    simp only [hclose, jump, hjump] at hs
    obtain rfl := Progress.next.inj hs
    exact hlevel
  | ifEnd =>
    have hrole := hl.role b ho
    rw [hop] at hrole
    obtain ⟨start, opener, value, hb, hj⟩ := hrole
    obtain ⟨base, a', hhead, hlt, hclose, hlevel⟩ :=
      level_branch (l := l) b.replayed h hb hj ho.lt
    refine ⟨⟨base, hhead, hlt⟩, fun s' hs => ?_⟩
    simp only [hclose] at hs
    obtain rfl := Progress.next.inj hs
    exact hlevel
  | unknown opcode operand => exact absurd hop ho.ne_unknown

end Steps

/-! ### Supplied instructions -/

/-- The faults of an activation that lacks an operand, a place to jump to or a place to go back to.
-/
def Fault.isLack : Fault → Bool
  | .emptyStack | .noSuchKey | .noReturnAddress => true
  | _ => false

/-- An operator fails for its operands, never for what the machine lacks. -/
theorem not_isLack_of_apply {memory : Nat} {o : Operator} {left right : Value} {f : Fault}
    (h : o.apply memory left right = .error f) : f.isLack = false := by
  -- Only a repetition answers with a fault, and that one is about the length of the text.
  have hrep : ∀ {s : String} {k : Int}, (Value.replicateText memory s k).map Value.str = .error f →
      f.isLack = false := by
    intro s k h
    unfold Value.replicateText at h
    split at h
    · next fault hf =>
      obtain rfl := Except.error.inj h
      unfold repetitionFault? at hf
      grind [Fault.isLack]
    · cases h
  unfold Operator.apply at h
  split at h <;> first | exact hrep h | (cases h <;> rfl) | skip
  split at h <;> cases h
  rfl

theorem not_isLack_of_showing {cause : Except Fault BackendCause} {f : Fault}
    (hcause : ∀ f, cause = .error f → f = .tooManyDigits) (h : Reaction.showing cause = .fault f) :
    f.isLack = false := by
  cases cause with
  | ok cause => cases h
  | error f' =>
    obtain rfl := Reaction.fault.inj h
    obtain rfl := hcause _ rfl
    rfl

/-- A receiver fails to answer for its own reasons, never for what the machine lacks. -/
theorem not_isLack_of_react {m : Machine} {owner : Option String} {name : String}
    {receiver : Value} {args : List Value} {f : Fault}
    (h : m.react owner name receiver args = .fault f) : f.isLack = false := by
  -- What an operator reports about its operands.
  have hprim : ∀ v : Value, primitive m.memory name v args = .fault f → f.isLack = false := by
    intro v h
    unfold primitive at h
    split at h
    · exact not_isLack_of_showing (fun _ => BackendCause.error_of_undefinedFor) h
    · split at h
      · split at h
        · split at h
          · cases h
          · cases h
          · next hf =>
            obtain rfl := Reaction.fault.inj h
            exact not_isLack_of_apply hf
        · exact not_isLack_of_showing (fun _ => BackendCause.error_of_unconverted) h
      · exact not_isLack_of_showing (fun _ => BackendCause.error_of_unconverted) h
  -- By receiver: a call is no fault, and what is left is an operator.
  unfold react at h
  split at h
  · split at h
    · cases h
    · split at h <;> cases h
  · split at h <;> cases h
  · split at h
    · cases h
    · exact hprim _ h
  · exact hprim _ h

/-- **An instruction that is supplied lacks nothing.** -/
theorem Machine.Supplied.not_isLack {m : Machine} {n : Nat} {i : Instruction} {a : Activation}
    {outer : List Activation} {l : List (String × Nat)} {f : Fault} {s' : Machine.State}
    (h : m.Supplied n a outer i.op) (hs : m.step i ⟨n, a :: outer, l⟩ = .stop (.fault f) s') :
    f.isLack = false := by
  -- A conditional that is open is all that closing a branch asks for.
  have hbranch : (∃ base ∈ a.ifs.head?, base < a.stack.length) → ∃ a', closeBranch a = .ok a' := by
    rintro ⟨base, hbase, -⟩
    obtain ⟨ifs, hifs⟩ := List.head?_eq_some_iff.mp hbase
    exact ⟨_, by rw [closeBranch, hifs]⟩
  unfold Machine.step at hs
  cases hop : i.op with
  | pushNil | pushInt | pushStr | pushVar | classEnd =>
    simp only [hop] at hs
    cases hs
  | pushConst name | classStart name =>
    rw [hop] at h
    simp only [hop, show m.classes.contains name = true from h, if_true] at hs
    cases hs
  | setVar name =>
    rw [hop] at h
    obtain ⟨v, rest, hvs⟩ := List.exists_cons_of_length_pos h
    simp only [hop, hvs] at hs
    cases hs
  | pushArg k =>
    simp only [hop] at hs
    split at hs
    · cases hs
    · obtain ⟨he, -⟩ := Progress.stop.inj hs
      obtain rfl := RunError.fault.inj he
      rfl
  | send name count =>
    have hlt : i.op.argCount < a.stack.length := by rw [hop] at h ⊢; exact h
    obtain ⟨receiver, rest, hvs⟩ := List.exists_cons_of_length_pos
      (show 0 < (a.stack.drop i.op.argCount).length by rw [List.length_drop]; omega)
    simp only [hop] at hs
    rw [Machine.send, takeArgs, if_pos (Nat.le_of_lt hlt), hvs] at hs
    dsimp only at hs
    split at hs
    · cases hs
    · cases hs
    · next hreact =>
      obtain ⟨he, -⟩ := Progress.stop.inj hs
      obtain rfl := RunError.fault.inj he
      exact not_isLack_of_react hreact
    · split at hs <;> cases hs
  | defStart name =>
    rw [hop] at h
    obtain ⟨j, hj⟩ := Option.isSome_iff_exists.mp h
    simp only [hop, jump, hj] at hs
    cases hs
  | defEnd name =>
    rw [hop] at h
    obtain ⟨-, hne, hret⟩ := h
    obtain ⟨caller, rest, rfl⟩ := List.exists_cons_of_ne_nil hne
    obtain ⟨r, hr⟩ := Option.isSome_iff_exists.mp hret
    simp only [hop, hr] at hs
    cases hs
  | ifStart =>
    rw [hop] at h
    obtain ⟨v, rest, hvs⟩ := List.exists_cons_of_length_pos h.1
    obtain ⟨j, hj⟩ := Option.isSome_iff_exists.mp h.2
    simp only [hop, hvs, jump, hj] at hs
    split at hs <;> cases hs
  | ifElse =>
    rw [hop] at h
    obtain ⟨a', hclose⟩ := hbranch h.1
    obtain ⟨j, hj⟩ := Option.isSome_iff_exists.mp h.2
    simp only [hop, hclose, jump, hj] at hs
    cases hs
  | ifEnd =>
    rw [hop] at h
    obtain ⟨a', hclose⟩ := hbranch h
    simp only [hop, hclose] at hs
    cases hs
  | unknown opcode operand =>
    simp only [hop] at hs
    cases hs

/-! ### Runs -/

section Runs

variable {code : List Instruction} {g : Graph} {m : Machine} {statements : List Node} {k : Nat}
  {s s' : Machine.State}

theorem stateLevel_initial (code : List Instruction) : StateLevel code .initial := by
  refine ⟨Nat.zero_le _, .main rfl ⟨?_, ?_, ?_⟩⟩
  · rw [Machine.State.initial, stateAt_zero]
    rfl
  · rw [Machine.State.initial, openIn, stateAt_zero]
    rfl
  · rw [Machine.State.initial, stateAt_zero]
    rfl

/-- **Every state of a run is level with the replay.** -/
theorem StateLevel.reaches (b : g.Built code) (hl : Loaded m code statements)
    (h : Reaches m k s s') (hs : StateLevel code s) : StateLevel code s' := by
  induction h with
  | refl s => exact hs
  | @step k s s₁ s₂ i hi hstep _ ih =>
    obtain ⟨n, frames, l⟩ := s
    obtain ⟨hle, hframes⟩ := hs
    obtain ⟨a, outer, rfl⟩ := hframes.exists_cons
    rw [hl.code_eq, List.getElem?_toArray] at hi
    obtain ⟨e, ho⟩ := b.occurs hi
    exact ih ((level_step b hl hframes ho).2 s₁ hstep)

end Runs

/-- **The machine mirrors the replay.** Whenever the machine of a typed program is about to execute
an instruction, the running activation has as many operands as the replay has records in its
innermost frame, and its conditionals start from the heights of those that the replay has opened in
that frame. It has all that the instruction asks for, so the step does not stop for want of an
operand, of a place to jump to or of a place to go back to. -/
theorem machine_mirrors_replay {source : String} {code : List Instruction}
    {records : List TypedRecord} (hcode : Program.code source = .ok code)
    (hinfer : infer code = .ok records) (memory : Nat) :
    ∃ m, Machine.load memory records = .ok m ∧
      ∀ k s i, Reaches m k .initial s → m.code[s.next]? = some i →
        ∃ a outer, s.frames = a :: outer ∧
          a.stack.length = (stateAt code s.next).stack.length ∧
          a.ifs = (openIn code s.next).map OpenIf.height ∧
          m.Supplied s.next a outer i.op ∧
          ∀ f s', m.step i s = .stop (.fault f) s' →
            f ≠ .emptyStack ∧ f ≠ .noSuchKey ∧ f ≠ .noReturnAddress := by
  obtain ⟨statements, g, m, -, hc, rfl⟩ := compiled_of_code hcode hinfer memory
  have b := Graph.built_of_build hc.built
  refine ⟨m, hc.loads, fun k s i hr hi => ?_⟩
  obtain ⟨n, frames, l⟩ := s
  -- Levels hold at the start, and every step keeps them.
  obtain ⟨-, hframes⟩ := (stateLevel_initial code).reaches b hc.loaded hr
  obtain ⟨a, outer, rfl⟩ := hframes.exists_cons
  have hi' := hi
  rw [hc.loaded.code_eq, List.getElem?_toArray] at hi'
  obtain ⟨e, ho⟩ := b.occurs hi'
  have hsupplied := (level_step (l := l) b hc.loaded hframes ho).1
  refine ⟨a, outer, rfl, hframes.activation.operands, hframes.activation.ifs, hsupplied, ?_⟩
  intro f s' hs
  -- Whatever stops this step, it is not something the levels supply.
  have hlack := hsupplied.not_isLack hs
  refine ⟨?_, ?_, ?_⟩ <;> (rintro rfl; cases hlack)

theorem machine_mirrors_replay_pick : ∃ records, infer Sample.pickCode = .ok records ∧
    ∃ m, Machine.load Sample.memory records = .ok m ∧
      ∀ k s i, Reaches m k .initial s → m.code[s.next]? = some i →
        ∃ a outer, s.frames = a :: outer ∧
          a.stack.length = (stateAt Sample.pickCode s.next).stack.length ∧
          a.ifs = (openIn Sample.pickCode s.next).map OpenIf.height ∧
          m.Supplied s.next a outer i.op ∧
          ∀ f s', m.step i s = .stop (.fault f) s' →
            f ≠ .emptyStack ∧ f ≠ .noSuchKey ∧ f ≠ .noReturnAddress := by
  obtain ⟨records, hr⟩ := exists_of_isOk Sample.infer_isOk.1
  exact ⟨records, hr, machine_mirrors_replay Sample.code_pick hr Sample.memory⟩

end Rubylet
