import Rubylet.Proofs.Graph.Exact
import Rubylet.Proofs.Safety.Frames
import Rubylet.Proofs.Typing.Flow

/-!
# Steps of a typed program

One step of the machine from a state that fits the replay of a typed program leads to a state that
fits it (`Checked.step`), with one lemma for each operation. A step that leads nowhere is a division
by zero, a call that is nested too deep, or a text that is too long.

The one thing that types do not rule out is a read of a local before any assignment to it; the
machine answers nil there, whatever the local's type. Such a step is left out.
-/

namespace Rubylet

open Replay Machine

/-- A record calls a method whose values it may have. -/
structure Calls (code : List Instruction) (g : Graph) (r d : Nat) : Prop where
  call : ∃ i name count j, code[r]? = some i ∧ i.op = .send name count ∧ code[d]? = some j ∧
    j.op = .defStart name
  answers : ∀ v, g.Holds d v → g.Holds r v

/-- All assignments to a local of a frame may stand for the same classes. -/
def SameClasses (code : List Instruction) (g : Graph) : Prop :=
  ∀ q q' name frame c, Assigns code q name frame → Assigns code q' name frame →
    g.HasType (.record q) .cls → g.HasType (.record q') .cls → g.Yields q c → g.Yields q' c

/-- What is known of a program that was loaded after inference. -/
structure Checked (code : List Instruction) (g : Graph) (m : Machine) (statements : List Node) :
    Prop where
  built : g.Built code
  loaded : Loaded m code statements
  typed : ∀ n < code.length, ∃ t, g.HasType (.record n) t
  sameClasses : SameClasses code g

/-- The next instruction reads a local that the innermost activation does not have. -/
def Machine.ReadsUnbound (m : Machine) (s : Machine.State) : Prop :=
  ∃ i name a outer, m.code[s.next]? = some i ∧ i.op = .pushVar name ∧ s.frames = a :: outer ∧
    a.locals.get? name = none

/-- The same as a test. -/
def Machine.readsUnbound (m : Machine) (s : Machine.State) : Bool :=
  match m.code[s.next]?.map Instruction.op, s.frames with
  | some (.pushVar name), a :: _ => (a.locals.get? name).isNone
  | _, _ => false

/-- Whether a state is about to read a local that is not bound can be decided. -/
theorem Machine.readsUnbound_iff {m : Machine} {s : Machine.State} :
    m.readsUnbound s = true ↔ m.ReadsUnbound s := by
  unfold Machine.readsUnbound
  constructor
  · split
    · next name a outer hop hframes =>
      intro h
      obtain ⟨i, hi, ho⟩ := Option.map_eq_some_iff.mp hop
      exact ⟨i, name, a, outer, hi, ho, hframes, Option.isNone_iff_eq_none.mp h⟩
    · nofun
  · rintro ⟨i, name, a, outer, hi, ho, hframes, hget⟩
    simp only [hi, ho, hframes, hget, Option.map_some, Option.isNone_none]

instance Machine.decidableReadsUnbound (m : Machine) (s : Machine.State) :
    Decidable (m.ReadsUnbound s) := decidable_of_iff _ Machine.readsUnbound_iff

/-- Why a typed program stops in a state. -/
inductive Machine.Stops (m : Machine) (s : Machine.State) : RunError → Prop
  | dividedByZero {i : Instruction} : m.code[s.next]? = some i →
      Stops m s (.failedAt s.next i .dividedByZero)
  | stackTooDeep {i : Instruction} : m.code[s.next]? = some i →
      Stops m s (.failedAt s.next i .stackTooDeep)
  /-- A text is repeated so often that it would be too long. -/
  | repetition {i : Instruction} {a : Activation} {outer : List Activation} {text : String}
      {count : Int} {below : List Value} {fault : Fault} : m.code[s.next]? = some i →
      i.op.name? = some "*" → s.frames = a :: outer → a.stack = .int count :: .str text :: below →
      repetitionFault? m.memory text.length count = some fault → Stops m s (.fault fault)

/-- No reason to stop is about the arguments of an operator. -/
theorem Machine.Stops.ne_unconverted {m : Machine} {s : Machine.State} {e : RunError}
    (h : m.Stops s e) (record : Nat) (pos : Pos) (name : String) (args : List Value) :
    e ≠ .showing record pos (BackendCause.unconverted name args) := by
  intro he
  cases hcause : BackendCause.unconverted name args with
  | ok cause =>
    -- There is a message, and it is none of the two that a typed program stops with.
    obtain ⟨shown, rfl⟩ := BackendCause.eq_of_unconverted hcause
    rw [hcause] at he
    cases h <;> cases he
  | error f =>
    -- An argument cannot be shown, which is not the fault of a repetition.
    obtain rfl := BackendCause.error_of_unconverted hcause
    rw [hcause] at he
    cases h with
    | dividedByZero | stackTooDeep => cases he
    | repetition _ _ _ _ hfault =>
      obtain rfl := RunError.fault.inj he
      unfold repetitionFault? at hfault
      grind

/-- What comes of a step: a state that fits, or a stop for one of the reasons there are. -/
def Fares (code : List Instruction) (g : Graph) (m : Machine) (s : Machine.State) :
    Machine.Progress → Prop
  | .next s' => StateFits code g.Holds (Calls code g) s'
  | .stop e _ => m.Stops s e

section

variable {code : List Instruction} {fits : Nat → Value → Prop} {calls : Nat → Nat → Prop}
  {n n' : Nat} {i : Instruction} {e : Event} {v : Value} {a : Activation} {outer : List Activation}
  {l : List (String × Nat)}

/-! ### Steps inside a frame -/

theorem frameOf_eq (h : openers code n' = openers code n) : frameOf code n' = frameOf code n := by
  rw [frameOf, h, frameOf]

/-- The next instruction comes next, and finds some operands. -/
theorem FramesFit.advance {stack : List Value}
    (h : FramesFit code fits calls n (stateAt code n).stack (a :: outer)) (ho : Occurs code n i e)
    (hop : openers code (n + 1) = openers code n)
    (hcls : (stateAt code (n + 1)).classes = (stateAt code n).classes)
    (hifs : (stateAt code (n + 1)).ifs = (stateAt code n).ifs)
    (hops : List.Forall₂ (SlotFits code fits (n + 1)) (stateAt code (n + 1)).stack stack) :
    StateFits code fits calls ⟨n + 1, { a with stack } :: outer, l⟩ :=
  ⟨ho.lt, h.move (frameOf_eq hop) (h.activation.move (frameOf_eq hop) hcls hifs hops) rfl⟩

/-- A value is pushed that fits the record. -/
theorem FramesFit.push (hr : (trace code).error? = none)
    (h : FramesFit code fits calls n (stateAt code n).stack (a :: outer)) (ho : Occurs code n i e)
    (hs : stateAt code (n + 1) = (stateAt code n).push n)
    (hop : openers code (n + 1) = openers code n) (hend : ∀ name, i.op ≠ .defEnd name)
    (hv : fits n v) :
    StateFits code fits calls ⟨n + 1, { a with stack := v :: a.stack } :: outer, l⟩ := by
  refine h.advance ho hop (by rw [hs]; rfl) (by rw [hs]; rfl) ?_
  rw [hs]
  refine .cons (.inr ⟨not_skipped_succ hr, hv⟩) ?_
  exact slots_move h.activation.operands fun r _ => skipped_succ_iff ho.1 hend

end

namespace Checked

variable {code : List Instruction} {g : Graph} {m : Machine} {statements : List Node}
  {n : Nat} {i : Instruction} {e : Event} {a : Activation} {outer : List Activation}
  {l : List (String × Nat)} {name : String}

variable (c : Checked code g m statements)

include c

theorem replayed : (trace code).error? = none := c.built.replayed

theorem roles : Roles code m.Linked 0 code.length := c.loaded.layout.roles c.replayed

theorem role (h : Occurs code n i e) : Role code m.Linked n i.op :=
  c.roles n i (Nat.zero_le n) h.lt h.1

/-- **All assignments to a local of a frame have one type.** -/
theorem assignments_agree {q q' : Nat} {frame : Option Nat} {t t' : Ty}
    (hq : Assigns code q name frame) (hq' : Assigns code q' name frame)
    (h : g.HasType (.record q) t) (h' : g.HasType (.record q') t') : t = t' := by
  obtain ⟨i, hi, -⟩ := hq.1
  obtain ⟨f, hf⟩ := exists_firstIn hq (List.getElem?_eq_some_iff.mp hi).1
  obtain ⟨u, hu⟩ := c.typed f hf.lt
  -- The types of both assignments are that of the first one.
  obtain ⟨v, hfv, hqv⟩ := c.built.shared_edge c.roles hf hq
  obtain ⟨v', hfv', hqv'⟩ := c.built.shared_edge c.roles hf hq'
  have hw := c.built.isWired
  obtain rfl := (h.edge hw hqv).unique (hu.edge hw hfv)
  exact (hu.edge hw hfv').unique (h'.edge hw hqv')

/-- A value that one assignment to a local of a frame may have, all of them may have. -/
theorem holds_of_assigns {q q' : Nat} {frame : Option Nat} {v : Value}
    (hq : Assigns code q name frame) (hq' : Assigns code q' name frame) (h : g.Holds q v) :
    g.Holds q' v := by
  obtain ⟨i, hi, -⟩ := hq'.1
  obtain ⟨t, ht⟩ := c.typed q' (List.getElem?_eq_some_iff.mp hi).1
  obtain rfl := c.assignments_agree hq hq' h.type ht
  refine ⟨ht, fun cls hcls => ?_⟩
  subst hcls
  exact c.sameClasses q q' name frame cls hq hq' h.type ht (h.names cls rfl)

theorem instruction (h : Occurs code n i e) : m.code[n]? = some i := by
  rw [c.loaded.code_eq, List.getElem?_toArray, h.1]

/-- Only the instructions that define a class name one. -/
theorem flow {k : Nat} {v : Value} (h : Occurs code n i e) (hk : g.Holds k v)
    (hd : .record k ∈ (g.record n).dependencies) (hconst : ∀ name, i.op ≠ .pushConst name)
    (hclass : ∀ name, i.op ≠ .classStart name) : g.Holds n v := by
  obtain ⟨t, ht⟩ := c.typed n h.lt
  refine hk.flow c.built.isWired hd ht ?_
  rw [c.built.classNamed?_eq h.1]
  cases ho : i.op with
  | pushConst name => exact absurd ho (hconst name)
  | classStart name => exact absurd ho (hclass name)
  | _ => rfl

/-- Parameters stand in methods alone. -/
theorem frameOf_pushArg {q : Nat} {j : Instruction} {k : Int} (hq : code[q]? = some j)
    (hop : j.op = .pushArg k) : ∃ d f name, frameOf code q = some d ∧ code[d]? = some f ∧
      f.op = .defStart name := by
  have hrole := c.roles q j (Nat.zero_le q) (List.getElem?_eq_some_iff.mp hq).1 hq
  rw [hop] at hrole
  obtain ⟨d, f, name, _, _, hcloses, hd, hdef, -⟩ := hrole
  exact ⟨d, f, name, by rw [frameOf, hcloses.openers_eq]; rfl, hd, hdef⟩

/-! ### Operations that stay in their frame -/

section

variable (h : FramesFit code g.Holds (Calls code g) n (stateAt code n).stack (a :: outer))
  (ho : Occurs code n i e)

include h ho

/-- A literal pushes a value of its type. -/
theorem step_literal {v : Value} (hlit : i.op = .pushNil ∨ (∃ v, i.op = .pushInt v) ∨
    ∃ t, i.op = .pushStr t) (hv : i.op.givenType? = some v.ty) (hcls : ∀ c, v ≠ .cls c) :
    StateFits code g.Holds (Calls code g)
      ⟨n + 1, { a with stack := v :: a.stack } :: outer, l⟩ := by
  refine h.push c.replayed ho (ho.literal hlit).2 ?_ ?_ ⟨?_, fun c hc => absurd hc (hcls c)⟩
  · rcases hlit with hop | ⟨v, hop⟩ | ⟨t, hop⟩ <;> rw [openers_succ ho.1, hop]
  · rcases hlit with hop | ⟨v, hop⟩ | ⟨t, hop⟩ <;> simp [hop]
  · exact .given (by rw [c.built.record_eq ho.1]; exact hv)

/-- A constant is loaded, and pushes its class. -/
theorem step_pushConst (hop : i.op = .pushConst name) :
    m.classes.contains name ∧ StateFits code g.Holds (Calls code g)
      ⟨n + 1, { a with stack := .cls name :: a.stack } :: outer, l⟩ := by
  obtain ⟨info, hinfo, hd⟩ := c.built.pushConst_edge ho hop
  obtain ⟨t, ht⟩ := c.typed n ho.lt
  -- The constant has the type of the record that defines the class.
  have hdefinition : g.HasType (.record info.definition) .cls := c.built.class_typed hinfo
  obtain rfl := (ht.edge c.built.isWired hd).unique hdefinition
  refine ⟨by rw [c.built.classes_contains_eq c.loaded, hinfo]; rfl, ?_⟩
  refine h.push c.replayed ho (ho.pushConst hop).2 (by rw [openers_succ ho.1, hop])
    (by simp [hop]) ⟨ht, ?_⟩
  rintro other heq
  obtain rfl := Value.cls.inj heq
  exact .named (by rw [c.built.classNamed?_eq ho.1, hop])

/-- A local that is bound pushes a value of its type. -/
theorem step_pushVar {v : Value} (hop : i.op = .pushVar name) (hv : a.locals.get? name = some v) :
    StateFits code g.Holds (Calls code g)
      ⟨n + 1, { a with stack := v :: a.stack } :: outer, l⟩ := by
  obtain ⟨first, hfirst, hd⟩ := c.built.read_edge c.roles ho hop
  have hholds := h.activation.locals name v hv first hfirst
  exact h.push c.replayed ho (ho.pushVar hop).2 (by rw [openers_succ ho.1, hop]) (by simp [hop])
    (c.flow ho hholds hd (by simp [hop]) (by simp [hop]))

/-- A parameter has been passed, and pushes the argument. -/
theorem step_pushArg {k : Int} (hop : i.op = .pushArg k) :
    ∃ v, elementAt? a.args k = some v ∧ StateFits code g.Holds (Calls code g)
      ⟨n + 1, { a with stack := v :: a.stack } :: outer, l⟩ := by
  obtain ⟨v, hv, hholds⟩ := h.activation.args n i k ho.1 hop rfl
  obtain ⟨_, _, -, -, hs⟩ := ho.pushArg hop
  exact ⟨v, hv, h.push c.replayed ho hs (by rw [openers_succ ho.1, hop]) (by simp [hop]) hholds⟩

/-- An assignment finds a value, and binds its local to it. -/
theorem step_setVar (hop : i.op = .setVar name) :
    ∃ v rest, a.stack = v :: rest ∧ StateFits code g.Holds (Calls code g)
      ⟨n + 1, { a with stack := rest, locals := a.locals.set name v } :: outer, l⟩ := by
  have hrole := c.role ho
  rw [hop] at hrole
  obtain ⟨r, below, hstack, hskip⟩ := hrole
  obtain ⟨r', rest', hstack', -, hs⟩ := ho.setVar hop
  obtain ⟨r'', rest'', hstack'', hd⟩ := c.built.setVar_edge ho hop
  obtain ⟨rfl, rfl⟩ := List.cons.inj (hstack.symm.trans hstack')
  obtain ⟨rfl, rfl⟩ := List.cons.inj (hstack.symm.trans hstack'')
  have hops := h.activation.operands
  rw [hstack] at hops
  obtain ⟨v, vs, hv, hrest, hvs⟩ := List.forall₂_cons_left_iff.mp hops
  have hholds : g.Holds n v := c.flow ho (SlotFits.fit hv hskip) hd (by simp [hop]) (by simp [hop])
  have hopeners : openers code (n + 1) = openers code n := by rw [openers_succ ho.1, hop]
  refine ⟨v, vs, hvs, ho.lt, h.move (frameOf_eq hopeners) ?_ rfl⟩
  have hmoved : ActivationFits code g.Holds (n + 1) below { a with stack := vs } :=
    h.activation.move (frameOf_eq hopeners) (by rw [hs]) (by rw [hs])
      (slots_move hrest fun r _ => skipped_succ_iff ho.1 (by simp [hop]))
  rw [hs]
  refine ⟨hmoved.operands, ?_, hmoved.args, hmoved.owner, hmoved.ifs⟩
  intro other w hget q hq
  rw [Table.get?_set] at hget
  split at hget
  · next heq =>
    -- The value that was assigned has to fit every assignment to the local in this frame.
    subst heq
    obtain rfl := Option.some.inj hget
    rw [frameOf_eq hopeners] at hq
    exact c.holds_of_assigns ⟨⟨i, ho.1, hop⟩, rfl⟩ hq hholds
  · exact hmoved.locals other w hget q hq

/-! ### Conditionals -/

/-- A conditional finds its condition and its link, whichever branch is run. -/
theorem step_ifStart (hop : i.op = .ifStart) :
    ∃ v rest j, a.stack = v :: rest ∧ m.jumps.get? n = some j ∧
      StateFits code g.Holds (Calls code g)
        ⟨n + 1, { a with stack := rest, ifs := rest.length :: a.ifs } :: outer, l⟩ ∧
      StateFits code g.Holds (Calls code g)
        ⟨j + 1, { a with stack := rest, ifs := rest.length :: a.ifs } :: outer, l⟩ := by
  have hrole := c.role ho
  rw [hop] at hrole
  obtain ⟨j, hlink, hlt, hj, hreplays⟩ := hrole
  obtain ⟨r, below, hstack, -, hs⟩ := ho.ifStart hop
  have hops := h.activation.operands
  rw [hstack] at hops
  obtain ⟨v, rest, -, hrest, hvs⟩ := List.forall₂_cons_left_iff.mp hops
  have hopeners : openers code (n + 1) = openers code n := by rw [openers_succ ho.1, hop]
  have hslots : List.Forall₂ (SlotFits code g.Holds (n + 1)) below rest :=
    slots_move hrest fun r _ => skipped_succ_iff ho.1 (by simp [hop])
  have hbegun : ActivationFits code g.Holds (n + 1) below
      { a with stack := rest, ifs := rest.length :: a.ifs } := by
    have hmoved := h.activation
    obtain ⟨opened, hopened, hheights⟩ := hmoved.ifs
    refine ⟨hslots, ?_, ?_, ?_, ⟨n, below.length⟩ :: opened, ?_, ?_⟩
    · rw [frameOf_eq hopeners]
      exact hmoved.locals
    · rw [frameOf_eq hopeners]
      exact hmoved.args
    · rw [hs]
      exact hmoved.owner
    · rw [hs, frameOf_eq hopeners, hopened]
      rfl
    · rw [List.map_cons, ← hheights, hrest.length_eq]
  have hlt' : ∀ r ∈ below, r < n + 1 := fun r hr =>
    Nat.lt_succ_of_lt (stack_lt c.replayed (hstack ▸ List.mem_cons_of_mem _ hr : r ∈ _))
  -- The branch that is taken begins behind the condition, the other one behind the jump.
  refine ⟨v, rest, j, hvs, hlink, ⟨ho.lt, ?_⟩, ⟨hj, ?_⟩⟩
  · rw [hs]
    exact h.move (frameOf_eq hopeners) hbegun rfl
  · rw [hreplays.state_eq, hs]
    refine h.move ((frameOf_eq hreplays.openers_eq).trans (frameOf_eq hopeners)) ?_ rfl
    refine hbegun.move (frameOf_eq hreplays.openers_eq) (by rw [hreplays.state_eq])
      (by rw [hreplays.state_eq]) ?_
    exact slots_move hslots fun r hr => hreplays.skipped_iff (by omega) (hlt' r hr)

/-- A branch is closed, and its value stands for the conditional. -/
theorem close_branch {start opener r n' : Nat} (hop : i.op = .ifElse ∨ i.op = .ifEnd)
    (hb : Branch code start opener n r) (hj : Joined code start opener n') (hn : n < n')
    (hle : n' ≤ code.length) :
    ∃ a', closeBranch a = .ok a' ∧
      StateFits code g.Holds (Calls code g) ⟨n', a' :: outer, l⟩ := by
  obtain ⟨rest, hstate⟩ := hb.state_eq c.replayed
  obtain ⟨opened, hopened, hheights⟩ := h.activation.ifs
  obtain ⟨opened', rfl, houter⟩ := hb.innermost c.replayed (Nat.le_of_lt ho.lt) hopened
  obtain ⟨v, base, hv, hbase, hclose⟩ := h.activation.closeBranch (by rw [hstate]) hheights
  refine ⟨_, hclose, hle, ?_⟩
  -- The value of the branch is what the conditional depends on.
  have hholds : g.Holds opener v := by
    obtain ⟨o, ifs, r', rest', hifs, hstack, hd⟩ := c.built.branch_edge ho hop
    rw [hstate] at hifs hstack
    obtain ⟨rfl, -⟩ := List.cons.inj hifs
    obtain ⟨rfl, -⟩ := List.cons.inj hstack
    obtain ⟨origin, hopener⟩ := hb.opened
    obtain ⟨f, hocc⟩ := c.built.occurs hopener
    exact c.flow hocc (SlotFits.fit hv hb.evaluated) hd (by simp) (by simp)
  have hframe : frameOf code n' = frameOf code n :=
    frameOf_eq (hj.replays.openers_eq.trans hb.openers_eq.symm)
  -- Behind the conditional the same of the older records are skipped as before it.
  have hslots : List.Forall₂ (SlotFits code g.Holds n') (stateAt code start).stack base := by
    refine slots_move hbase fun r' hr' => ?_
    have hlt := stack_lt c.replayed hr'
    have hstart := hb.start_le
    have hopener := hb.opener_lt
    exact ⟨fun hs => (hj.replays.skipped r' hlt hs).mono (by omega), fun hs => hs.mono (by omega)⟩
  rw [hj.replays.state_eq]
  refine h.move hframe ?_ rfl
  refine ⟨.cons (.inr ⟨hj.evaluated, hholds⟩) hslots, ?_, ?_, ?_, opened', ?_, rfl⟩
  · rw [hframe]
    exact h.activation.locals
  · rw [hframe]
    exact h.activation.args
  · have howner := h.activation.owner
    rw [hstate] at howner
    rw [hj.replays.state_eq]
    exact howner
  · rw [hj.replays.state_eq, hframe]
    exact houter

/-! ### Definitions -/

/-- A definition is passed over, and leaves nil. -/
theorem step_defStart (hop : i.op = .defStart name) :
    ∃ j, m.jumps.get? n = some j ∧ StateFits code g.Holds (Calls code g)
      ⟨j + 1, { a with stack := .nil :: a.stack } :: outer, l⟩ := by
  have hrole := c.role ho
  rw [hop] at hrole
  obtain ⟨j, r, hlink, hlt, hj, hreplays, hskip⟩ := hrole
  refine ⟨j, hlink, hj, ?_⟩
  rw [hreplays.state_eq]
  refine h.move (frameOf_eq hreplays.openers_eq) ?_ rfl
  -- The record that the definition leaves is skipped, so nil may stand for it.
  refine h.activation.move (frameOf_eq hreplays.openers_eq) (by rw [hreplays.state_eq])
    (by rw [hreplays.state_eq]) (.cons (.inl ⟨hskip, rfl⟩) ?_)
  exact slots_move h.activation.operands fun r hr =>
    hreplays.skipped_iff (by omega) (stack_lt c.replayed hr)

/-- A method returns, and its value stands for the call. -/
theorem step_defEnd (hop : i.op = .defEnd name) :
    ∃ r caller rest, a.returnTo = some r ∧ outer = caller :: rest ∧
      StateFits code g.Holds (Calls code g)
        ⟨r + 1, { caller with stack := a.stack.headD .nil :: caller.stack } :: rest, l⟩ := by
  have hrole := c.role ho
  rw [hop] at hrole
  obtain ⟨d, j, j', dname, value, hcloses, hj, hjop, hocc, hskip⟩ := hrole
  have hframe : frameOf code n = some d := by rw [frameOf, hcloses.openers_eq]; rfl
  obtain ⟨d', defs, r', rest', hdefs, hstack, he, -⟩ := hocc.defEnd
    (by obtain rfl := (ho.unique hocc).1; exact hop)
  obtain ⟨rfl, rfl⟩ := Event.defEnd.inj he
  obtain ⟨d', defs', r', rest'', hdefs', hstack', hd⟩ := c.built.defEnd_edge ho hop
  obtain ⟨rfl, -⟩ := List.cons.inj (hdefs.symm.trans hdefs')
  obtain ⟨rfl, -⟩ := List.cons.inj (hstack.symm.trans hstack')
  have hops := h.activation.operands
  rw [hstack] at hops
  obtain ⟨v, vs, hv, -, hvs⟩ := List.forall₂_cons_left_iff.mp hops
  rw [hvs]
  obtain ⟨f, hf⟩ := c.built.occurs hj
  have hholds : g.Holds d v :=
    c.flow hf (SlotFits.fit hv hskip) hd (by simp [hjop]) (by simp [hjop])
  -- The frame was opened by a definition, so its activation stands above a call.
  cases h with
  | main hmain _ => rw [hframe] at hmain; cases hmain
  | cls hcls hi hclass _ _ =>
    obtain rfl := Option.some.inj (hframe.symm.trans hcls)
    obtain rfl := Option.some.inj (hj.symm.trans hi)
    rw [hjop] at hclass
    cases hclass
  | @method _ _ _ _ d' i' name' r below hmethod hi hdef ha hret hcall hbelow hrest =>
    obtain rfl := Option.some.inj (hframe.symm.trans hmethod)
    obtain ⟨caller, rest, rfl⟩ := hrest.exists_cons
    obtain ⟨k, kname, count, -, hk, hkop, -, -⟩ := hcall.call
    obtain ⟨f', hf'⟩ := c.built.occurs hk
    obtain ⟨_, _, _, -, -, -, hs⟩ := hf'.send hkop
    have hopeners : openers code (r + 1) = openers code r := by rw [openers_succ hk, hkop]
    refine ⟨r, caller, rest, hret, rfl, hf'.lt, ?_⟩
    rw [hbelow]
    refine hrest.move (frameOf_eq hopeners) ?_ rfl
    refine hrest.activation.move (frameOf_eq hopeners) (by rw [hs]) (by rw [hs])
      (.cons (.inr ⟨not_skipped_succ c.replayed, hcall.answers v hholds⟩) ?_)
    exact slots_move hrest.activation.operands fun r _ => skipped_succ_iff hk (by simp [hkop])

/-- The body of a class runs in an activation of its own. -/
theorem step_classStart (hop : i.op = .classStart name) :
    m.classes.contains name ∧ StateFits code g.Holds (Calls code g)
      ⟨n + 1, .fresh [] none (some name) :: a :: outer, l⟩ := by
  obtain ⟨op, origin⟩ := i
  obtain rfl : op = .classStart name := hop
  obtain ⟨-, -, hs⟩ := ho.classStart rfl
  have hframe : frameOf code (n + 1) = some n := by rw [frameOf, openers_succ ho.1]; rfl
  refine ⟨c.loaded.entered ho.1, ho.lt, ?_⟩
  refine .cls hframe ho.1 rfl ⟨?_, nofun, ?_, ?_, [], ?_, rfl⟩ h
  · rw [hs]
    exact .nil
  · intro q j k hq hpush hin
    -- No parameter stands in the body of a class.
    obtain ⟨d, f, dname, hd, hf, hdef⟩ := c.frameOf_pushArg hq hpush
    rw [hin, hframe] at hd
    obtain rfl := Option.some.inj hd
    obtain rfl := Option.some.inj (ho.1.symm.trans hf)
    cases hdef
  · rw [hs]
    rfl
  · rw [hs, hframe]
    rfl

/-- The body of a class ends. -/
theorem step_classEnd (hop : i.op = .classEnd name) :
    StateFits code g.Holds (Calls code g) ⟨n + 1, outer, l⟩ := by
  have hrole := c.role ho
  rw [hop] at hrole
  obtain ⟨d, j, dname, hcloses, hj, hjop, hreplays⟩ := hrole
  have hframe : frameOf code n = some d := by rw [frameOf, hcloses.openers_eq]; rfl
  have hlt := hcloses.lt
  cases h with
  | main hmain _ => rw [hframe] at hmain; cases hmain
  | method hmethod hi hdef _ _ _ _ _ =>
    obtain rfl := Option.some.inj (hframe.symm.trans hmethod)
    obtain rfl := Option.some.inj (hj.symm.trans hi)
    rw [hjop] at hdef
    cases hdef
  | cls hcls hi _ _ hrest =>
    obtain rfl := Option.some.inj (hframe.symm.trans hcls)
    obtain ⟨b, rest, rfl⟩ := hrest.exists_cons
    refine ⟨ho.lt, ?_⟩
    rw [hreplays.state_eq]
    -- The activation below goes on where the class was opened.
    have hslots : List.Forall₂ (SlotFits code g.Holds (n + 1)) (stateAt code d).stack b.stack :=
      slots_move hrest.activation.operands fun r hr =>
        hreplays.skipped_iff (by omega) (stack_lt c.replayed hr)
    refine hrest.move (frameOf_eq hreplays.openers_eq) ?_ rfl
    exact hrest.activation.move (frameOf_eq hreplays.openers_eq) (by rw [hreplays.state_eq])
      (by rw [hreplays.state_eq]) hslots

end

end Checked

end Rubylet
