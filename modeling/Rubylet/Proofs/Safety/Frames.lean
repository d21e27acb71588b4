import Rubylet.Proofs.Code.Role
import Rubylet.Proofs.Graph.Locals
import Rubylet.Proofs.Machine.Runs

/-!
# Activations and the replay

How a state of the machine fits the replay of its code. The innermost activation stands at the next
instruction; each of the others stands where the one above it was started: at a call, whose record
is still to come, or at the opener of a class. At its place an activation has an operand for every
record that the replay has there, and nil where a definition was skipped.

The definitions leave open which values fit a record, and which calls may run a method. What the
theorem about typed programs says is one choice for both, what its proof needs is another.
-/

namespace Rubylet

open Replay Machine

/-- A value fits a record on the operands at a point. -/
def SlotFits (code : List Instruction) (fits : Nat → Value → Prop) (n r : Nat) (v : Value) : Prop :=
  (Skipped code n r ∧ v = .nil) ∨ (¬ Skipped code n r ∧ fits r v)

/-- The conditionals that were open when a frame was opened. -/
def openIfs (code : List Instruction) : Option Nat → List OpenIf
  | none => []
  | some opener => (stateAt code opener).ifs

/-- An activation that stands at a point fits the replay, with operands for some records. -/
structure ActivationFits (code : List Instruction) (fits : Nat → Value → Prop) (n : Nat)
    (slots : List Nat) (a : Activation) : Prop where
  operands : List.Forall₂ (SlotFits code fits n) slots a.stack
  /-- A local that is bound fits all assignments to it in its frame. -/
  locals : ∀ name v, a.locals.get? name = some v →
    ∀ q, Assigns code q name (frameOf code n) → fits q v
  /-- Every parameter of the frame has an argument that fits it. -/
  args : ∀ q i k, code[q]? = some i → i.op = .pushArg k → frameOf code q = frameOf code n →
    ∃ v, elementAt? a.args k = some v ∧ fits q v
  owner : a.owner = (stateAt code n).currentClass
  /-- The heights of the conditionals that were opened in the frame. -/
  ifs : ∃ opened, (stateAt code n).ifs = opened ++ openIfs code (frameOf code n) ∧
    a.ifs = opened.map OpenIf.height

/-- Activations fit the replay, the innermost one at a point and with operands for some records. -/
inductive FramesFit (code : List Instruction) (fits : Nat → Value → Prop)
    (calls : Nat → Nat → Prop) : Nat → List Nat → List Activation → Prop
  | main {n slots a} : frameOf code n = none → ActivationFits code fits n slots a →
      FramesFit code fits calls n slots [a]
  /-- A method stands above its call. -/
  | method {n slots a outer d i name r below} : frameOf code n = some d → code[d]? = some i →
      i.op = .defStart name → ActivationFits code fits n slots a → a.returnTo = some r →
      calls r d → (stateAt code (r + 1)).stack = r :: below →
      FramesFit code fits calls r below outer → FramesFit code fits calls n slots (a :: outer)
  /-- The body of a class stands above its opener. -/
  | cls {n slots a outer c i name} : frameOf code n = some c → code[c]? = some i →
      i.op = .classStart name → ActivationFits code fits n slots a →
      FramesFit code fits calls c (stateAt code c).stack outer →
      FramesFit code fits calls n slots (a :: outer)

/-- A state of the machine fits the replay. -/
structure StateFits (code : List Instruction) (fits : Nat → Value → Prop)
    (calls : Nat → Nat → Prop) (s : Machine.State) : Prop where
  next_le : s.next ≤ code.length
  frames : FramesFit code fits calls s.next (stateAt code s.next).stack s.frames

/-! ### Fitting more values -/

variable {code : List Instruction} {fits fits' : Nat → Value → Prop} {calls calls' : Nat → Nat → Prop}
  {n n' r : Nat} {v : Value} {slots slots' : List Nat} {a a' : Activation} {outer : List Activation}

theorem SlotFits.mono (hf : ∀ n v, fits n v → fits' n v) (h : SlotFits code fits n r v) :
    SlotFits code fits' n r v :=
  h.imp id fun h => ⟨h.1, hf _ _ h.2⟩

/-- An operand that was not skipped fits its record. -/
theorem SlotFits.fit (h : SlotFits code fits n r v) (hskip : ¬ Skipped code n r) : fits r v :=
  (h.resolve_left fun h => hskip h.1).2

/-- A weaker notion of fitting is met as well. -/
theorem ActivationFits.mono (hf : ∀ n v, fits n v → fits' n v)
    (h : ActivationFits code fits n slots a) : ActivationFits code fits' n slots a := by
  refine ⟨h.operands.imp fun _ _ => SlotFits.mono hf, ?_, ?_, h.owner, h.ifs⟩
  · exact fun name v hget q hq => hf _ _ (h.locals name v hget q hq)
  · intro q i k hq ho hframe
    obtain ⟨v, hv, hfit⟩ := h.args q i k hq ho hframe
    exact ⟨v, hv, hf _ _ hfit⟩

theorem FramesFit.mono (hf : ∀ n v, fits n v → fits' n v) (hc : ∀ r d, calls r d → calls' r d)
    (h : FramesFit code fits calls n slots outer) : FramesFit code fits' calls' n slots outer := by
  induction h with
  | main hframe ha => exact .main hframe (ha.mono hf)
  | method hframe hi ho ha hret hcall hbelow _ ih =>
    exact .method hframe hi ho (ha.mono hf) hret (hc _ _ hcall) hbelow ih
  | cls hframe hi ho ha _ ih => exact .cls hframe hi ho (ha.mono hf) ih

theorem StateFits.mono {s : Machine.State} (hf : ∀ n v, fits n v → fits' n v)
    (hc : ∀ r d, calls r d → calls' r d) (h : StateFits code fits calls s) :
    StateFits code fits' calls' s :=
  ⟨h.next_le, h.frames.mono hf hc⟩

/-! ### Moving on -/

/-- Of frames that fit, the innermost fits. -/
theorem FramesFit.activation (h : FramesFit code fits calls n slots (a :: outer)) :
    ActivationFits code fits n slots a := by
  cases h with
  | main _ ha => exact ha
  | method _ _ _ ha => exact ha
  | cls _ _ _ ha => exact ha

theorem FramesFit.exists_cons {frames : List Activation} (h : FramesFit code fits calls n slots frames) :
    ∃ a outer, frames = a :: outer := by
  cases h <;> exact ⟨_, _, rfl⟩

/-- The innermost activation may change and move on in its frame. -/
theorem FramesFit.move (h : FramesFit code fits calls n slots (a :: outer))
    (hframe : frameOf code n' = frameOf code n) (ha : ActivationFits code fits n' slots' a')
    (hret : a'.returnTo = a.returnTo) : FramesFit code fits calls n' slots' (a' :: outer) := by
  cases h with
  | main hn _ => exact .main (hframe.trans hn) ha
  | method hn hi ho _ hr hcall hbelow hrest =>
    exact .method (hframe.trans hn) hi ho ha (hret.trans hr) hcall hbelow hrest
  | cls hn hi ho _ hrest => exact .cls (hframe.trans hn) hi ho ha hrest

/-- An activation that moves on in its frame, with other operands. -/
theorem ActivationFits.move {stack : List Value} (h : ActivationFits code fits n slots a)
    (hframe : frameOf code n' = frameOf code n)
    (hcls : (stateAt code n').classes = (stateAt code n).classes)
    (hifs : (stateAt code n').ifs = (stateAt code n).ifs)
    (hops : List.Forall₂ (SlotFits code fits n') slots' stack) :
    ActivationFits code fits n' slots' { a with stack } := by
  -- Only the operands change; the rest depends on the frame, the class and the conditionals that
  -- are open.
  refine ⟨hops, ?_, ?_, ?_, ?_⟩
  · rw [hframe]
    exact h.locals
  · rw [hframe]
    exact h.args
  · rw [State.currentClass, hcls]
    exact h.owner
  · rw [hframe, hifs]
    exact h.ifs

/-- Operands are carried from one point to another if the same of them are skipped. -/
theorem slots_move {stack : List Value} (h : List.Forall₂ (SlotFits code fits n) slots stack)
    (hskip : ∀ r ∈ slots, Skipped code n' r ↔ Skipped code n r) :
    List.Forall₂ (SlotFits code fits n') slots stack := by
  induction h with
  | nil => exact .nil
  | cons hr _ ih =>
    refine .cons ?_ (ih fun r hmem => hskip r (.tail _ hmem))
    unfold SlotFits
    rw [hskip _ (.head _)]
    exact hr

/-- Operands that were not skipped fit their records. -/
theorem fits_of_slots {stack : List Value} (h : List.Forall₂ (SlotFits code fits n) slots stack)
    (hskip : ∀ r ∈ slots, ¬ Skipped code n r) : List.Forall₂ fits slots stack := by
  induction h with
  | nil => exact .nil
  | cons hr _ ih =>
    exact .cons (SlotFits.fit hr (hskip _ (.head _))) (ih fun r hmem => hskip r (.tail _ hmem))

/-- Between two points that a stretch of code joins, the same records are skipped. -/
theorem Replay.Replays.skipped_iff {left : List Nat} (h : Replays code n n' left) (hn : n ≤ n')
    (hr : r < n) : Skipped code n' r ↔ Skipped code n r :=
  ⟨h.skipped r hr, fun hs => hs.mono hn⟩

/-! ### Ends of branches -/

/-- At the end of a branch its conditional is the innermost one of the frame: an opener of the frame
that stood behind the conditional would have been closed by then. -/
theorem Branch.innermost {start opener value : Nat} {opened : List OpenIf}
    (hr : (trace code).error? = none) (h : Branch code start opener n value) (hn : n ≤ code.length)
    (hopened : (stateAt code n).ifs = opened ++ openIfs code (frameOf code n)) :
    ∃ opened', opened = ⟨opener, (stateAt code start).stack.length⟩ :: opened' ∧
      (stateAt code start).ifs = opened' ++ openIfs code (frameOf code n) := by
  obtain ⟨rest, hstate⟩ := h.state_eq hr
  rw [hstate] at hopened
  cases opened with
  | cons o opened' =>
    obtain ⟨rfl, hrest⟩ := List.cons.inj hopened
    exact ⟨opened', rfl, hrest⟩
  | nil =>
    cases hframe : frameOf code n with
    | none => rw [hframe] at hopened; cases hopened
    | some o =>
      have hmem : o ∈ openers code start := by
        rw [← h.openers_eq]
        exact List.mem_of_mem_head? hframe
      have hlt : o < start := openers_lt start o hmem
      have hstart := h.start_le
      have hopener := h.opener_lt
      rw [hframe, List.nil_append, openIfs] at hopened
      -- The conditional would be open already where the frame is opened, and so begin before it.
      have hin : ⟨opener, (stateAt code start).stack.length⟩ ∈ (stateAt code o).ifs := by
        rw [← hopened]
        exact .head _
      have hbefore : opener < o := ((opened_stateAt hr o (by omega)).ifs _ hin).1
      omega

/-- An activation closes a branch with its value and with the operands that it had before. -/
theorem ActivationFits.closeBranch {start value : Nat} {rest : List Nat} {opened : List OpenIf}
    (h : ActivationFits code fits n slots a)
    (hslots : slots = value :: (rest ++ (stateAt code start).stack))
    (hifs : a.ifs = (stateAt code start).stack.length :: opened.map OpenIf.height) :
    ∃ v base, SlotFits code fits n value v ∧
      List.Forall₂ (SlotFits code fits n) (stateAt code start).stack base ∧
      Machine.closeBranch a = .ok { a with stack := v :: base, ifs := opened.map OpenIf.height } := by
  have hops := h.operands
  rw [hslots] at hops
  obtain ⟨v, above, hv, habove, hstack⟩ := List.forall₂_cons_left_iff.mp hops
  -- What the branch has left above the operands from its start is dropped.
  have hbase := List.forall₂_drop rest.length habove
  rw [List.drop_left] at hbase
  refine ⟨v, above.drop rest.length, hv, hbase, ?_⟩
  rw [← List.take_append_drop rest.length above] at hstack
  exact closeBranch_eq hstack (hbase.length_eq ▸ hifs)

end Rubylet
