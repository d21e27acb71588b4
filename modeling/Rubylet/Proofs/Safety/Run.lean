import Rubylet.Proofs.Direct.Agreement
import Rubylet.Proofs.Safety.Call

/-!
# Runs of a typed program

Inference is sound for the machine (`machine_sound`). In every state of a run, each operand has the
type of the record that the replay has in its place, each local the type of its assignments and each
argument the type of its parameter. A run therefore ends with a value of the type that was found for
the last record, or stops for one of the reasons that types know nothing of (`Machine.Stops`).

The statement follows a run up to the first read of a local that has not been assigned. It asks that
no frame assigns classes to one local twice: inference tells classes apart by their names, and what
it then knows of the local is the first class alone.

The last of the reasons is easily overlooked. A text that is repeated too often is no error of
types, and the program fails without a message of its own (`repetition_too_long`).
-/

namespace Rubylet

open Replay Machine

/-- The type that a record was given. -/
def typeAt? (records : List TypedRecord) (n : Nat) : Option Ty :=
  records[n]?.bind TypedRecord.type?

/-- A value has the type of a record. -/
def HasStaticType (records : List TypedRecord) (n : Nat) (v : Value) : Prop :=
  typeAt? records n = some v.ty

/-- A record calls a method by its name. -/
def CallsByName (code : List Instruction) (r d : Nat) : Prop :=
  ∃ i name count j, code[r]? = some i ∧ i.op = .send name count ∧ code[d]? = some j ∧
    j.op = .defStart name

/-- No frame assigns classes to one of its locals twice. -/
def OneClass (code : List Instruction) (records : List TypedRecord) : Prop :=
  ∀ q q' name frame, Assigns code q name frame → Assigns code q' name frame →
    typeAt? records q = some .cls → typeAt? records q' = some .cls → q = q'

/-- The states of a run, up to the first read of a local that is not there. -/
inductive Machine.Visits (m : Machine) : Machine.State → Prop
  | initial : Visits m .initial
  | step {s s' : Machine.State} {i : Instruction} : Visits m s → ¬ m.ReadsUnbound s →
      m.code[s.next]? = some i → m.step i s = .next s' → Visits m s'

/-- A run that never reads such a local visits every state it reaches. -/
theorem Machine.Visits.of_reaches {m : Machine} {k : Nat} {s s' : Machine.State}
    (h : Reaches m k s s') (hbound : ∀ s, m.Visits s → ¬ m.ReadsUnbound s) (hs : m.Visits s) :
    m.Visits s' := by
  induction h with
  | refl s => exact hs
  | step hi hstep _ ih => exact ih (.step hs (hbound _ hs) hi hstep)

theorem Machine.Visits.reaches {m : Machine} {s : Machine.State} (h : m.Visits s) :
    ∃ k, Reaches m k .initial s := by
  induction h with
  | initial => exact ⟨0, .refl _⟩
  | step _ _ hi hstep ih =>
    obtain ⟨k, hk⟩ := ih
    exact ⟨k + 1, hk.trans (.single hi hstep)⟩

namespace Checked

variable {code : List Instruction} {g : Graph} {m : Machine} {statements : List Node}
  {i : Instruction} {s : Machine.State}

variable (c : Checked code g m statements)

include c

/-- **A step of a typed program** leads to a state that fits the replay, or stops for a reason. -/
theorem step (hs : StateFits code g.Holds (Calls code g) s) (hi : code[s.next]? = some i)
    (hbound : ¬ m.ReadsUnbound s) : Fares code g m s (m.step i s) := by
  obtain ⟨n, frames, l⟩ := s
  obtain ⟨hle, hframes⟩ := hs
  obtain ⟨a, outer, rfl⟩ := hframes.exists_cons
  obtain ⟨e, ho⟩ := c.built.occurs hi
  dsimp only at hframes ho
  unfold Machine.step
  cases hop : i.op with
  | pushNil =>
    exact c.step_literal hframes ho (.inl hop) (by rw [hop]; rfl) nofun
  | pushInt v =>
    exact c.step_literal hframes ho (.inr (.inl ⟨v, hop⟩)) (by rw [hop]; rfl) nofun
  | pushStr t =>
    exact c.step_literal hframes ho (.inr (.inr ⟨t, hop⟩)) (by rw [hop]; rfl) nofun
  | pushConst name =>
    obtain ⟨hin, h⟩ := c.step_pushConst (l := l) hframes ho hop
    simp only [hin, if_true]
    exact h
  | pushVar name =>
    cases hv : a.locals.get? name with
    | none =>
      -- The one read that types do not rule out, which is ruled out here.
      exact absurd ⟨i, name, a, outer, c.instruction ho, hop, rfl, hv⟩ hbound
    | some v =>
      simp only [hv, Option.getD_some]
      exact c.step_pushVar hframes ho hop hv
  | setVar name =>
    obtain ⟨v, rest, hstack, h⟩ := c.step_setVar (l := l) hframes ho hop
    simp only [hstack]
    exact h
  | pushArg k =>
    obtain ⟨v, hv, h⟩ := c.step_pushArg (l := l) hframes ho hop
    simp only [hv]
    exact h
  | send name count => exact c.step_send hframes ho hop
  | defStart name =>
    obtain ⟨j, hj, h⟩ := c.step_defStart (l := l) hframes ho hop
    simp only [jump, hj]
    exact h
  | defEnd name =>
    obtain ⟨r, caller, rest, hret, rfl, h⟩ := c.step_defEnd (l := l) hframes ho hop
    simp only [hret]
    exact h
  | classStart name =>
    obtain ⟨hin, h⟩ := c.step_classStart (l := l) hframes ho hop
    simp only [hin, if_true]
    exact h
  | classEnd name => exact c.step_classEnd hframes ho hop
  | ifStart =>
    obtain ⟨v, rest, j, hstack, hj, hthen, helse⟩ := c.step_ifStart (l := l) hframes ho hop
    simp only [hstack, jump, hj]
    split
    · exact hthen
    · exact helse
  | ifElse =>
    have hrole := c.role ho
    rw [hop] at hrole
    -- The first branch goes on behind the second one, where both have left the conditional.
    obtain ⟨k, start, opener, value, hlink, hlt, hk, hb, hj⟩ := hrole
    obtain ⟨a', hclose, h⟩ :=
      c.close_branch (l := l) hframes ho (.inl hop) hb hj (by omega) hk
    have hjump : m.jumps.get? n = some k := hlink
    simp only [hclose, jump, hjump]
    exact h
  | ifEnd =>
    have hrole := c.role ho
    rw [hop] at hrole
    obtain ⟨start, opener, value, hb, hj⟩ := hrole
    obtain ⟨a', hclose, h⟩ :=
      c.close_branch (l := l) hframes ho (.inr hop) hb hj (Nat.lt_succ_self n) ho.lt
    simp only [hclose]
    exact h
  | unknown opcode operand => exact absurd hop ho.ne_unknown

theorem fits_initial : StateFits code g.Holds (Calls code g) .initial := by
  refine ⟨Nat.zero_le _, .main rfl ?_⟩
  refine ⟨?_, nofun, ?_, ?_, [], ?_, rfl⟩
  · rw [Machine.State.initial, stateAt_zero]
    exact .nil
  -- The main program has no parameters.
  · intro q i k hq hop hframe
    obtain ⟨d, f, name, hd, -⟩ := c.frameOf_pushArg hq hop
    rw [hd] at hframe
    cases hframe
  · rw [Machine.State.initial, stateAt_zero]
    rfl
  · rw [Machine.State.initial, stateAt_zero]
    rfl

/-- **Every state of a run fits the replay.** -/
theorem fits (h : m.Visits s) : StateFits code g.Holds (Calls code g) s := by
  induction h with
  | initial => exact c.fits_initial
  | step _ hbound hi hstep ih =>
    rw [c.loaded.code_eq, List.getElem?_toArray] at hi
    have hfares := c.step ih hi hbound
    rw [hstep] at hfares
    exact hfares

/-- **A run never gets stuck**: where there is an instruction, it is executed or stops for a
reason. -/
theorem progress (h : m.Visits s) (hbound : ¬ m.ReadsUnbound s) (hi : m.code[s.next]? = some i) :
    (∃ s', m.step i s = .next s') ∨ ∃ e s', m.step i s = .stop e s' ∧ m.Stops s e := by
  rw [c.loaded.code_eq, List.getElem?_toArray] at hi
  have hfares := c.step (c.fits h) hi hbound
  cases hstep : m.step i s with
  | next s' => exact .inl ⟨s', rfl⟩
  | stop e s' =>
    rw [hstep] at hfares
    exact .inr ⟨e, s', rfl, hfares⟩

/-- Behind the code only the main program is left, with an operand for every record that the replay
ended with. -/
theorem main_of_end (h : m.Visits s) (hend : m.code[s.next]? = none) :
    ∃ main, s.frames = [main] ∧
      List.Forall₂ (SlotFits code g.Holds code.length) (trace code).final.stack main.stack := by
  obtain ⟨hle, hframes⟩ := c.fits h
  rw [c.loaded.code_eq, List.getElem?_toArray, List.getElem?_eq_none_iff] at hend
  obtain hnext : s.next = code.length := by omega
  obtain ⟨left, hreplays, -⟩ := c.loaded.layout.replays c.replayed
  -- All frames are closed again, so neither a method nor a class is left running.
  have hmain : frameOf code code.length = none := by rw [frameOf, hreplays.openers_eq]; rfl
  rw [hnext] at hframes
  rw [← stateAt_of_length_le (Nat.le_refl _)]
  cases hs : s.frames with
  | nil => rw [hs] at hframes; cases hframes
  | cons a outer =>
    rw [hs] at hframes
    cases hframes with
    | main _ ha => exact ⟨a, rfl, ha.operands⟩
    | method hframe => rw [hmain] at hframe; cases hframe
    | cls hframe => rw [hmain] at hframe; cases hframe

end Checked

/-- What a program with some code ends with: its value belongs to the record that the replay ends
with, if there is one. -/
def ResultFits (code : List Instruction) (fits : Nat → Value → Prop) (v : Value) : Prop :=
  match (trace code).final.top? with
  | none => v = .nil
  | some r => SlotFits code fits code.length r v

/-- The value on top fits the record on top. -/
theorem resultFits_of_forall₂ {code : List Instruction} {fits : Nat → Value → Prop}
    {stack : List Value}
    (h : List.Forall₂ (SlotFits code fits code.length) (trace code).final.stack stack) :
    ResultFits code fits (stack.headD .nil) := by
  unfold ResultFits
  rw [State.top?, OperandStack.peek]
  -- Either both stacks are empty, and the result is nil, or both have a top.
  cases hs : (trace code).final.stack with
  | nil =>
    rw [hs] at h
    cases h
    rfl
  | cons r rest =>
    rw [hs] at h
    cases h with
    | cons hr _ => exact hr

theorem ResultFits.mono {code : List Instruction} {fits fits' : Nat → Value → Prop} {v : Value}
    (hf : ∀ n v, fits n v → fits' n v) (h : ResultFits code fits v) :
    ResultFits code fits' v := by
  unfold ResultFits at h ⊢
  split at h
  · exact h
  · exact h.mono hf

/-- **A run of a typed program** ends with a value that fits, or in a state that it visits. -/
theorem Checked.run_cases {code : List Instruction} {g : Graph} {m : Machine}
    {statements : List Node} (c : Checked code g m statements)
    (hbound : ∀ s, m.Visits s → ¬ m.ReadsUnbound s) :
    (∃ v, m.run = .ok v ∧ ResultFits code g.Holds v) ∨
      ∃ s e, m.Visits s ∧ m.run = .error e ∧ m.Stops s e := by
  obtain ⟨last, hend⟩ := Direct.exists_outcome c.loaded .start
  have hrun : m.run = Direct.run m.memory maxCallDepth (.block .start statements) := by
    rw [Machine.run, hend, Outcome.value]
  rw [← hrun, outcome, runRounds_eq] at hend
  -- A run that has ended either came behind the code or stopped at an instruction.
  obtain ⟨k, s, hr, hcases⟩ := ended_cases _ _ hend
  have hs := Visits.of_reaches hr hbound .initial
  rcases hcases with ⟨hbehind, hresult⟩ | ⟨i, e, s', hi, hstop, hresult⟩
  · obtain ⟨main, hframes, hops⟩ := c.main_of_end hs hbehind
    refine .inl ⟨main.stack.headD .nil, ?_, resultFits_of_forall₂ hops⟩
    rw [hresult, Machine.result, hframes]
    rfl
  · refine .inr ⟨s, e, hs, hresult, ?_⟩
    rcases c.progress hs (hbound s hs) hi with ⟨s'', hnext⟩ | ⟨e', s'', hstop', hreason⟩
    · rw [hstop] at hnext
      cases hnext
    · rw [hstop] at hstop'
      cases hstop'
      exact hreason

/-! ### The main result -/

variable {source : String} {code : List Instruction} {records : List TypedRecord}

/-- The records of inference carry the types of the graph. -/
theorem typeAt?_of_hasType {g : Graph} {n : Nat} {t : Ty} (hg : Graph.build code = .ok g)
    (hr : infer code = .ok records) (h : g.HasType (.record n) t) : typeAt? records n = some t := by
  have hn : n < code.length := by
    rw [← (Graph.built_of_build hg).size_eq]
    exact Store.lt_size_of_hasType h
  obtain ⟨u, hu, ht⟩ := getElem?_of_infer hg hr (List.getElem?_eq_getElem hn)
  rw [typeAt?, hu, h.unique ht]
  rfl

/-- A single assignment may stand for the classes that it may stand for. -/
theorem OneClass.sameClasses {g : Graph} (hone : OneClass code records)
    (hg : Graph.build code = .ok g) (hr : infer code = .ok records) : SameClasses code g := by
  intro q q' name frame c hq hq' ht ht' hyields
  obtain rfl := hone q q' name frame hq hq' (typeAt?_of_hasType hg hr ht)
    (typeAt?_of_hasType hg hr ht')
  exact hyields

/-- What is known of a compiled program in which no local is two classes. -/
theorem Compiled.checked {statements : List Node} {g : Graph} {m : Machine}
    (h : Compiled statements code g records m) (hsame : SameClasses code g) :
    Checked code g m statements := by
  refine ⟨Graph.built_of_build h.built, h.loaded, fun n hn => ?_, hsame⟩
  obtain ⟨t, -, ht⟩ := getElem?_of_infer h.built h.inferred (List.getElem?_eq_getElem hn)
  exact ⟨t, ht⟩

/-- **Inference is sound for the machine.** A program that can be typed can be loaded. Every state
of its run, up to the first read of a local that is not there, fits the replay by the types of the
records, and the next step is possible unless there is a reason to stop. A run without such a read
ends with a value of the type of the record that the replay ends with, or stops for a reason. -/
theorem machine_sound (hcode : Program.code source = .ok code) (hinfer : infer code = .ok records)
    (hone : OneClass code records) (memory : Nat) :
    ∃ m, Machine.load memory records = .ok m ∧
      (∀ s, m.Visits s → StateFits code (HasStaticType records) (CallsByName code) s) ∧
      (∀ s i, m.Visits s → ¬ m.ReadsUnbound s → m.code[s.next]? = some i →
        (∃ s', m.step i s = .next s') ∨ ∃ e s', m.step i s = .stop e s' ∧ m.Stops s e) ∧
      ((∀ s, m.Visits s → ¬ m.ReadsUnbound s) →
        (∃ v, Program.value memory .vm source = .ok v ∧ ResultFits code (HasStaticType records) v) ∨
        ∃ s e, m.Visits s ∧ Program.value memory .vm source = .error (.run e) ∧ m.Stops s e) := by
  have htyped := typed_eq_ok_iff.mpr ⟨code, hcode, hinfer⟩
  obtain ⟨statements, g, m, -, hc, rfl⟩ := compiled_of_code hcode hinfer memory
  -- The static notion of fitting implies the one by records, which is what the steps preserve.
  have c := hc.checked (hone.sameClasses hc.built hinfer)
  have hholds : ∀ n v, g.Holds n v → HasStaticType records n v := fun n v h =>
    typeAt?_of_hasType hc.built hc.inferred h.type
  refine ⟨m, hc.loads, ?_, ?_, ?_⟩
  · intro s hs
    exact (c.fits hs).mono hholds fun r d h => h.call
  · intro s i hs hbound hi
    exact c.progress hs hbound hi
  -- With no local read before it is bound, the run has no other way to end.
  · intro hbound
    rw [hc.value_eq_run htyped]
    rcases c.run_cases hbound with ⟨v, hv, hfits⟩ | ⟨s, e, hs, he, hstops⟩
    · exact .inl ⟨v, by rw [hv]; rfl, hfits.mono hholds⟩
    · exact .inr ⟨s, e, hs, by rw [he]; rfl, hstops⟩

/-- No local is assigned twice. -/
theorem Sample.oneClass_pick (records : List TypedRecord) : OneClass Sample.pickCode records := by
  -- Two assignments to a local have the same operation, and no operation is there twice.
  have hops : ∀ q q' : Fin Sample.pickCode.length, Sample.pickCode[q].op.opcode = "set_var" →
      Sample.pickCode[q].op = Sample.pickCode[q'].op → q = q' := by
    decide +kernel
  rintro q q' name frame ⟨⟨i, hi, ho⟩, -⟩ ⟨⟨i', hi', ho'⟩, -⟩ - -
  obtain ⟨hq, rfl⟩ := List.getElem?_eq_some_iff.mp hi
  obtain ⟨hq', rfl⟩ := List.getElem?_eq_some_iff.mp hi'
  exact congrArg Fin.val (hops ⟨q, hq⟩ ⟨q', hq'⟩ (by simp [ho, Operation.opcode])
    (by simp [ho, ho']))

theorem machine_sound_pick : ∃ records, infer Sample.pickCode = .ok records ∧
    OneClass Sample.pickCode records ∧ ∃ m, Machine.load Sample.memory records = .ok m ∧
      (∀ s, m.Visits s →
        StateFits Sample.pickCode (HasStaticType records) (CallsByName Sample.pickCode) s) ∧
      (∀ s i, m.Visits s → ¬ m.ReadsUnbound s → m.code[s.next]? = some i →
        (∃ s', m.step i s = .next s') ∨ ∃ e s', m.step i s = .stop e s' ∧ m.Stops s e) ∧
      ((∀ s, m.Visits s → ¬ m.ReadsUnbound s) →
        (∃ v, Program.value Sample.memory .vm Sample.pick = .ok v ∧
          ResultFits Sample.pickCode (HasStaticType records) v) ∨
        ∃ s e, m.Visits s ∧ Program.value Sample.memory .vm Sample.pick = .error (.run e) ∧
          m.Stops s e) := by
  obtain ⟨records, hr⟩ := exists_of_isOk Sample.infer_isOk.1
  have hone := Sample.oneClass_pick records
  exact ⟨records, hr, hone, machine_sound Sample.code_pick hr hone Sample.memory⟩

/-- **A text may be too long**: a program without locals, whose types are found, stops for neither
of the reasons that have a message. -/
theorem repetition_too_long : ∃ code records, Program.code Sample.repetition = .ok code ∧
    infer code = .ok records ∧ OneClass code records ∧
    (∀ i ∈ code, ∀ name, i.op ≠ .pushVar name) ∧
    Program.value Sample.memory .vm Sample.repetition = .error (.run (.fault .beyondIndex)) := by
  have hinfer : infer Sample.repetitionCode = .ok Sample.repetitionRecords := by decide +kernel
  have htyped := typed_eq_ok_iff.mpr ⟨_, Sample.code_repetition, hinfer⟩
  refine ⟨_, _, Sample.code_repetition, hinfer, ?_, by simp [Sample.repetitionCode], ?_⟩
  · rintro q q' name frame ⟨⟨i, hi, ho⟩, -⟩ - - -
    -- There are no assignments in the code at all.
    have hmem := List.mem_of_getElem? hi
    simp only [Sample.repetitionCode, List.mem_cons, List.not_mem_nil, or_false] at hmem
    rcases hmem with rfl | rfl | rfl <;> cases ho
  · have hrun : Program.execute Sample.memory .vm Sample.repetitionRecords =
        .error (.fault .beyondIndex) := by
      decide +kernel
    rw [value_eq_execute htyped, hrun]
    rfl

end Rubylet
