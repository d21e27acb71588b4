import Rubylet.Instruction.Lowering
import Rubylet.Machine
import Rubylet.Native.Execution
import Rubylet.Syntax.Read

/-!
# Programs

From the text of a program to its code, its types and its value.

`Program.code`, `Program.typed` and `Program.value` answer the result alone. Each has a companion
in `Program.Report`, which also tells in order what the stages had to say up to the result or the
failure. `result_reportTyped` and `result_reportValue` say that a report is about that very result.
-/

namespace Rubylet

/-- Why a program has no value. -/
inductive Failure where
  | stage (error : StageError)
  | run (error : RunError)
  deriving Repr, DecidableEq, Inhabited

namespace Failure

/-- The failure of a program that is refused. -/
def compile (e : CompileError) : Failure := .stage (.compile e)

end Failure

namespace Program

/-- The code of a syntax tree. -/
def codeOf (root : Node) : Except StageError (List Instruction) :=
  (Lowering.program root).mapError .compile

/-- The code of a program. -/
def code (source : String) : Except StageError (List Instruction) := do
  codeOf (← Syntax.read source)

/-- A program has the code of its syntax tree. -/
theorem code_eq_ok_iff {source : String} {instructions : List Instruction} :
    code source = .ok instructions ↔
      ∃ root, Syntax.read source = .ok root ∧ Lowering.program root = .ok instructions := by
  unfold code codeOf
  constructor
  · intro h
    obtain ⟨root, hroot, hcode⟩ := exists_of_bind_eq_ok h
    exact ⟨root, hroot, mapError_eq_ok_iff.mp hcode⟩
  · rintro ⟨root, hroot, hcode⟩
    rw [hroot]
    exact mapError_eq_ok_iff.mpr hcode

/-- The typed code of a program. -/
def typed (source : String) : Except StageError (List TypedRecord) := do
  infer (← code source)

/-- The value of typed code. The stack machine has room for texts up to a length of `memory`. -/
def execute (memory : Nat) (backend : Backend) (records : List TypedRecord) :
    Except RunError Value :=
  match backend with
  | .vm => do (← Machine.load memory records).run
  | .jit => Native.run records

/-- The value of a program. -/
def value (memory : Nat) (backend : Backend) (source : String) : Except Failure Value := do
  (execute memory backend (← (typed source).mapError .stage)).mapError .run

/-! ### Reports -/

/-- A result together with what was said on the way to it. -/
structure Report (α : Type) where
  notices : List Notice
  result : Except Failure α

namespace Report

/-- A result without notices. -/
def ofExcept {α : Type} (result : Except Failure α) : Report α := ⟨[], result⟩

/-- Goes on from a result. -/
def andThen {α β : Type} (r : Report α) (next : α → Report β) : Report β :=
  match r.result with
  | .error e => ⟨r.notices, .error e⟩
  | .ok a =>
    let last := next a
    ⟨r.notices ++ last.notices, last.result⟩

/-- A result that is made into another one. -/
def map {α β : Type} (f : α → β) (r : Report α) : Report β := ⟨r.notices, r.result.map f⟩

/-- A result that is made into another one, if that can be done. -/
def bind {α β : Type} (r : Report α) (f : α → Except Failure β) : Report β :=
  ⟨r.notices, r.result.bind f⟩

/-- A result that is told about. -/
def telling {α : Type} (result : Except Failure α) (notice : α → Notice) : Report α :=
  match result with
  | .error e => ⟨[], .error e⟩
  | .ok a => ⟨[notice a], .ok a⟩

@[simp] theorem result_map {α β : Type} (f : α → β) (r : Report α) :
    (r.map f).result = r.result.map f := rfl

@[simp] theorem result_bind {α β : Type} (r : Report α) (f : α → Except Failure β) :
    (r.bind f).result = r.result.bind f := rfl

@[simp] theorem result_telling {α : Type} (result : Except Failure α) (notice : α → Notice) :
    (telling result notice).result = result := by
  cases result <;> rfl

theorem result_andThen {α β : Type} (r : Report α) (next : α → Report β) :
    (r.andThen next).result = r.result.bind fun a => (next a).result := by
  unfold andThen
  cases r.result <;> rfl

end Report

/-- Lowers a program. -/
def reportCode (source : String) : Report (List Instruction) :=
  .telling ((code source).mapError .stage) fun code => .lowered code.length

/-- Infers the types of code. -/
def reportInference (code : List Instruction) : Report (List TypedRecord) :=
  match Graph.build code with
  | .error e => ⟨Graph.notices code, .error (.stage e)⟩
  | .ok g =>
    match (Inference.resolveAll g).run.run (.ofGraph g) with
    | (.error e, store) => ⟨Graph.notices code ++ store.notices g, .error (.compile e)⟩
    | (.ok types, store) =>
      ⟨Graph.notices code ++ store.notices g ++ [.typedAll types.length],
        .ok (store.typedRecords g)⟩

/-- Compiles a program to typed code. -/
def reportTyped (source : String) : Report (List TypedRecord) :=
  (reportCode source).andThen reportInference

/-- Runs typed code on the stack machine. -/
def reportMachine (memory : Nat) (records : List TypedRecord) : Report Value :=
  match Machine.load memory records with
  | .error e => .ofExcept (.error (.run e))
  | .ok m =>
    let outcome := m.outcome
    ⟨outcome.notices, outcome.value.mapError .run⟩

/-- Runs typed code as native code. -/
def reportNative (records : List TypedRecord) : Report Value :=
  match Native.compile records with
  | .error e => .ofExcept (.error (.run e))
  | .ok p => ⟨p.notices, (p.value records).mapError .run⟩

/-- Runs a program. -/
def reportValue (memory : Nat) (backend : Backend) (source : String) : Report Value :=
  (reportTyped source).andThen fun records =>
    (Report.mk [.running records.length backend.name] (.ok ())).andThen fun _ =>
      match backend with
      | .vm => reportMachine memory records
      | .jit => reportNative records

/-! ### Reports and results -/

/-- The report of an inference is about its result. -/
theorem result_reportInference (code : List Instruction) :
    (reportInference code).result = (infer code).mapError .stage := by
  unfold reportInference infer
  cases Graph.build code with
  | error e => rfl
  | ok g =>
    simp only [bind, Except.bind]
    generalize (Inference.resolveAll g).run.run (.ofGraph g) = found
    obtain ⟨types, store⟩ := found
    cases types <;> rfl

/-- The report of a compilation is about its result. -/
theorem result_reportTyped (source : String) :
    (reportTyped source).result = (typed source).mapError .stage := by
  unfold reportTyped reportCode typed
  rw [Report.result_andThen, Report.result_telling]
  cases code source with
  | error e => rfl
  | ok code => exact result_reportInference code

/-- **The report of a run is about the program's value**, on either backend. -/
theorem result_reportValue (memory : Nat) (backend : Backend) (source : String) :
    (reportValue memory backend source).result = value memory backend source := by
  unfold reportValue value
  rw [Report.result_andThen, result_reportTyped]
  cases (typed source).mapError Failure.stage with
  | error e => rfl
  | ok records =>
    cases backend with
    | vm =>
      show ((Report.mk _ _).andThen _).result = _
      rw [Report.result_andThen]
      show (reportMachine memory records).result =
        (Machine.load memory records >>= Machine.run).mapError .run
      unfold reportMachine
      cases Machine.load memory records with
      | error e => rfl
      | ok m => simp only [bind, Except.bind, Machine.run]
    | jit =>
      show ((Report.mk _ _).andThen _).result = _
      rw [Report.result_andThen]
      show (reportNative records).result = (Native.run records).mapError .run
      unfold reportNative Native.run
      cases Native.compile records <;> rfl

end Program

end Rubylet
