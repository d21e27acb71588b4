import Mathlib.Algebra.Ring.Nat
import Rubylet.Proofs.Direct.Simulation

/-!
# The machine agrees with direct evaluation

A program that has been compiled is run by lowering it, loading the code and stepping through it.
`value_eq_direct` says that all this has the result of evaluating the syntax directly: the same
value, or the same error at the same record.

What is left to show is that the run ends within the steps that the machine is given. In a frame an
instruction takes part at most once, and the calls that start from it are nested no deeper than
`maxCallDepth`; that bounds the steps by a power (`cost_le_pow`).
-/

namespace Rubylet

open Machine Direct

namespace Direct

theorem cost_le_pow (size : Nat) : ∀ room, cost size room ≤ (size + 1) ^ room := by
  intro room
  induction room with
  | zero => exact Nat.le_refl 1
  | succ room ih =>
    have hpos : 0 < (size + 1) ^ room := Nat.pow_pos (Nat.succ_pos size)
    have hmul := Nat.mul_le_mul_left size ih
    rw [cost, Nat.pow_succ, Nat.mul_add, Nat.mul_one, Nat.mul_comm _ size]
    omega

/-- A run through all of the code stays within the steps of its rounds. -/
theorem cost_lt_rounds (size depth steps : Nat) (hsteps : 1 < steps) :
    size * cost size (depth - 1) < steps * Nat.pow (size + 1) (depth + 2) := by
  have hpow := Nat.mul_le_mul (Nat.le_add_right size 1) (cost_le_pow size (depth - 1))
  have hpos : 0 < (size + 1) ^ (depth + 2) := Nat.pow_pos (Nat.succ_pos size)
  have hle : (size + 1) * (size + 1) ^ (depth - 1) ≤ (size + 1) ^ (depth + 2) := by
    rw [Nat.mul_comm, ← Nat.pow_succ]
    exact Nat.pow_le_pow_right (Nat.succ_pos size) (by omega)
  have hmul := Nat.mul_le_mul_right ((size + 1) ^ (depth + 2)) hsteps
  change _ < steps * (size + 1) ^ (depth + 2)
  omega

/-- **A loaded machine ends** with the value of its program. -/
theorem exists_outcome {m : Machine} {code : List Instruction} {statements : List Node}
    (hl : Loaded m code statements) (pos : Pos) :
    ∃ s, m.outcome = .ended (Direct.run m.memory maxCallDepth (.block pos statements)) s := by
  have hcalls := carries_callers hl (maxCallDepth - 1)
  have hready : Ready m code (declared statements) none (maxCallDepth - 1)
      (frame m.memory (declared statements) (maxCallDepth - 1) none) := ⟨rfl, hcalls.1, fun _ => hcalls.2⟩
  have hmain := simulates hl hl.layout hready (.fresh [] none none) [] [] rfl rfl
  have hcount := hl.layout.eq_add_count
  have hsize : m.code.size = code.length := by rw [hl.code_eq, List.size_toArray]
  rw [Nat.zero_add] at hcount
  -- Both sides speak of what the statements evaluate to, so it is a variable from here on.
  generalize hx : (evalAll (declared statements)
    (frame m.memory (declared statements) (maxCallDepth - 1) none) 0 statements).run .empty = x
  have hlead : m.Leads (code.length * cost code.length (maxCallDepth - 1)) .initial
      ((x.map fun r => { Activation.fresh [] none none with
        stack := (left statements r.1).reverse ++ [], locals := r.2 }).map
          fun main => (m.code.size, [main])) := by
    have h : m.Leads _ _ (((evalAll (declared statements) (frame m.memory (declared statements)
      (maxCallDepth - 1) none) 0 statements).run .empty).map _) := hmain
    rw [hx, ← hcount] at h
    rw [hsize]
    cases x <;> exact h
  obtain ⟨s, hs⟩ := outcome_of_leads hlead (by
    rw [rounds, hsize]
    exact cost_lt_rounds code.length maxCallDepth roundSteps (by decide))
  refine ⟨s, hs.trans (congrArg (Outcome.ended · s) ?_)⟩
  simp only [Direct.run, statementsOf, inNewFrame, StateT.run'_eq, StateT.run_bind, hx]
  cases x with
  | error e => rfl
  | ok r =>
    refine congrArg Except.ok ?_
    -- The top of the stack is the last of the values left.
    change ((left statements r.1).reverse ++ []).headD .nil = (left statements r.1).getLastD .nil
    rw [List.append_nil, List.headD_eq_head?_getD, List.head?_reverse, List.getLastD_eq_getLast?]

theorem run_eq_run {m : Machine} {code : List Instruction} {statements : List Node}
    (hl : Loaded m code statements) (pos : Pos) :
    m.run = Direct.run m.memory maxCallDepth (.block pos statements) := by
  obtain ⟨s, hs⟩ := exists_outcome hl pos
  rw [Machine.run, hs, Outcome.value]

end Direct

theorem Compiled.value_eq_run {statements : List Node} {code : List Instruction} {g : Graph}
    {records : List TypedRecord} {m : Machine} {source : String}
    (hc : Compiled statements code g records m) (h : Program.typed source = .ok records) :
    Program.value m.memory .vm source = m.run.mapError .run := by
  simp only [value_eq_execute h m.memory, Program.execute, hc.loads, bind, Except.bind]

/-- **The machine evaluates programs directly.** Every program that can be compiled has the value
that evaluating its syntax yields, or fails with the same error at the same record. -/
theorem value_eq_direct {source : String} {records : List TypedRecord}
    (h : Program.typed source = .ok records) (memory : Nat) :
    ∃ root, Syntax.read source = .ok root ∧
      Program.value memory .vm source =
        (Direct.run memory Machine.maxCallDepth root).mapError .run := by
  obtain ⟨statements, code, g, m, hread, hc, rfl⟩ := compiled_of_typed h memory
  exact ⟨_, hread, by rw [hc.value_eq_run h, run_eq_run hc.loaded .start]⟩

theorem value_eq_direct_pick : ∃ records, Program.typed Sample.pick = .ok records ∧
    ∃ root, Syntax.read Sample.pick = .ok root ∧ Program.value Sample.memory .vm Sample.pick =
      (Direct.run Sample.memory Machine.maxCallDepth root).mapError .run := by
  obtain ⟨records, hr⟩ := exists_of_isOk Sample.infer_isOk.1
  have h := typed_eq_ok_iff.mpr ⟨_, Sample.code_pick, hr⟩
  exact ⟨records, h, value_eq_direct h Sample.memory⟩

end Rubylet
