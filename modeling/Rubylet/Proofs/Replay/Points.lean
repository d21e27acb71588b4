import Rubylet.Replay

/-!
# Points of a replay

A replay goes through the instructions in text order, so every number up to the length of the code
is a *point*: `stateAt code n` is the state before the instruction with the number `n`. When a
replay meets no error, every instruction `Occurs` with one event between the state at its point and
the state at the next one (`exists_occurs`), and that is the step that the trace holds for it
(`getElem?_steps`).

A stage that folds over the steps of a trace has a state at every point too. `foldAt` is that
state, and `foldAt_succ` its law: a fold that goes through refuses no step on its way.
-/

namespace Rubylet.Replay

variable {code : List Instruction} {n : Nat} {i : Instruction}

/-- The state before the instruction with a number: the state that the instructions before it
lead to. -/
def stateAt (code : List Instruction) (n : Nat) : State := (trace (code.take n)).final

/-- Between two points of a replay stands an instruction, and what it consumes is its event. -/
def Occurs (code : List Instruction) (n : Nat) (i : Instruction) (e : Event) : Prop :=
  code[n]? = some i ∧ step n i (stateAt code n) = .ok (e, stateAt code (n + 1))

/-- An instruction has one event. -/
theorem Occurs.unique {i' : Instruction} {e e' : Event} (h : Occurs code n i e)
    (h' : Occurs code n i' e') : i = i' ∧ e = e' := by
  obtain ⟨hi, hs⟩ := h
  obtain ⟨hi', hs'⟩ := h'
  obtain rfl : i = i' := Option.some.inj (hi.symm.trans hi')
  have := Except.ok.inj (hs.symm.trans hs')
  exact ⟨rfl, congrArg Prod.fst this⟩

theorem Occurs.lt {e : Event} (h : Occurs code n i e) : n < code.length :=
  (List.getElem?_eq_some_iff.mp h.1).1

/-! ### Traces in parts -/

@[simp] theorem traceFrom_nil (k : Nat) (s : State) : traceFrom k s [] = ⟨[], s, none⟩ := rfl

/-- A trace of code that is continued: what comes later starts from where the first part ended. -/
theorem traceFrom_append (ys : List Instruction) :
    ∀ (xs : List Instruction) (k : Nat) (s : State), (traceFrom k s xs).error? = none →
      traceFrom k s (xs ++ ys) =
        let rest := traceFrom (k + xs.length) (traceFrom k s xs).final ys
        { rest with steps := (traceFrom k s xs).steps ++ rest.steps } := by
  intro xs
  -- The first step leads to a state from which the rest is replayed, so the state is arbitrary.
  induction xs with
  | nil => intro k s _; simp
  | cons x xs ih =>
    intro k s h
    simp only [List.cons_append, traceFrom] at h ⊢
    cases hx : step k x s with
    | error e => simp [hx] at h
    | ok r =>
      obtain ⟨event, after⟩ := r
      simp only [hx, Trace.cons] at h ⊢
      rw [ih (k + 1) after h]
      simp [Nat.add_assoc, Nat.add_comm 1]

/-- The first part of code that is replayed without an error is replayed without one. -/
theorem error?_of_append {ys : List Instruction} :
    ∀ (xs : List Instruction) (k : Nat) (s : State), (traceFrom k s (xs ++ ys)).error? = none →
      (traceFrom k s xs).error? = none := by
  intro xs
  induction xs with
  | nil => intro k s _; rfl
  | cons x xs ih =>
    intro k s h
    simp only [List.cons_append, traceFrom] at h ⊢
    -- The first step fails for the whole code as for its front.
    cases hx : step k x s with
    | error e => simp [hx] at h
    | ok r => simp only [hx, Trace.cons] at h ⊢; exact ih _ _ h

/-- A trace without an error holds one step for every instruction. -/
theorem length_steps :
    ∀ (xs : List Instruction) (k : Nat) (s : State), (traceFrom k s xs).error? = none →
      (traceFrom k s xs).steps.length = xs.length := by
  intro xs
  induction xs with
  | nil => intro k s _; rfl
  | cons x xs ih =>
    intro k s h
    simp only [traceFrom] at h ⊢
    -- As long as no record is refused each one adds a step.
    cases hx : step k x s with
    | error e => simp [hx] at h
    | ok r => simp only [hx, Trace.cons] at h ⊢; simp [ih _ _ h]

/-- A code that replays without error does so up to any point. -/
theorem error?_take (h : (trace code).error? = none) (n : Nat) :
    (trace (code.take n)).error? = none := by
  refine @error?_of_append (code.drop n) _ _ _ ?_
  rw [List.take_append_drop]
  exact h

/-- The steps of the first instructions are the first steps. -/
theorem steps_take (h : (trace code).error? = none) (n : Nat) :
    (trace (code.take n)).steps = (trace code).steps.take n := by
  have hn := error?_take h n
  have split := traceFrom_append (code.drop n) (code.take n) 0 .initial hn
  rw [List.take_append_drop] at split
  have hlen : (trace (code.take n)).steps.length = (code.take n).length := length_steps _ _ _ hn
  have hall : (trace code).steps.length = code.length := length_steps _ _ _ h
  obtain ⟨rest, hrest⟩ : ∃ rest, (trace code).steps = (trace (code.take n)).steps ++ rest :=
    ⟨_, congrArg Trace.steps split⟩
  rw [List.length_take] at hlen
  rcases Nat.le_total n code.length with hle | hle
  · rw [hrest, List.take_append_of_le_length (by omega)]
    exact (List.take_of_length_le (by omega)).symm
  -- Beyond the end of the code there is nothing left to take.
  · rw [List.take_of_length_le hle]
    exact (List.take_of_length_le (by omega)).symm

/-! ### Instructions between points -/

@[simp] theorem stateAt_zero (code : List Instruction) : stateAt code 0 = .initial := by
  simp [stateAt, trace]

theorem stateAt_of_length_le (h : code.length ≤ n) : stateAt code n = (trace code).final := by
  rw [stateAt, List.take_of_length_le h]

/-- **Every instruction of replayed code occurs**, with the event that the trace holds for it. -/
theorem exists_occurs (h : (trace code).error? = none) (hi : code[n]? = some i) :
    ∃ e, Occurs code n i e ∧ (trace code).steps[n]? = some ⟨n, i, e, stateAt code (n + 1)⟩ := by
  obtain ⟨hn, rfl⟩ := List.getElem?_eq_some_iff.mp hi
  have hlen : (code.take n).length = n := by
    rw [List.length_take, Nat.min_eq_left (Nat.le_of_lt hn)]
  have hsplit : code.take (n + 1) = code.take n ++ [code[n]] := (List.take_append_getElem hn).symm
  -- The code that ends with the instruction is the code before it, continued by this instruction.
  have happ := traceFrom_append [code[n]] (code.take n) 0 .initial (error?_take h n)
  have hnext := error?_take h (n + 1)
  rw [hsplit, trace, happ, hlen, Nat.zero_add] at hnext
  have hstate : stateAt code (n + 1) = (traceFrom n (stateAt code n) [code[n]]).final := by
    rw [stateAt, hsplit, trace, happ, hlen, Nat.zero_add]; rfl
  have hsteps : (trace (code.take (n + 1))).steps =
      (trace (code.take n)).steps ++ (traceFrom n (stateAt code n) [code[n]]).steps := by
    rw [hsplit, trace, happ, hlen, Nat.zero_add]; rfl
  have hnlen : (trace (code.take n)).steps.length = n := by
    rw [trace, length_steps _ _ _ (error?_take h n), hlen]
  change (traceFrom n (stateAt code n) [code[n]]).error? = none at hnext
  rw [steps_take h] at hsteps
  -- That was replayed without an error, so the step of the instruction does not fail.
  cases hx : step n code[n] (stateAt code n) with
  | error e => simp [traceFrom, hx] at hnext
  | ok r =>
    obtain ⟨event, after⟩ := r
    simp only [traceFrom, hx, Trace.cons] at hstate hsteps
    refine ⟨event, ⟨hi, by rw [hx, hstate]⟩, ?_⟩
    have : (trace code).steps[n]? = ((trace code).steps.take (n + 1))[n]? := by
      rw [List.getElem?_take_of_lt (Nat.lt_succ_self n)]
    rw [this, hsteps, List.getElem?_append_right (by omega), hnlen, hstate]
    simp

/-! ### Folds over the steps -/

section Fold

variable {σ ε : Type} {f : σ → Step → Except ε σ} {s w : σ}

theorem fold_cons {t : Step} {rest : List Step} (h : f s t = .ok w) :
    fold f s (t :: rest) = fold f w rest := by
  rw [fold, h]

/-- The state of a fold before the step with a number. -/
def foldAt (f : σ → Step → Except ε σ) (s : σ) (steps : List Step) (n : Nat) : σ :=
  (fold f s (steps.take n)).1

@[simp] theorem foldAt_zero (steps : List Step) : foldAt f s steps 0 = s := rfl

theorem foldAt_of_length_le {steps : List Step} (h : steps.length ≤ n) :
    foldAt f s steps n = (fold f s steps).1 := by
  rw [foldAt, List.take_of_length_le h]

/-- **A fold that goes through** takes every step from the state before it to the state after it. -/
theorem foldAt_succ {steps : List Step} :
    ∀ {s : σ}, (fold f s steps).2 = none → ∀ {n : Nat} {t : Step}, steps[n]? = some t →
      f (foldAt f s steps n) t = .ok (foldAt f s steps (n + 1)) := by
  -- On the steps: the fold up to a point goes one step further.
  induction steps with
  | nil => intro s _ n t ht; simp at ht
  | cons t rest ih =>
    intro s h n t' ht
    simp only [fold] at h
    cases hf : f s t with
    | error e => simp [hf] at h
    | ok s' =>
      simp only [hf] at h
      cases n with
      | zero =>
        obtain rfl : t = t' := by simpa using ht
        simp [foldAt, fold, hf]
      | succ n =>
        have := ih h (n := n) (by simpa using ht)
        simpa [foldAt, fold, hf] using this

end Fold

end Rubylet.Replay
