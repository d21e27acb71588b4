import Rubylet.Machine

/-!
# Runs of the machine

`Reaches m k s s'` says that `k` steps lead from one state to another, `Leads m c s r` that at most
`c` steps lead from a state to an activation stack at some instruction, or to an error. The steps
are counted because the machine is given a number of them: `outcome_of_leads` says that a run has a
result when it is led to the end of the code within that number.

`trail` is the run as a list. What is asked of every state of a run that ends can be tested there
(`mem_trail`).
-/

namespace Rubylet.Machine

variable {m : Machine} {k c c' : Nat} {s s' s'' : State} {i : Instruction} {e : RunError}

/-- A number of steps lead from one state to another. -/
inductive Reaches (m : Machine) : Nat → State → State → Prop
  | refl (s : State) : Reaches m 0 s s
  | step {k : Nat} {s s' s'' : State} {i : Instruction} : m.code[s.next]? = some i →
      m.step i s = .next s' → Reaches m k s' s'' → Reaches m (k + 1) s s''

/-- Runs follow each other, and their steps add up. -/
theorem Reaches.trans {k' : Nat} (h : Reaches m k s s') (h' : Reaches m k' s' s'') :
    Reaches m (k + k') s s'' := by
  induction h with
  | refl => rwa [Nat.zero_add]
  | step hi hs _ ih =>
    rw [Nat.add_right_comm]
    exact .step hi hs (ih h')

theorem Reaches.single (hi : m.code[s.next]? = some i) (hs : m.step i s = .next s') :
    Reaches m 1 s s' := .step hi hs (.refl _)

/-- A run goes on from where a shorter one stood. -/
theorem runFor_of_reaches (h : Reaches m k s s') (j : Nat) :
    m.runFor (k + j) s = m.runFor j s' := by
  induction h with
  | refl => rw [Nat.zero_add]
  | step hi hs _ ih => rw [Nat.add_right_comm, runFor, hi]; simp only [hs, ih]

/-- At the end of a branch what stands above its base gives way to its value. -/
theorem closeBranch_eq {a : Activation} {v : Value} {junk stack : List Value} {ifs : List Nat}
    (hstack : a.stack = v :: (junk ++ stack)) (hifs : a.ifs = stack.length :: ifs) :
    closeBranch a = .ok { a with stack := v :: stack, ifs } := by
  have hlt : stack.length < (v :: (junk ++ stack)).length := by
    rw [List.length_cons, List.length_append]
    omega
  have htruncate := OperandStack.truncate_append (v :: junk) stack
  rw [List.cons_append] at htruncate
  simp only [closeBranch, hifs, hstack, if_pos hlt, htruncate, List.headD_cons]

/-! ### Rounds -/

/-- To run for two stretches is to run for their sum, unless the first one ends. -/
theorem runFor_add (a b : Nat) :
    ∀ s, m.runFor (a + b) s = match m.runFor a s with
      | .paused s => m.runFor b s
      | outcome => outcome := by
  -- On the first stretch, one step at a time.
  induction a with
  | zero => intro s; rw [Nat.zero_add]; rfl
  | succ a ih =>
    intro s
    rw [Nat.add_right_comm, runFor, runFor]
    cases m.code[s.next]? with
    | none => rfl
    | some i =>
      dsimp only
      cases m.step i s with
      | next s => exact ih s
      | stop e s => rfl

/-- Rounds are nothing but many steps. -/
theorem runRounds_eq (rounds : Nat) :
    ∀ s, m.runRounds rounds s = m.runFor (roundSteps * rounds) s := by
  induction rounds with
  | zero => intro s; rfl
  | succ rounds ih =>
    intro s
    rw [Nat.mul_succ, Nat.add_comm (roundSteps * rounds), runFor_add, runRounds]
    cases m.runFor roundSteps s with
    | paused s => exact ih s
    | ended r s => rfl

/-- A run ends where a state that it reaches ends. -/
theorem result_of_reaches {r r' : Except RunError Value} (h : m.outcome = .ended r s'')
    (hr : Reaches m k .initial s) (hend : m.runFor 1 s = .ended r' s') : r = r' := by
  rw [outcome, runRounds_eq] at h
  -- An ended run does not change when it is given as many steps more as lead to the other end.
  have hlate := runFor_add (m := m) (roundSteps * m.rounds) (k + 1) .initial
  rw [h, Nat.add_comm, Nat.add_assoc, runFor_of_reaches hr, runFor_add, hend] at hlate
  exact (Outcome.ended.inj hlate).1.symm

/-! ### Trails -/

/-- The states that a number of steps go through. -/
def trail (m : Machine) : (steps : Nat) → State → List State
  | 0, s => [s]
  | steps + 1, s =>
    match m.code[s.next]? with
    | none => [s]
    | some i =>
      match m.step i s with
      | .next s' => s :: m.trail steps s'
      | .stop _ _ => [s]

/-- If the steps lead to the end of a run, whatever it reaches is among them. -/
theorem mem_trail {r : Except RunError Value} (h : Reaches m k s s') :
    ∀ {n : Nat}, m.runFor n s = .ended r s'' → s' ∈ m.trail n s := by
  -- On the run: the state it reaches is the first of a trail, or on the trail of the next state.
  induction h with
  | refl s =>
    intro n _
    cases n with
    | zero => exact .head _
    | succ n =>
      rw [trail]
      split
      · exact .head _
      · split <;> exact .head _
  | step hi hstep _ ih =>
    intro n h
    cases n with
    | zero => cases h
    | succ n =>
      rw [runFor, hi] at h
      simp only [hstep] at h
      rw [trail]
      simp only [hi, hstep]
      exact .tail _ (ih h)

/-! ### Where runs lead -/

/-- Within a number of steps a state leads to some activations at an instruction, or to an error. -/
def Leads (m : Machine) (c : Nat) (s : State) : Except RunError (Nat × List Activation) → Prop
  | .ok (next, frames) => ∃ k ≤ c, ∃ calls, Reaches m k s ⟨next, frames, calls⟩
  | .error e => ∃ k < c, ∃ s' i s'', Reaches m k s s' ∧ m.code[s'.next]? = some i ∧
      m.step i s' = .stop e s''

variable {r : Except RunError (Nat × List Activation)}

/-- More steps than needed do no harm. -/
theorem Leads.mono (h : Leads m c s r) (hc : c ≤ c') : Leads m c' s r := by
  cases r with
  | error e =>
    obtain ⟨k, hk, h⟩ := h
    exact ⟨k, Nat.lt_of_lt_of_le hk hc, h⟩
  | ok r =>
    obtain ⟨k, hk, h⟩ := h
    exact ⟨k, Nat.le_trans hk hc, h⟩

theorem Leads.refl (m : Machine) (s : State) : Leads m 0 s (.ok (s.next, s.frames)) :=
  ⟨0, Nat.le_refl 0, s.calls, .refl s⟩

/-- After some steps a state leads to where the state reached leads to. -/
theorem Leads.after (h : Reaches m k s s') (h' : Leads m c s' r) : Leads m (k + c) s r := by
  cases r with
  | error e =>
    obtain ⟨j, hj, s'', i, t, hr, hstop⟩ := h'
    exact ⟨k + j, by omega, s'', i, t, h.trans hr, hstop⟩
  | ok r =>
    obtain ⟨j, hj, calls, hr⟩ := h'
    exact ⟨k + j, by omega, calls, h.trans hr⟩

/-- One step. -/
theorem Leads.step (hi : m.code[s.next]? = some i) (hs : m.step i s = .next s')
    (h : Leads m c s' r) : Leads m (1 + c) s r :=
  .after (.single hi hs) h

/-- One step and no more. -/
theorem Leads.one (hi : m.code[s.next]? = some i) (hs : m.step i s = .next s')
    (hr : .ok (s'.next, s'.frames) = r) (hc : 0 < c) : Leads m c s r :=
  hr ▸ (Leads.step hi hs (.refl m s')).mono hc

theorem Leads.stop (hi : m.code[s.next]? = some i) (hs : m.step i s = .stop e s')
    (hr : .error e = r) (hc : 0 < c) : Leads m c s r :=
  hr ▸ ⟨0, hc, s, i, s', .refl s, hi, hs⟩

/-- One way after the other. -/
theorem Leads.trans {next : Nat} {frames : List Activation} (h : Leads m c s (.ok (next, frames)))
    (h' : ∀ calls, Leads m c' ⟨next, frames, calls⟩ r) : Leads m (c + c') s r := by
  obtain ⟨k, hk, calls, hr⟩ := h
  exact (Leads.after hr (h' calls)).mono (by omega)

/-- **A run ends with a result** when it is led to it within the steps it is given. -/
theorem outcome_of_leads {r : Except RunError Activation}
    (h : Leads m c .initial (r.map fun main => (m.code.size, [main])))
    (hc : c < roundSteps * m.rounds) :
    ∃ s, m.outcome = .ended (r.map fun main => main.stack.headD .nil) s := by
  -- Wherever the run is led within the bound, it has a step left there.
  have hrun : ∀ {k s'}, Reaches m k .initial s' → k ≤ c →
      ∃ j, m.outcome = m.runFor (j + 1) s' := by
    intro k s' hr hk
    obtain ⟨j, hj⟩ : ∃ j, roundSteps * m.rounds = k + (j + 1) :=
      ⟨roundSteps * m.rounds - (k + 1), by omega⟩
    exact ⟨j, by rw [outcome, runRounds_eq, hj, runFor_of_reaches hr]⟩
  cases r with
  | error e =>
    obtain ⟨k, hk, s', i, s'', hr, hi, hs⟩ := h
    obtain ⟨j, hj⟩ := hrun hr (Nat.le_of_lt hk)
    refine ⟨s'', ?_⟩
    rw [hj, runFor, hi]
    simp only [hs]
    rfl
  | ok main =>
    obtain ⟨k, hk, calls, hr⟩ := h
    obtain ⟨j, hj⟩ := hrun hr hk
    refine ⟨⟨m.code.size, [main], calls⟩, ?_⟩
    rw [hj, runFor, Array.getElem?_eq_none (Nat.le_refl _)]
    rfl

/-- What an ended run came to: a state behind the code, or one that a step stops in. -/
theorem ended_cases {result : Except RunError Value} (k : Nat) :
    ∀ s, m.runFor k s = .ended result s' → ∃ j s₁, Reaches m j s s₁ ∧
      ((m.code[s₁.next]? = none ∧ result = Machine.result s₁) ∨
        ∃ i e s₂, m.code[s₁.next]? = some i ∧ m.step i s₁ = .stop e s₂ ∧ result = .error e) := by
  induction k with
  | zero => intro s h; cases h
  | succ k ih =>
    intro s h
    rw [runFor] at h
    -- The run ends because the code does, or because a step stops.
    cases hi : m.code[s.next]? with
    | none =>
      simp only [hi] at h
      obtain ⟨rfl, -⟩ := Outcome.ended.inj h
      exact ⟨0, s, .refl s, .inl ⟨hi, rfl⟩⟩
    | some i =>
      simp only [hi] at h
      cases hstep : m.step i s with
      | next s₁ =>
        rw [hstep] at h
        obtain ⟨j, s₂, hr, hend⟩ := ih s₁ h
        exact ⟨j + 1, s₂, .step hi hstep hr, hend⟩
      | stop e s₁ =>
        rw [hstep] at h
        obtain ⟨rfl, -⟩ := Outcome.ended.inj h
        exact ⟨0, s, .refl s, .inr ⟨i, e, s₁, hi, hstep, rfl⟩⟩

end Rubylet.Machine
