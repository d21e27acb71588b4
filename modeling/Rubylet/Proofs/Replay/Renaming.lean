import Rubylet.Proofs.Replay.Prescribed

/-!
# Replays under other numbers

A replay looks at no record number: it takes them from the instructions and hands them on. So it
commutes with giving the records other numbers (`Steps.map`). A stretch of instructions that stands
elsewhere in other code is passed by the same events, up to these numbers (`Passes.map`); and since
what a part of a program is passed by does not depend on the state around it, that is so for every
part (`Layout.occurs_map`).
-/

namespace Rubylet

/-! ### Other numbers -/

/-- Records that follow one another do so under other numbers, too. -/
def Shifts (π : Nat → Nat) (n count m : Nat) : Prop := ∀ j < count, π (n + j) = m + j

namespace Shifts

variable {π : Nat → Nat} {n m a b : Nat}

theorem left (h : Shifts π n (a + b) m) : Shifts π n a m :=
  fun j hj => h j (Nat.lt_of_lt_of_le hj (Nat.le_add_right a b))

theorem right (h : Shifts π n (a + b) m) : Shifts π (n + a) b (m + a) := by
  intro j hj
  rw [Nat.add_assoc, Nat.add_assoc]
  exact h (a + j) (Nat.add_lt_add_left hj a)

theorem mono (h : Shifts π n b m) (hab : a ≤ b) : Shifts π n a m :=
  fun j hj => h j (Nat.lt_of_lt_of_le hj hab)

theorem head (h : Shifts π n a m) (ha : 0 < a) : π n = m := h 0 ha

end Shifts

namespace Replay

variable (π : Nat → Nat)

/-- An event under other numbers. -/
def Event.map : Event → Event
  | .literal => .literal
  | .pushConst => .pushConst
  | .pushVar => .pushVar
  | .pushArg method => .pushArg (π method)
  | .setVar value => .setVar (π value)
  | .send receiver args => .send (π receiver) (args.map π)
  | .defStart owner => .defStart owner
  | .defEnd method result => .defEnd (π method) (π result)
  | .classStart => .classStart
  | .classEnd opened => .classEnd (π opened)
  | .ifStart condition => .ifStart (π condition)
  | .ifElse opened value => .ifElse (π opened) (π value)
  | .ifEnd opened value => .ifEnd (π opened) (π value)

/-- A state under other numbers. -/
def State.map (s : State) : State where
  stack := s.stack.map π
  outer := s.outer.map (List.map π)
  ifs := s.ifs.map fun o => ⟨π o.opened, o.height⟩
  defs := s.defs.map π
  classes := s.classes.map fun c => ⟨π c.opened, c.name⟩

variable {n n' : Nat} {i : Instruction} {s s' : State} {e : Event} {π}

@[simp] theorem State.map_initial : State.map π .initial = .initial := rfl

theorem State.currentClass_map : (s.map π).currentClass = s.currentClass := by
  obtain ⟨stack, outer, ifs, defs, classes⟩ := s
  cases classes <;> rfl

theorem State.map_push : (s.push n).map π = (s.map π).push (π n) := rfl

theorem State.map_closeFrame : s.closeFrame.map π = (s.map π).closeFrame := by
  obtain ⟨stack, outer, ifs, defs, classes⟩ := s
  cases outer <;> rfl

/-- **An instruction is replayed the same way under other numbers.** -/
theorem Steps.map {op : Operation} (h : Steps n s op e s') :
    Steps (π n) (s.map π) op (e.map π) (s'.map π) := by
  -- On the step: each condition is carried over to the renamed stack.
  cases h with
  | pushNil | pushInt | pushStr | pushConst | pushVar => constructor
  | pushArg hdefs => exact .pushArg (congrArg (List.map π) hdefs)
  | setVar hstack => exact .setVar (congrArg (List.map π) hstack)
  | @send name count r args rest hstack hcount =>
    have hmap : (s.map π).stack = (args.map π).reverse ++ π r :: rest.map π := by
      rw [State.map, hstack, List.map_append, List.map_reverse, List.map_cons]
    exact .send hmap (by rw [List.length_map, hcount])
  | defStart =>
    rw [Event.map, ← State.currentClass_map]
    exact .defStart
  | defEnd hdefs hstack =>
    rw [State.map_push, State.map_closeFrame]
    exact .defEnd (congrArg (List.map π) hdefs) (congrArg (List.map π) hstack)
  | classStart hclasses => exact .classStart (by rw [State.map, hclasses]; rfl)
  | classEnd hclasses =>
    rw [State.map_closeFrame]
    exact .classEnd (c := ⟨π _, _⟩) (congrArg (List.map _) hclasses)
  | ifStart hstack =>
    have hs := Steps.ifStart (n := π n) (s := s.map π) (congrArg (List.map π) hstack)
    rwa [List.length_map] at hs
  | @ifElse o ifs v rest hifs hstack hlt =>
    have hs := Steps.ifElse (n := π n) (s := s.map π) (o := ⟨π o.opened, o.height⟩)
      (congrArg (List.map _) hifs) (congrArg (List.map π) hstack)
      (by rwa [State.map, List.length_map])
    -- The heights of conditionals stay, as renaming keeps the length of the stack.
    rwa [← OperandStack.map_truncate] at hs
  | @ifEnd o ifs v rest hifs hstack hlt =>
    have hs := Steps.ifEnd (n := π n) (s := s.map π) (o := ⟨π o.opened, o.height⟩)
      (congrArg (List.map _) hifs) (congrArg (List.map π) hstack)
      (by rwa [State.map, List.length_map])
    rwa [← OperandStack.map_truncate] at hs

/-- The replay does not look at the numbers it moves about. -/
theorem step_map (h : step n i s = .ok (e, s')) :
    step (π n) i (s.map π) = .ok (e.map π, s'.map π) :=
  step_eq_ok_iff.mpr (step_eq_ok_iff.mp h).map

/-! ### Stretches of a replay -/

namespace Passes

variable {code code' : List Instruction} {es es' : List Event} {s₀ s₁ : State} {m : Nat}

theorem eq_add_length (h : Passes code n s es n' s') : n' = n + es.length := by
  induction h with
  | refl => rfl
  | next _ _ _ ih => rw [ih, List.length_cons, Nat.add_assoc, Nat.add_comm 1]

/-- A stretch of instructions is passed by one list of events. -/
theorem unique (h : Passes code n s es n' s₀) (h' : Passes code n s es' n' s₁) : es = es' := by
  -- The two passages run through the same records, so neither ends first.
  induction h generalizing es' with
  | refl =>
    have hlen := h'.eq_add_length
    exact (List.eq_nil_of_length_eq_zero (by omega)).symm
  | next hi hs hrest ih =>
    cases h' with
    | refl =>
      have hlen := hrest.eq_add_length
      omega
    | next hi' hs' hrest' =>
      obtain rfl := Option.some.inj (hi.symm.trans hi')
      obtain ⟨rfl, rfl⟩ := Prod.mk.inj (Except.ok.inj (hs.symm.trans hs'))
      rw [ih hrest']

/-- **A stretch that stands elsewhere** is passed by the same events, under the other numbers. -/
theorem map (h : Passes code n s es n' s')
    (hcode : ∀ j < es.length, code'[m + j]? = code[n + j]?) (hπ : Shifts π n es.length m) :
    Passes code' m (s.map π) (es.map (Event.map π)) (m + es.length) (s'.map π) := by
  induction h generalizing m with
  | refl => exact .refl
  | @next n s i e s₁ es n' s' hi hs _ ih =>
    -- The record at hand, then the rest at a distance of one more.
    have hstep := step_map (π := π) hs
    rw [hπ.head (Nat.succ_pos _)] at hstep
    rw [List.length_cons, Nat.add_comm es.length] at hcode hπ ⊢
    have hrest := ih (m := m + 1)
      (fun j hj => by
        rw [Nat.add_assoc, Nat.add_assoc]
        exact hcode (1 + j) (Nat.add_lt_add_left hj 1)) hπ.right
    rw [← Nat.add_assoc]
    exact .next ((hcode 0 (by omega)).trans hi) hstep hrest

/-- The events that replayed code is passed by are those that occur. -/
theorem occurs (hr : (trace code).error? = none) (h : Passes code n s es n' s')
    (hs : s = stateAt code n) {j : Nat} (hj : es[j]? = some e) : ∃ i, Occurs code (n + j) i e := by
  -- On the passage, whose every step is the step of the trace.
  induction h generalizing j with
  | refl => cases hj
  | @next n s i e₀ s₁ es n' s' hi hstep _ ih =>
    obtain ⟨e', hocc, -⟩ := exists_occurs hr hi
    obtain ⟨rfl, rfl⟩ := Prod.mk.inj (Except.ok.inj (hstep.symm.trans (hs ▸ hocc.2)))
    cases j with
    | zero =>
      obtain rfl := Option.some.inj hj
      exact ⟨i, hocc⟩
    | succ j =>
      obtain ⟨i', h⟩ := ih rfl hj
      exact ⟨i', by rwa [Nat.add_assoc, Nat.add_comm 1] at h⟩

end Passes

end Replay

open Replay

/-- **A part that stands elsewhere has the same events**, under the other numbers. -/
theorem Layout.occurs_map {code code' : List Instruction} {links links' : Nat → Nat → Prop}
    {p : Part} {n n' m m' : Nat} {π : Nat → Nat} (hr : (trace code).error? = none)
    (hr' : (trace code').error? = none) (h : Layout code links none p n n')
    (h' : Layout code' links' none p m m') (hcls : (stateAt code n).currentClass = none)
    (hcls' : (stateAt code' m).currentClass = none)
    (hcode : ∀ j < p.count, code'[m + j]? = code[n + j]?) (hπ : Shifts π n p.count m)
    {j : Nat} (hj : j < p.count) {i : Instruction} {e : Event} (ho : Occurs code (n + j) i e) :
    Occurs code' (π (n + j)) i (e.map π) := by
  have hn := h.eq_add_count
  have hm := h'.eq_add_count
  obtain ⟨_, -, hfresh⟩ := h.passes .initial rfl
  obtain ⟨_, -, hfresh'⟩ := h'.passes .initial rfl
  obtain ⟨_, -, hpass⟩ := h.passes _ hcls
  obtain ⟨_, -, hpass'⟩ := h'.passes _ hcls'
  have hlen : (p.events none n).length = p.count := by
    have := hfresh.eq_add_length
    omega
  -- From the initial state on, both stretches are passed under other numbers.
  have hcode' : ∀ j < (p.events none n).length, code'[m + j]? = code[n + j]? := hlen.symm ▸ hcode
  have hmap := hfresh.map hcode' (hlen.symm ▸ hπ)
  rw [hlen, ← hm] at hmap
  have heq : (p.events none n).map (Event.map π) = p.events none m := hmap.unique hfresh'
  -- The events do not depend on the state before the part, so they are those of the replay, too.
  have hget : (p.events none n)[j]? = some e := by
    have hlt : j < (p.events none n).length := hlen ▸ hj
    obtain ⟨i', ho'⟩ := hpass.occurs hr rfl (List.getElem?_eq_getElem hlt)
    rw [List.getElem?_eq_getElem hlt, (ho.unique ho').2]
  obtain ⟨i', ho'⟩ := hpass'.occurs hr' rfl (j := j) (e := e.map π)
    (by rw [← heq, List.getElem?_map, hget]; rfl)
  rw [hπ j hj]
  obtain rfl := Option.some.inj (ho.1.symm.trans ((hcode j hj).symm.trans ho'.1))
  exact ho'

end Rubylet
