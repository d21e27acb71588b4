import Rubylet.Proofs.Direct.Agreement
import Rubylet.Proofs.Safety.Heights

/-!
# The depth of runs

Calls are checked against `maxCallDepth` before they put an activation on the others; the bodies of
classes are not. They do not go on growing past the limit all the same, because the body of a class
opens no class: wherever a class is opened, none is open (`Replay.Occurs.classStart`). So at most
one activation stands above the limit, and it is that of a class.

* `step_frames` says what a step does to the activations, whatever the instruction.
* `Shallow` is the invariant: there is room below the limit, or the running activation is the body
  of a class. Only a method that goes back to its call, or a class that ends, makes room.
* `run_ends_within_depth` puts it together with the end that every run has.
-/

namespace Rubylet

open Replay Machine

/-- What a step does to the activations, from `a` above others to what comes out of it. -/
inductive Machine.FramesStep (depth : Nat) (i : Instruction) (n : Nat) (a : Activation)
    (outer : List Activation) : List Activation → Prop
  /-- The running activation goes on. -/
  | stay {a'} : a'.returnTo = a.returnTo → a'.owner = a.owner → FramesStep depth i n a outer (a' :: outer)
  /-- A method is called, if there is room. -/
  | call {a' args owner} : a'.returnTo = a.returnTo → a'.owner = a.owner →
      outer.length + 1 < depth →
      FramesStep depth i n a outer (.fresh args (some n) owner :: a' :: outer)
  /-- A method goes back to its call. -/
  | return {caller caller' rest} : outer = caller :: rest → caller'.returnTo = caller.returnTo →
      caller'.owner = caller.owner → FramesStep depth i n a outer (caller' :: rest)
  /-- A class is opened. -/
  | enter {name} : i.op = .classStart name →
      FramesStep depth i n a outer (.fresh [] none (some name) :: a :: outer)
  /-- The body of a class ends. -/
  | leave : FramesStep depth i n a outer outer

section Step

variable {m : Machine} {i : Instruction} {n : Nat} {a a' : Activation} {outer : List Activation}
  {l : List (String × Nat)} {s' : Machine.State} {name : String}

theorem frames_of_jump {s : Machine.State} {frames : List Activation}
    (h : m.jump s frames = .next s') : s'.frames = frames := by
  unfold jump at h
  split at h
  · obtain rfl := Progress.next.inj h
    rfl
  · cases h

theorem closeBranch_keeps (h : closeBranch a = .ok a') :
    a'.returnTo = a.returnTo ∧ a'.owner = a.owner := by
  unfold closeBranch at h
  split at h
  · cases h
  · obtain rfl := Except.ok.inj h
    exact ⟨rfl, rfl⟩

/-- A call puts one frame on top, or leaves the frames as many as they are. -/
theorem send_frames (h : m.send i name ⟨n, a :: outer, l⟩ a outer = .next s') :
    FramesStep maxCallDepth i n a outer s'.frames := by
  unfold Machine.send at h
  dsimp only at h
  split at h
  · cases h
  · split at h
    · obtain rfl := Progress.next.inj h
      exact .stay rfl rfl
    · cases h
    · cases h
    -- The reaction is a call, and either there is room for its frame or the run ends.
    · split at h
      · cases h
      · next hroom =>
        obtain rfl := Progress.next.inj h
        exact .call rfl rfl (Nat.lt_of_not_le hroom)

/-- **What a step does to the activations.** -/
theorem step_frames (h : m.step i ⟨n, a :: outer, l⟩ = .next s') :
    FramesStep maxCallDepth i n a outer s'.frames := by
  have stay : ∀ {a' : Activation}, advance ⟨n, a :: outer, l⟩ (a' :: outer) = .next s' →
      a'.returnTo = a.returnTo → a'.owner = a.owner →
      FramesStep maxCallDepth i n a outer s'.frames := by
    intro a' h hret howner
    obtain rfl := Progress.next.inj h
    exact .stay hret howner
  unfold Machine.step at h
  cases hop : i.op with
  | send name count => exact send_frames (by simpa only [hop] using h)
  | pushConst name | pushArg k | setVar name =>
    simp only [hop] at h
    -- Whether the operation goes through or stops, the activations below are left alone.
    split at h
    · first | exact stay h rfl rfl | cases h
    · first | exact stay h rfl rfl | cases h
  | defStart name =>
    simp only [hop] at h
    rw [frames_of_jump h]
    exact .stay rfl rfl
  | defEnd name =>
    simp only [hop] at h
    split at h
    · cases h
    · split at h
      · cases h
      · obtain rfl := Progress.next.inj h
        -- The caller gets a value, and is otherwise what it was.
        exact .return rfl rfl rfl
  | classStart name =>
    simp only [hop] at h
    split at h
    · obtain rfl := Progress.next.inj h
      exact .enter hop
    · cases h
  | classEnd name =>
    simp only [hop] at h
    obtain rfl := Progress.next.inj h
    exact .leave
  | ifStart =>
    simp only [hop] at h
    split at h
    · cases h
    · split at h
      · exact stay h rfl rfl
      · rw [frames_of_jump h]
        exact .stay rfl rfl
  | ifElse =>
    simp only [hop] at h
    split at h
    · cases h
    · next hclose =>
      rw [frames_of_jump h]
      exact .stay (closeBranch_keeps hclose).1 (closeBranch_keeps hclose).2
  | ifEnd =>
    simp only [hop] at h
    split at h
    · cases h
    · next hclose => exact stay h (closeBranch_keeps hclose).1 (closeBranch_keeps hclose).2
  | unknown opcode operand =>
    simp only [hop] at h
    cases h
  | pushNil | pushInt v | pushStr t | pushVar name =>
    simp only [hop] at h
    exact stay h rfl rfl

end Step

/-! ### One activation above the limit -/

/-- Does an activation run the body of a class? It belongs to one and goes back to no call. -/
def Machine.Activation.isClassBody (a : Activation) : Bool := a.returnTo.isNone && a.owner.isSome

/-- There is room above the activations, or the running one is the body of a class. -/
def Machine.Shallow (depth : Nat) (frames : List Activation) : Prop :=
  frames.length ≤ depth ∨
    ∃ a outer, frames = a :: outer ∧ outer.length = depth ∧ a.isClassBody

section Shallow

variable {code : List Instruction} {g : Graph} {m : Machine} {statements : List Node} {k n : Nat}
  {i : Instruction} {e : Event} {a a' : Activation} {outer : List Activation}
  {frames : List Activation} {s s' : Machine.State}

/-- Frames that are shallow are no more than the depth allows. -/
theorem Machine.Shallow.length_le {depth : Nat} (h : Shallow depth frames) :
    frames.length ≤ depth + 1 := by
  rcases h with h | ⟨a, outer, rfl, h, -⟩
  · omega
  · rw [List.length_cons, h]

theorem Machine.Shallow.outer_le {depth : Nat} (h : Shallow depth (a :: outer)) :
    outer.length ≤ depth := by
  have := h.length_le
  rw [List.length_cons] at this
  omega

/-- The running activation may change, if it stays what it was. -/
theorem Machine.Shallow.stay {depth : Nat} (h : Shallow depth (a :: outer))
    (hret : a'.returnTo = a.returnTo) (howner : a'.owner = a.owner) :
    Shallow depth (a' :: outer) := by
  rcases h with h | ⟨_, _, heq, hlen, hcls⟩
  · exact .inl h
  · obtain ⟨rfl, rfl⟩ := List.cons.inj heq
    refine .inr ⟨a', outer, rfl, hlen, ?_⟩
    rwa [Activation.isClassBody, hret, howner]

/-- **A step stays within the limit.** -/
theorem Machine.Shallow.step
    (hl : FramesLevel code n (stateAt code n).stack.length (a :: outer)) (ho : Occurs code n i e)
    (h : Shallow maxCallDepth (a :: outer)) (hs : FramesStep maxCallDepth i n a outer frames) :
    Shallow maxCallDepth frames := by
  have houter := h.outer_le
  cases hs with
  | stay hret howner => exact h.stay hret howner
  | call _ _ hroom => exact .inl hroom
  | «return» heq _ _ =>
    rw [heq, List.length_cons] at houter
    exact .inl (by rwa [List.length_cons])
  | @enter name hop =>
    -- Where a class is opened none is open, so the running activation is not the body of one.
    have howner : a.owner = none := by
      rw [hl.activation.owner, State.currentClass, (ho.classStart hop).1]
      rfl
    rcases h with h | ⟨_, _, heq, -, hcls⟩
    · rcases Nat.lt_or_eq_of_le h with hlt | hfull
      · exact .inl (by rw [List.length_cons]; omega)
      · exact .inr ⟨_, _, rfl, hfull, rfl⟩
    · obtain ⟨rfl, rfl⟩ := List.cons.inj heq
      rw [Activation.isClassBody, howner, Option.isSome_none, Bool.and_false] at hcls
      cases hcls
  -- What is left once the body of a class has ended is no more than the limit.
  | leave => exact .inl houter

/-- **A run stays within the limit.** -/
theorem Machine.Shallow.reaches (b : g.Built code) (hl : Loaded m code statements)
    (h : Reaches m k s s') (hlevel : StateLevel code s) (hs : Shallow maxCallDepth s.frames) :
    Shallow maxCallDepth s'.frames := by
  induction h with
  | refl s => exact hs
  | @step k s s₁ s₂ i hi hstep _ ih =>
    -- That activations are level with the replay is needed again behind the step.
    have hnext := hlevel.reaches b hl (.single hi hstep)
    obtain ⟨n, frames, l⟩ := s
    obtain ⟨a, outer, rfl⟩ := hlevel.frames.exists_cons
    rw [hl.code_eq, List.getElem?_toArray] at hi
    obtain ⟨e, ho⟩ := b.occurs hi
    exact ih hnext (hs.step hlevel.frames ho (step_frames hstep))

/-- The body of a class stands behind the instruction that opens the class. -/
theorem FramesLevel.exists_opener {height : Nat} (h : FramesLevel code n height (a :: outer))
    (ha : a.isClassBody) (houter : outer ≠ []) : ∃ c name, frameOf code n = some c ∧
      (code[c]?).map Instruction.op = some (.classStart name) := by
  cases h with
  | main _ _ => exact absurd rfl houter
  | method _ _ _ _ hret =>
    rw [Activation.isClassBody, hret] at ha
    cases ha
  | cls hn hi hop _ _ => exact ⟨_, _, hn, by rw [hi, Option.map_some, hop]⟩

end Shallow

/-- **Every run ends, and none is much deeper than calls may be nested.** After finitely many steps
the machine of a typed program has come to its value or to an error. At every step there is at most
one activation more than the limit, and that one is the body of a class: it goes back to no call,
and what comes next in it stands behind the opener of its class, in no definition of a method. -/
theorem run_ends_within_depth {source : String} {code : List Instruction}
    {records : List TypedRecord} (hcode : Program.code source = .ok code)
    (hinfer : infer code = .ok records) (memory : Nat) :
    ∃ m, Machine.load memory records = .ok m ∧
      (∃ k s, m.runFor k .initial = .ended m.run s) ∧
      ∀ k s, Reaches m k .initial s →
        s.frames.length ≤ maxCallDepth + 1 ∧
        (maxCallDepth < s.frames.length →
          ∃ a outer, s.frames = a :: outer ∧ a.isClassBody ∧
            ∃ c name, frameOf code s.next = some c ∧
              (code[c]?).map Instruction.op = some (.classStart name)) := by
  obtain ⟨statements, g, m, -, hc, rfl⟩ := compiled_of_code hcode hinfer memory
  have b := Graph.built_of_build hc.built
  refine ⟨m, hc.loads, ?_, fun k s hr => ?_⟩
  -- The direct evaluation has a result, and the machine comes to the same one.
  · obtain ⟨s, hs⟩ := Direct.exists_outcome hc.loaded .start
    refine ⟨roundSteps * m.rounds, s, ?_⟩
    rw [Machine.run, hs, Outcome.value, ← runRounds_eq]
    exact hs
  · have hlevel := (stateLevel_initial code).reaches b hc.loaded hr
    have hshallow := Shallow.reaches b hc.loaded hr (stateLevel_initial code) (.inl (by decide))
    refine ⟨hshallow.length_le, fun hdeep => ?_⟩
    rcases hshallow with hle | ⟨a, outer, hframes, hlen, hcls⟩
    · exact absurd hdeep (Nat.not_lt.mpr hle)
    · refine ⟨a, outer, hframes, hcls, (hframes ▸ hlevel.frames).exists_opener hcls ?_⟩
      rintro rfl
      cases hlen

theorem run_ends_within_depth_descent : ∃ code records, Program.code Sample.descent = .ok code ∧
    infer code = .ok records ∧ ∃ m, Machine.load Sample.memory records = .ok m ∧
      (∃ k s, m.runFor k .initial = .ended m.run s) ∧
      ∀ k s, Reaches m k .initial s →
        s.frames.length ≤ maxCallDepth + 1 ∧
        (maxCallDepth < s.frames.length →
          ∃ a outer, s.frames = a :: outer ∧ a.isClassBody ∧
            ∃ c name, frameOf code s.next = some c ∧
              (code[c]?).map Instruction.op = some (.classStart name)) := by
  obtain ⟨code, records, hcode, hinfer⟩ := Sample.exists_typed_descent
  exact ⟨code, records, hcode, hinfer, run_ends_within_depth hcode hinfer Sample.memory⟩

end Rubylet
