import Rubylet.Proofs.Safety.Step

/-!
# Calls of a typed program

A call in a typed program never fails for want of a method or for arguments of the wrong kind
(`Checked.react_cases`): what its receiver is at run time has the type by which inference chose what
the call means, and the machine has the tables that inference chose from.

`Checked.step_send` is the step that remains of `Rubylet.Proofs.Safety.Step`. When a method starts,
each of its parameters has an argument that fits it, because inference made the parameter depend on
the arguments of every call of that name.
-/

namespace Rubylet

open Replay Machine

/-! ### Operators -/

/-- What an operator of the table answers to an operand of the type that it asks for. -/
theorem primitive_cases {memory : Nat} {name : String} {receiver arg : Value} {o : Operator}
    (ho : Operator.find? receiver.ty name = some o) (harg : arg.ty = o.argType) :
    (∃ v, primitive memory name receiver [arg] = .answer v ∧ v.ty = o.resultType) ∨
      primitive memory name receiver [arg] = .fail .dividedByZero ∨
      ∃ text count fault, name = "*" ∧ receiver = .str text ∧ arg = .int count ∧
        repetitionFault? memory text.length count = some fault ∧
        primitive memory name receiver [arg] = .fault fault := by
  have hname := Operator.name_of_find? ho
  cases receiver with
  | nil | cls _ | object _ => cases ho
  | int x =>
    have hargs : o = .add ∨ o = .subtract ∨ o = .multiply ∨ o = .divide := by
      change Operator.find? .int name = some o at ho
      unfold Operator.find? at ho
      grind
    obtain ⟨y, rfl⟩ : ∃ y, arg = .int y := by
      rcases hargs with rfl | rfl | rfl | rfl <;> cases arg <;> cases harg <;> exact ⟨_, rfl⟩
    have hfind : ((Value.int x).type?.bind fun t => Operator.find? t name) = some o := ho
    rw [primitive, hfind]
    rcases hargs with rfl | rfl | rfl | rfl <;>
      simp only [Value.type?, Operator.argType, if_true, Operator.apply]
    · exact .inl ⟨_, rfl, rfl⟩
    · exact .inl ⟨_, rfl, rfl⟩
    · exact .inl ⟨_, rfl, rfl⟩
    · by_cases hy : y = 0
      -- A division is the one operation on integers that can fail.
      · rw [if_pos hy]
        exact .inr (.inl rfl)
      · rw [if_neg hy]
        exact .inl ⟨_, rfl, rfl⟩
  | str text =>
    have hargs : (o = .concat ∧ ∃ s, arg = .str s) ∨ (o = .replicate ∧ ∃ k, arg = .int k) := by
      change Operator.find? .str name = some o at ho
      have hop : o = .concat ∨ o = .replicate := by
        unfold Operator.find? at ho
        grind
      rcases hop with rfl | rfl <;> cases arg <;> cases harg <;> simp
    have hfind : ((Value.str text).type?.bind fun t => Operator.find? t name) = some o := ho
    rw [primitive, hfind]
    rcases hargs with ⟨rfl, s, rfl⟩ | ⟨rfl, k, rfl⟩ <;>
      simp only [Value.type?, Operator.argType, if_true, Operator.apply, Value.replicateText]
    · exact .inl ⟨_, rfl, rfl⟩
    -- A repetition is the one operation on texts that can.
    · cases hfault : repetitionFault? memory text.length k with
      | none => exact .inl ⟨_, rfl, rfl⟩
      | some fault =>
        have hne : fault ≠ .divisionByZero := by
          rintro rfl
          unfold repetitionFault? at hfault
          grind
        refine .inr (.inr ⟨text, k, fault, hname.symm, rfl, rfl, hfault, ?_⟩)
        cases fault <;> first | rfl | exact absurd rfl hne

/-! ### What a call does -/

variable {code : List Instruction} {g : Graph} {m : Machine} {statements : List Node}
  {n r : Nat} {i : Instruction} {e : Event} {a : Activation} {outer : List Activation}
  {l : List (String × Nat)} {name : String} {count : Option Int} {args : List Nat}
  {receiver : Value} {values : List Value}

namespace Graph.Built

variable (b : g.Built code) (hl : Loaded m code statements)

include b hl

/-- **A call without receiver means the method that dispatch would choose**, in a class as in none.
-/
theorem react_nil (owner : Option String) (name : String) (args : List Value) :
    m.react owner name .nil args =
      ((owner.bind fun c => g.index.findMethod name (some c)).map (Reaction.call · owner)).getD
        (((g.index.findMethod name none).map (Reaction.call · none)).getD
          (.fail (.undefinedForNil name))) := by
  rw [react, b.methodOf?_eq_bind hl, b.methods_get?_eq hl]
  cases owner.bind fun c => g.index.findMethod name (some c) with
  | some d => rfl
  | none => cases g.index.findMethod name none <;> rfl

/-- A method that inference chose for a call is the one that runs, and is found where the machine
takes it from. -/
theorem react_method {info : CallInfo} {d : Nat} (hname : i.op.name? = some name)
    (h : g.index.choose receiver.ty i info = .ok (.method d)) :
    ∃ owner, m.react info.owner name receiver values = .call d owner ∧
      g.index.findMethod name owner = some d := by
  obtain ⟨-, ⟨hnil, hd⟩ | ⟨cls, hobject, hd⟩⟩ := Index.choose_method h <;>
    rw [hname, Option.bind_some] at hd
  · obtain rfl : receiver = .nil := by cases receiver <;> first | rfl | cases hnil
    rw [Index.implicitMethod] at hd
    rw [b.react_nil hl]
    -- Without a receiver, the class that is open comes before the methods outside classes.
    cases hin : info.owner.bind fun o => g.index.findMethod name (some o) with
    | some d' =>
      obtain ⟨o, howner, hfind⟩ := Option.bind_eq_some_iff.mp hin
      rw [hin, Option.some_or] at hd
      obtain rfl := Option.some.inj hd
      exact ⟨some o, by rw [howner]; rfl, hfind⟩
    | none =>
      rw [hin, Option.none_or] at hd
      exact ⟨none, by rw [hd]; rfl, hd⟩
  · obtain rfl : receiver = .object cls := by
      cases receiver <;> cases hobject
      rfl
    exact ⟨some cls, by simp only [react, b.methodOf?_eq hl cls name, hd], hd⟩

end Graph.Built

namespace Checked

variable (c : Checked code g m statements)

include c

/-- **What a call does**, when its operands may come from the records that supply them. -/
theorem react_cases (ho : Occurs code n i (.send r args)) (hop : i.op = .send name count)
    (hr : g.Holds r receiver) (hargs : List.Forall₂ g.Holds args values) :
    (∃ v, m.react (stateAt code n).currentClass name receiver values = .answer v ∧ g.Holds n v) ∨
      (∃ d owner, m.react (stateAt code n).currentClass name receiver values = .call d owner ∧
        g.index.findMethod name owner = some d ∧ args.length = (g.index.arity.get? d).getD 0 ∧
        ∀ v, g.Holds d v → g.Holds n v) ∨
      m.react (stateAt code n).currentClass name receiver values = .fail .dividedByZero ∨
      ∃ text k fault, name = "*" ∧ receiver = .str text ∧ values = [.int k] ∧
        repetitionFault? m.memory text.length k = some fault ∧
        m.react (stateAt code n).currentClass name receiver values = .fault fault := by
  obtain ⟨t, ht⟩ := c.typed n ho.lt
  obtain ⟨r', args', R, choice, he, hR, hchoose, hchosen⟩ := c.built.send_typed ho hop ht
  obtain ⟨rfl, rfl⟩ := Event.send.inj he
  obtain rfl := hR.unique hr.type
  have hname : i.op.name? = some name := by rw [hop]; rfl
  cases choice with
  | method d =>
    obtain ⟨harity, -⟩ := Index.choose_method hchoose
    obtain ⟨owner, hreact, hfind⟩ := c.built.react_method c.loaded hname hchoose
    refine .inr (.inl ⟨d, owner, hreact, hfind, harity, fun v hv => ?_⟩)
    obtain rfl := hchosen.1.unique hv.type
    exact ⟨ht, fun cls hcls => hchosen.2 cls (hv.names cls hcls)⟩
  | operator =>
    obtain ⟨R, o, arg, hR', ho', hone, harg, rfl⟩ := Graph.HasType.of_operator hchosen
    obtain rfl := hR'.unique hr.type
    rw [c.built.record_eq ho.1, hname, Option.bind_some] at ho'
    dsimp only at hone
    subst hone
    obtain ⟨v, hv, rfl⟩ : ∃ v, g.Holds arg v ∧ values = [v] := by
      cases hargs with
      | cons h hrest => cases hrest; exact ⟨_, h, rfl⟩
    obtain hty := hv.type.unique harg
    -- Only integers and texts have operators.
    have hreact : m.react (stateAt code n).currentClass name receiver [v] =
        primitive m.memory name receiver [v] := by
      cases receiver <;> first | rfl | cases ho'
    rw [hreact]
    rcases primitive_cases ho' hty with ⟨w, hw, hwt⟩ | hzero | ⟨text, k, fault, hstar, hs, hk, hfault, hp⟩
    · refine .inl ⟨w, hw, hwt ▸ ht, fun cls hcls => ?_⟩
      -- No operator answers a class.
      subst hcls
      cases o <;> cases hwt
    · exact .inr (.inr (.inl hzero))
    · exact .inr (.inr (.inr ⟨text, k, fault, hstar, hs, by rw [hk], hfault, hp⟩))
  | instantiate =>
    obtain ⟨cls, rfl, honly⟩ := hchosen
    have hcls := Index.choose_instantiate hchoose
    obtain ⟨found, rfl⟩ : ∃ found, receiver = .cls found := by
      cases receiver <;> first | exact ⟨_, rfl⟩ | cases hcls
    have hnew : name = "new" := by
      rw [hcls, Index.choose] at hchoose
      split at hchoose
      · next h => exact Option.some.inj (hname.symm.trans h)
      · cases hchoose
    -- The class that `new` runs for is the one that the search found.
    obtain rfl := honly found (hr.names found rfl)
    refine .inl ⟨.object found, ?_, ht, fun _ h => by cases h⟩
    simp only [react, hnew, if_true]

/-- The arguments of a call fit the parameters of the method that it runs. -/
theorem arguments_fit {d : Nat} {j f : Instruction} {q : Nat} {k : Int}
    (ho : Occurs code n i (.send r args)) (hop : i.op = .send name count)
    (hargs : List.Forall₂ g.Holds args values) (hf : code[d]? = some f)
    (hdef : f.op = .defStart name) (hlen : args.length = (g.index.arity.get? d).getD 0)
    (hq : code[q]? = some j) (hpush : j.op = .pushArg k) (hframe : frameOf code q = some d) :
    ∃ v, elementAt? values k = some v ∧ g.Holds q v := by
  obtain ⟨e, hocc⟩ := c.built.occurs hq
  have hrole := c.role hocc
  rw [hpush] at hrole
  obtain ⟨d', f', name', params, index, hcloses, hf', hdef', ⟨defs, hdefs⟩, hparams, hindex, rfl⟩ :=
    hrole
  -- The parameter stands in the method that is called, so its index is below the arity.
  obtain rfl : d' = d := by
    rw [frameOf, hcloses.openers_eq] at hframe
    exact Option.some.inj hframe
  have harity := c.built.le_arity hf' hdef' hparams
  have hlt : index < args.length := by omega
  have hlt' : index < values.length := hargs.length_eq ▸ hlt
  have hfit := hargs.get hlt hlt'
  refine ⟨values[index], ?_, ?_⟩
  · rw [elementAt?_natCast]
    exact List.getElem?_eq_getElem hlt'
  · exact c.flow hocc hfit (c.built.argument_edge ho hop hocc hpush hdefs hf hdef
      (List.getElem?_eq_getElem hlt)) (by simp [hpush]) (by simp [hpush])

/-- **What a call finds** on the operands: its arguments, its receiver and what is below them fit the
records that the replay has there. -/
theorem send_operands
    (h : FramesFit code g.Holds (Calls code g) n (stateAt code n).stack (a :: outer))
    (ho : Occurs code n i e) (hop : i.op = .send name count) :
    ∃ r args below receiver rest, e = .send r args ∧
      stateAt code (n + 1) = { stateAt code n with stack := n :: below } ∧
      a.stack.drop i.op.argCount = receiver :: rest ∧
      takeArgs i.op.argCount a.stack =
        ((a.stack.take i.op.argCount).reverse, receiver :: rest) ∧
      List.Forall₂ g.Holds args (a.stack.take i.op.argCount).reverse ∧ g.Holds r receiver ∧
      List.Forall₂ (SlotFits code g.Holds n) below rest := by
  have hrole := c.role ho
  rw [hop] at hrole
  obtain ⟨revArgs, r, below, hstack, hlen, hskip⟩ := hrole
  obtain ⟨r', args, below', hstack', hlen', he, hs⟩ := ho.send hop
  rw [← hop, ← hlen'] at hlen
  -- The replay and the role tell of the same operands.
  obtain ⟨rfl, hrest⟩ := List.append_inj (hstack.symm.trans hstack')
    (by rw [List.length_reverse, hlen])
  obtain ⟨rfl, rfl⟩ := List.cons.inj hrest
  have hops := h.activation.operands
  have hcount : i.op.argCount ≤ a.stack.length := by
    rw [← hops.length_eq, hstack, List.length_append, List.length_reverse]
    omega
  have htop := List.forall₂_take i.op.argCount hops
  have hbot := List.forall₂_drop i.op.argCount hops
  rw [hstack, ← hlen', ← List.length_reverse, List.take_left, List.length_reverse, hlen'] at htop
  rw [hstack, ← hlen', ← List.length_reverse, List.drop_left, List.length_reverse, hlen'] at hbot
  have hargs : List.Forall₂ g.Holds args (a.stack.take i.op.argCount).reverse := by
    rw [← List.forall₂_reverse_iff, List.reverse_reverse]
    exact fits_of_slots htop fun s hs => hskip s (List.mem_append_left _ hs)
  obtain ⟨receiver, rest, hr, hrest, hvs⟩ := List.forall₂_cons_left_iff.mp hbot
  refine ⟨r, args, below, receiver, rest, he, hs, hvs, ?_, hargs, ?_, hrest⟩
  · rw [takeArgs, if_pos hcount, hvs]
  · exact SlotFits.fit hr (hskip r (List.mem_append_right _ (.head _)))

/-- A call at a state that fits goes on to one that fits, or stops for a reason that is allowed. -/
theorem step_send (h : FramesFit code g.Holds (Calls code g) n (stateAt code n).stack (a :: outer))
    (ho : Occurs code n i e) (hop : i.op = .send name count) :
    Fares code g m ⟨n, a :: outer, l⟩ (m.send i name ⟨n, a :: outer, l⟩ a outer) := by
  obtain ⟨r, args, below, receiver, rest, rfl, hs, hvs, htake, hargs, hreceiver, hrest⟩ :=
    c.send_operands h ho hop
  have hopeners : openers code (n + 1) = openers code n := by rw [openers_succ ho.1, hop]
  have hbelow : List.Forall₂ (SlotFits code g.Holds (n + 1)) below rest :=
    slots_move hrest fun r _ => skipped_succ_iff ho.1 (by simp [hop])
  have hcases := c.react_cases ho hop hreceiver hargs
  rw [← h.activation.owner] at hcases
  rw [Machine.send, htake]
  dsimp only
  rcases hcases with ⟨v, hreact, hv⟩ |
      ⟨d, owner, hreact, hfind, harity, hanswers⟩ | hreact |
      ⟨text, k, fault, rfl, rfl, hone, hfault, hreact⟩
  · rw [hreact]
    refine h.advance ho hopeners (by rw [hs]) (by rw [hs]) ?_
    rw [hs]
    exact .cons (.inr ⟨not_skipped_succ c.replayed, hv⟩) hbelow
  · rw [hreact]
    dsimp only
    split
    · exact .stackTooDeep (c.instruction ho)
    -- The body begins in a new frame, with no operands and in the class that the method is in.
    · obtain ⟨f, hf, hdef, hcls⟩ := c.built.method_definition hfind
      obtain ⟨f', hocc⟩ := c.built.occurs hf
      obtain ⟨-, hopened⟩ := hocc.defStart hdef
      have hframe : frameOf code (d + 1) = some d := by
        rw [frameOf, openers_succ hf, hdef]
        rfl
      refine ⟨hocc.lt, .method hframe hf hdef ?_ rfl
        ⟨⟨i, name, count, f, ho.1, hop, hf, hdef⟩, hanswers⟩
        (show (stateAt code (n + 1)).stack = n :: below by rw [hs]) ?_⟩
      · rw [hopened]
        refine ⟨.nil, fun _ _ h => (by cases h), ?_, ?_, [], ?_, rfl⟩
        · intro q j k hq hpush hin
          exact c.arguments_fit ho hop hargs hf hdef harity hq hpush (hin.trans hframe)
        · rw [hopened]
          exact hcls.symm
        · rw [hopened, hframe]
          rfl
      · exact h.move rfl (h.activation.move rfl rfl rfl hrest) rfl
  · rw [hreact]
    exact .dividedByZero (c.instruction ho)
  · rw [hreact]
    -- A repetition that is too long leaves its operands where they are.
    have hstack : a.stack = .int k :: .str text :: rest := by
      rw [← List.take_append_drop i.op.argCount a.stack, hvs]
      have := congrArg List.reverse hone
      rw [List.reverse_reverse] at this
      rw [this]
      rfl
    refine .repetition (c.instruction ho) (by rw [hop]; rfl) rfl hstack hfault

end Checked

end Rubylet
