import Rubylet.Proofs.Graph.Locals

/-!
# The edges of a graph, exactly

The wiring finds edges on its way through the code, with tables that it keeps on the way. The edges
of a built graph can be told without it: they are those that `Edge` lists, by the events of the
instructions and by the index (`Built.edge_iff`). No order of instructions plays a part in it, but
for the order of the assignments in one frame.

Of locals this says two things. Every assignment to a local depends on what was assigned to it first
(`Built.shared_edge`), and so all of them have one type. A read depends on an assignment
(`Built.read_edge`).
-/

namespace Rubylet

open Replay

variable {code : List Instruction} {g : Graph} {links : Nat → Nat → Prop} {n : Nat}
  {i : Instruction} {e : Event} {frame : Option Nat} {name : String} {w : Wiring.State}

/-! ### Edges by events -/

/-- What a record depends on, by the events of the instructions and an index. -/
inductive Edge (code : List Instruction) (x : Index) : Nat → Dependency → Prop
  | assigned {n i v} : Occurs code n i (.setVar v) → Edge code x n (.record v)
  /-- An assignment depends on what was assigned first, too. -/
  | again {n i e name f j v} : Occurs code n i e → i.op = .setVar name →
      FirstIn code n (frameOf code n) name f → Occurs code f j (.setVar v) →
      Edge code x n (.record v)
  | read {n i e name f} : Occurs code n i e → i.op = .pushVar name →
      FirstIn code n (frameOf code n) name f → Edge code x n (.record f)
  | const {n i e name info} : Occurs code n i e → i.op = .pushConst name →
      x.classes.get? name = some info → Edge code x n (.record info.definition)
  | passed {n i m index call arg} : Occurs code n i (.pushArg m) → i.op = .pushArg index →
      call ∈ (x.callers.get? (Wiring.methodName code.toArray m)).getD [] →
      index < (x.argsOf call).length → elementAt? (x.argsOf call) index = some arg →
      Edge code x n (.record arg)
  | sent {n i r args d} : Occurs code n i (.send r args) →
      Wiring.sendDependency x ((code[r]?).bind fun i => i.op.givenType?) i
        ⟨args, (stateAt code n).currentClass⟩ ⟨r, n, args⟩ = .ok d → Edge code x n d
  | result {n i m r} : Occurs code n i (.defEnd m r) → Edge code x m (.record r)
  | branch {n i opened v} : Occurs code n i (.ifElse opened v) → Edge code x opened (.record v)
  | join {n i opened v} : Occurs code n i (.ifEnd opened v) → Edge code x opened (.record v)

namespace Wiring

/-- A call that has no argument at a place where it has one is the only failure. -/
theorem exists_passedArgs_iff {x : Index} {index : Int} {calls : List Nat} :
    (∃ ds, passedArgs x index calls = .ok ds) ↔ ∀ call ∈ calls,
      index < (x.argsOf call).length → ∃ arg, elementAt? (x.argsOf call) index = some arg := by
  -- On the calls: the search fails at the first argument that is counted and not there.
  induction calls with
  | nil => exact iff_of_true ⟨[], rfl⟩ (by simp)
  | cons call rest ih =>
    rw [passedArgs, ← Index.argsOf, List.forall_mem_cons, ← ih]
    split
    · next hlt =>
      split
      · next arg harg =>
        simp only [harg, hlt, forall_const, Option.some.injEq, exists_eq', true_and]
        constructor
        · rintro ⟨ds, h⟩
          obtain ⟨others, hothers, -⟩ := exists_of_bind_eq_ok h
          exact ⟨others, hothers⟩
        · rintro ⟨ds, h⟩
          exact ⟨_, by rw [h]; rfl⟩
      · next hnone => simp [hlt, hnone, throw, throwThe, MonadExceptOf.throw]
    · next hlt => simp [hlt]

end Wiring

namespace Graph.Built

variable (b : Built code g)

include b

/-- The edges of an assignment, and of a constant. -/
theorem edge_cases {d : Dependency} (hi : code[n]? = some i) (hd : Edge code g.index n d) :
    match i.op with
    | .setVar name => (∃ v, Occurs code n i (.setVar v) ∧ d = .record v) ∨
        ∃ f, FirstIn code n (frameOf code n) name f
    | .pushConst name =>
      ∃ info, g.index.classes.get? name = some info ∧ d = .record info.definition
    | _ => True := by
  -- An edge names the record it starts from, which is the one at hand.
  have only : ∀ {j : Instruction}, code[n]? = some j → j = i := fun hj =>
    Option.some.inj (hj.symm.trans hi)
  -- The edges of the other records carry no condition.
  cases hd with
  | assigned h =>
    obtain rfl := only h.1
    obtain ⟨name, ho⟩ := h.op_of_setVar
    rw [ho]
    exact .inl ⟨_, h, rfl⟩
  | again h ho hf _ =>
    obtain rfl := only h.1
    rw [ho]
    exact .inr ⟨_, hf⟩
  | const h ho hinfo =>
    obtain rfl := only h.1
    rw [ho]
    exact ⟨_, hinfo, rfl⟩
  | read h ho _ | passed h ho _ _ _ =>
    obtain rfl := only h.1
    rw [ho]
    trivial
  | sent h _ =>
    obtain rfl := only h.1
    obtain ⟨_, _, ho⟩ := h.op_of_send
    rw [ho]
    trivial
  | result h =>
    obtain ⟨j, _, hj, ho⟩ := b.op_of_result h
    obtain rfl := only hj
    rw [ho]
    trivial
  | branch h =>
    obtain ⟨j, hj, ho⟩ := b.op_of_branch (.inl h)
    obtain rfl := only hj
    rw [ho]
    trivial
  | join h =>
    obtain ⟨j, hj, ho⟩ := b.op_of_branch (.inr h)
    obtain rfl := only hj
    rw [ho]
    trivial

/-- What a local is assigned first depends on the assigned value alone. -/
theorem edge_of_first {f v : Nat} {d : Dependency} (hf : FirstIn code n frame name f)
    (h : Occurs code f i (.setVar v)) (hd : Edge code g.index f d) : d = .record v := by
  obtain ⟨⟨i', hi', ho⟩, hframe⟩ := hf.assigns
  obtain rfl := Option.some.inj (h.1.symm.trans hi')
  have hcases := b.edge_cases h.1 hd
  rw [ho] at hcases
  rcases hcases with ⟨v', h', rfl⟩ | ⟨q, hq⟩
  · rw [Event.setVar.inj (h.unique h').2]
  · exact absurd (hframe ▸ hq.assigns) (hf.first q hq.lt)

/-- A constant depends on its class alone. -/
theorem edge_of_const {d : Dependency} (hi : code[n]? = some i) (ho : i.op = .pushConst name)
    (hd : Edge code g.index n d) :
    ∃ info, g.index.classes.get? name = some info ∧ d = .record info.definition := by
  have hcases := b.edge_cases hi hd
  rwa [ho] at hcases

/-! ### The edges -/

variable (hroles : Roles code links 0 code.length)

include hroles

/-- What an instruction adds is listed, once all edges before it are. -/
theorem edge_of_adds {k : Nat} {ds : List Dependency} {d : Dependency} (h : Occurs code n i e)
    (ih : ∀ k d, d ∈ (wiringAt code g n).dependenciesOf k → Edge code g.index k d)
    (ha : Adds code g n i e k ds) (hd : d ∈ ds) : Edge code g.index k d := by
  have hw := b.wiredAt (Nat.le_of_lt h.lt)
  cases ha with
  | nothing => cases hd
  | assigned ho => exact List.mem_singleton.mp hd ▸ .assigned h
  -- What the first assignment depends on so far is the value assigned there, and nothing else.
  | again ho hf =>
    have hfirst := (hw.scope_get?_iff hroles).mp hf
    obtain ⟨⟨j, hj, hjo⟩, -⟩ := hfirst.assigns
    obtain ⟨e', hocc⟩ := b.occurs hj
    obtain ⟨u, _, -, rfl, -⟩ := hocc.setVar hjo
    rcases List.mem_append.mp hd with hd | hd
    · rw [b.edge_of_first hfirst hocc (ih _ d hd)]
      exact .again h ho hfirst hocc
    · exact List.mem_singleton.mp hd ▸ .assigned h
  | read ho hf => exact List.mem_singleton.mp hd ▸ .read h ho ((hw.scope_get?_iff hroles).mp hf)
  | const ho hinfo => exact List.mem_singleton.mp hd ▸ .const h ho hinfo
  | passed ho hds =>
    obtain ⟨call, hcall, hlt, arg, harg, rfl⟩ := (Wiring.mem_passedArgs_iff hds).mp hd
    exact .passed h ho hcall hlt harg
  | sent hd' => exact List.mem_singleton.mp hd ▸ .sent h hd'
  | result => exact List.mem_singleton.mp hd ▸ .result h
  | branch => exact List.mem_singleton.mp hd ▸ .branch h
  | join => exact List.mem_singleton.mp hd ▸ .join h

/-- **What the wiring finds is listed.** -/
theorem edges_listed (hn : n ≤ code.length) :
    ∀ k d, d ∈ (wiringAt code g n).dependenciesOf k → Edge code g.index k d := by
  refine b.point_induction (P := fun n => ∀ k d, d ∈ (wiringAt code g n).dependenciesOf k →
    Edge code g.index k d) (fun k d hd => by simp at hd) ?_ n hn
  intro n i e h ih k d hd
  obtain ⟨j, ds, hadds, hgrows⟩ := b.exists_adds h
  rcases hgrows.mem_iff.mp hd with hold | ⟨rfl, hnew⟩
  · exact ih k d hold
  · exact b.edge_of_adds hroles h ih hadds hnew

/-- The record of a local's first assignment, as the wiring has it. -/
theorem scope_of_firstIn {f : Nat} (h : Occurs code n i e)
    (hf : FirstIn code n (frameOf code n) name f) :
    (wiringAt code g n).scope.get? name = some f :=
  ((b.wiredAt (Nat.le_of_lt h.lt)).scope_get?_iff hroles).mpr hf

/-- **What is listed is found.** -/
theorem mem_of_edge {k : Nat} {d : Dependency} (hd : Edge code g.index k d) :
    d ∈ (g.record k).dependencies := by
  cases hd with
  | assigned h =>
    obtain ⟨name, ho⟩ := h.op_of_setVar
    have hw := b.wired_setVar h ho
    rw [Wiring.assign] at hw
    split at hw
    · exact b.edge_of_connect h h.lt hw (List.mem_append_right _ (.head _))
    · exact b.edge_of_connect h h.lt hw (.head _)
  | @again _ i e name f j u h ho hf hj =>
    -- The edge of the first assignment is there when the later one takes it over.
    obtain ⟨v, _, -, rfl, -⟩ := h.setVar ho
    have hw := b.wired_setVar h ho
    obtain ⟨name', ho'⟩ := hj.op_of_setVar
    have hfirst : .record u ∈ (wiringAt code g (f + 1)).dependenciesOf f := by
      rw [b.wired_setVar hj ho', Wiring.assign]
      split <;> rw [Wiring.State.dependenciesOf_connect, if_pos rfl] <;> simp
    have hnow := b.point_mono (P := fun m => .record u ∈ (wiringAt code g m).dependenciesOf f)
      (fun h hm => b.edge_succ h hm) hf.lt (Nat.le_of_lt h.lt) hfirst
    rw [Wiring.assign, b.scope_of_firstIn hroles h hf] at hw
    exact b.edge_of_connect h h.lt hw (List.mem_append_left _ hnow)
  | read h ho hf =>
    obtain ⟨f', hget, hw⟩ := b.wiringAt_pushVar h ho
    rw [b.scope_of_firstIn hroles h hf] at hget
    obtain rfl := Option.some.inj hget
    exact b.edge_of_connect h h.lt hw (.head _)
  | const h ho hinfo =>
    obtain ⟨info', hinfo', hmem⟩ := b.pushConst_edge h ho
    obtain rfl := Option.some.inj (hinfo.symm.trans hinfo')
    exact hmem
  | passed h ho hcall hlt harg =>
    obtain ⟨ds, hds, hw⟩ := b.wired_pushArg h ho
    have hmem := (Wiring.mem_passedArgs_iff hds).mpr ⟨_, hcall, hlt, _, harg, rfl⟩
    exact b.edge_of_connect h h.lt hw hmem
  | sent h hd =>
    obtain ⟨d', hd', hw⟩ := b.wired_send h
    obtain rfl := Except.ok.inj (hd.symm.trans hd')
    exact b.edge_of_connect h h.lt hw (.head _)
  | result h =>
    obtain ⟨_, _, hm, -⟩ := b.op_of_result h
    exact b.edge_of_connect h (List.getElem?_eq_some_iff.mp hm).1 (b.wired_defEnd h) (.head _)
  | branch h =>
    obtain ⟨_, ho, -⟩ := b.op_of_branch (.inl h)
    have hlt := (List.getElem?_eq_some_iff.mp ho).1
    exact b.edge_of_connect h hlt (b.wired_branch (.inl h)) (.head _)
  | join h =>
    obtain ⟨_, ho, -⟩ := b.op_of_branch (.inr h)
    have hlt := (List.getElem?_eq_some_iff.mp ho).1
    exact b.edge_of_connect h hlt (b.wired_branch (.inr h)) (.head _)

/-- **The edges of a graph are those that are listed.** -/
theorem edge_iff {k : Nat} {d : Dependency} :
    d ∈ (g.record k).dependencies ↔ Edge code g.index k d := by
  refine ⟨fun hd => ?_, b.mem_of_edge hroles⟩
  rcases Nat.lt_or_ge k code.length with hk | hk
  · rw [b.record_eq (List.getElem?_eq_getElem hk)] at hd
    exact b.edges_listed hroles (Nat.le_refl _) k d hd
  · rw [record_eq_default (b.size_eq ▸ hk)] at hd
    cases hd

/-! ### The edges of locals -/

/-- **Every assignment to a local shares an edge with the first one** in its frame. -/
theorem shared_edge {f q : Nat} (hf : FirstIn code n frame name f) (hq : Assigns code q name frame) :
    ∃ v, .record v ∈ (g.record f).dependencies ∧ .record v ∈ (g.record q).dependencies := by
  obtain ⟨⟨i, hi, ho⟩, -⟩ := hf.assigns
  obtain ⟨e, h⟩ := b.occurs hi
  obtain ⟨v, _, -, rfl, -⟩ := h.setVar ho
  have hedge := b.mem_of_edge hroles (.assigned h)
  -- There is no assignment before the first, and every one behind it copies the edge to the first
  -- value.
  rcases Nat.lt_trichotomy q f with hlt | rfl | hlt
  · exact absurd hq (hf.first q hlt)
  · exact ⟨v, hedge, hedge⟩
  · obtain ⟨⟨j, hj, hjo⟩, rfl⟩ := hq
    obtain ⟨e', h'⟩ := b.occurs hj
    exact ⟨v, hedge, b.mem_of_edge hroles (.again h' hjo ⟨hlt, hf.assigns, hf.first⟩ h)⟩

/-- **A read depends on an assignment** to its local in its frame. -/
theorem read_edge (h : Occurs code n i e) (ho : i.op = .pushVar name) :
    ∃ first, Assigns code first name (frameOf code n) ∧
      .record first ∈ (g.record n).dependencies := by
  obtain ⟨first, hget, hw⟩ := b.wiringAt_pushVar h ho
  have hfirst := ((b.wiredAt (Nat.le_of_lt h.lt)).scope_get?_iff hroles).mp hget
  exact ⟨first, hfirst.assigns, b.edge_of_connect h h.lt hw (.head _)⟩

end Graph.Built

end Rubylet
