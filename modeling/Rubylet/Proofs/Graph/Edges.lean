import Rubylet.Proofs.Graph.Built

/-!
# Edges

What the wiring does at an instruction. It adds edges to one record at most (`Built.exists_adds`),
and it opens, closes or extends a table of locals (`Built.scopes_succ`). All that is known of edges
follows from these two; there is a law for each operation beside them, for where it is known which
edges are added (`Built.wiringAt_setVar` and its fellows).

* `Built.edge_of_wiringAt`: edges are never lost, so an edge found at any point is in the graph.
* `Built.edgeFits`: an edge starts at a record that has no type from the start, and an edge to a
  call or an operator starts at that very call. A call thus has one site (`Graph.Wired.site_unique`),
  and the graph remembers the arguments of that site (`Graph.Wired.site_args`).
-/

namespace Rubylet

open Replay

variable {code : List Instruction} {g : Graph} {n : Nat} {i : Instruction} {e : Event}
  {name : String}

namespace Wiring.State

@[simp] theorem dependenciesOf_connect (s : State) (k j : Nat) (ds : List Dependency) :
    (s.connect k ds).dependenciesOf j =
      if k = j then s.dependenciesOf j ++ ds else s.dependenciesOf j := by
  simp only [connect, dependenciesOf, Table.get?_set]
  by_cases h : k = j
  · subst h; simp
  · simp [h]

@[simp] theorem dependenciesOf_initial (k : Nat) : initial.dependenciesOf k = [] := rfl

@[simp] theorem scopes_connect (s : State) (k : Nat) (ds : List Dependency) :
    (s.connect k ds).scopes = s.scopes := rfl

/-- From one state to another, a record gets some edges more. No other record does. -/
def Grows (s s' : State) (k : Nat) (ds : List Dependency) : Prop :=
  ∀ j, s'.dependenciesOf j = s.dependenciesOf j ++ if k = j then ds else []

theorem Grows.connect (s : State) (k : Nat) (ds : List Dependency) : s.Grows (s.connect k ds) k ds := by
  intro j
  rw [dependenciesOf_connect]
  split
  · rfl
  · exact (List.append_nil _).symm

theorem Grows.refl (s : State) (k : Nat) : s.Grows s k [] := by
  intro j
  rw [ite_self, List.append_nil]

/-- A step adds its dependencies to one record and keeps every other list. -/
theorem Grows.mem_iff {s s' : State} {k j : Nat} {ds : List Dependency} {d : Dependency}
    (h : s.Grows s' k ds) :
    d ∈ s'.dependenciesOf j ↔ d ∈ s.dependenciesOf j ∨ k = j ∧ d ∈ ds := by
  rw [h j, List.mem_append]
  split <;> simp [*]

end Wiring.State

/-- What an instruction does to the tables of the open frames. -/
theorem Wiring.scopes_of_learn {a : Array Instruction} {x : Index} {w w' : State}
    {s : Replay.State} (h : Occurs code n i e) (hl : learn a x w ⟨n, i, e, s⟩ = .ok w') :
    w'.scopes = match i.op with
      | .setVar name =>
        if w.scope.contains name then w.scopes else w.scope.set name n :: w.scopes.tail
      | .defStart _ | .classStart _ => .empty :: w.scopes
      | .defEnd _ | .classEnd _ => w.scopes.tail
      -- The other operations come with one event each, which decides.
      | _ => w.scopes := by
  rw [learn] at hl
  cases ho : i.op with
  | setVar name =>
    obtain ⟨v, _, -, rfl, -⟩ := h.setVar ho
    simp only [ho, assign] at hl
    obtain rfl := Except.ok.inj hl
    show _ = if (w.scope.get? name).isSome then _ else _
    cases w.scope.get? name <;> rfl
  | pushVar name =>
    obtain ⟨rfl, -⟩ := h.pushVar ho
    simp only [ho] at hl
    split at hl
    · exact (Except.ok.inj hl) ▸ rfl
    · cases hl
  | pushConst name =>
    obtain ⟨rfl, -⟩ := h.pushConst ho
    simp only [ho] at hl
    split at hl
    · exact (Except.ok.inj hl) ▸ rfl
    · cases hl
  | pushArg index =>
    obtain ⟨_, _, -, rfl, -⟩ := h.pushArg ho
    simp only [ho] at hl
    obtain ⟨ds, -, hl⟩ := exists_of_bind_eq_ok hl
    exact (Except.ok.inj hl) ▸ rfl
  | send name count =>
    obtain ⟨_, _, _, -, -, rfl, -⟩ := h.send ho
    simp only [ho] at hl
    split at hl
    · exact (Except.ok.inj hl) ▸ rfl
    · cases hl
  | unknown opcode operand => exact absurd ho h.ne_unknown
  | _ =>
    have he := h.of_op
    rw [ho] at he
    cases e <;> cases he
    simp only [ho] at hl
    exact (Except.ok.inj hl) ▸ rfl

@[simp] theorem Graph.wiringAt_zero (code : List Instruction) (g : Graph) :
    wiringAt code g 0 = .initial := rfl

/-- An instruction adds edges to a record. Locals are looked up in the tables of the wiring. -/
inductive Graph.Adds (code : List Instruction) (g : Graph) (n : Nat) (i : Instruction) :
    Event → Nat → List Dependency → Prop
  | nothing {e k} : Adds code g n i e k []
  | assigned {name v} : i.op = .setVar name → Adds code g n i (.setVar v) n [.record v]
  /-- A later assignment takes over the edges of the first one. -/
  | again {name first v} : i.op = .setVar name →
      (wiringAt code g n).scope.get? name = some first →
      Adds code g n i (.setVar v) n ((wiringAt code g n).dependenciesOf first ++ [.record v])
  | read {name first} : i.op = .pushVar name →
      (wiringAt code g n).scope.get? name = some first → Adds code g n i .pushVar n [.record first]
  | const {name info} : i.op = .pushConst name → g.index.classes.get? name = some info →
      Adds code g n i .pushConst n [.record info.definition]
  | passed {index m ds} : i.op = .pushArg index → Wiring.passedArgs g.index index
      ((g.index.callers.get? (Wiring.methodName code.toArray m)).getD []) = .ok ds →
      Adds code g n i (.pushArg m) n ds
  | sent {r args d} : Wiring.sendDependency g.index ((code[r]?).bind fun i => i.op.givenType?) i
        ⟨args, (stateAt code n).currentClass⟩ ⟨r, n, args⟩ = .ok d →
      Adds code g n i (.send r args) n [d]
  | result {m r} : Adds code g n i (.defEnd m r) m [.record r]
  | branch {opened v} : Adds code g n i (.ifElse opened v) opened [.record v]
  | join {opened v} : Adds code g n i (.ifEnd opened v) opened [.record v]

namespace Graph.Built

variable (b : Built code g)

include b

/-! ### What an instruction adds -/

/-- An assignment is wired to its value and enters the local. -/
theorem wired_setVar {v : Nat} (h : Occurs code n i (.setVar v)) (ho : i.op = .setVar name) :
    wiringAt code g (n + 1) = Wiring.assign (wiringAt code g n) n name v := by
  have hl := b.learns h
  rw [Wiring.learn] at hl
  simp only [ho] at hl
  exact (Except.ok.inj hl).symm

/-- A parameter is wired to what every call of its method passes. -/
theorem wired_pushArg {m : Nat} {index : Int} (h : Occurs code n i (.pushArg m))
    (ho : i.op = .pushArg index) : ∃ ds, Wiring.passedArgs g.index index
        ((g.index.callers.get? (Wiring.methodName code.toArray m)).getD []) = .ok ds ∧
      wiringAt code g (n + 1) = (wiringAt code g n).connect n ds := by
  have hl := b.learns h
  rw [Wiring.learn] at hl
  simp only [ho] at hl
  obtain ⟨ds, hds, hl⟩ := exists_of_bind_eq_ok hl
  exact ⟨ds, hds, (Except.ok.inj hl).symm⟩

/-- A call is wired to the method or operator its receiver is known to have, else to itself as a
site. -/
theorem wired_send {r : Nat} {args : List Nat} (h : Occurs code n i (.send r args)) :
    ∃ d, Wiring.sendDependency g.index ((code[r]?).bind fun i => i.op.givenType?) i
        ⟨args, (stateAt code n).currentClass⟩ ⟨r, n, args⟩ = .ok d ∧
      wiringAt code g (n + 1) = (wiringAt code g n).connect n [d] := by
  obtain ⟨name, count, ho⟩ := h.op_of_send
  obtain ⟨_, _, _, -, -, -, hs⟩ := h.send ho
  -- The event of a call opens no class, so the one it is looked up in is the one before it.
  have hcls : (stateAt code (n + 1)).currentClass = (stateAt code n).currentClass := by rw [hs]; rfl
  have hl := b.learns h
  rw [Wiring.learn] at hl
  simp only [ho, hcls, List.getElem?_toArray] at hl
  split at hl
  · next d hd => exact ⟨d, hd, (Except.ok.inj hl).symm⟩
  · cases hl

/-- A definition is wired to its last value, and its locals are gone. -/
theorem wired_defEnd {m r : Nat} (h : Occurs code n i (.defEnd m r)) :
    wiringAt code g (n + 1) = (wiringAt code g n).closeFrame.connect m [.record r] := by
  have hl := b.learns h
  obtain ⟨name, ho⟩ := h.op_of_defEnd
  rw [Wiring.learn] at hl
  simp only [ho] at hl
  exact (Except.ok.inj hl).symm

/-- A conditional is wired to the last value of either branch. -/
theorem wired_branch {o v : Nat}
    (h : Occurs code n i (.ifElse o v) ∨ Occurs code n i (.ifEnd o v)) :
    wiringAt code g (n + 1) = (wiringAt code g n).connect o [.record v] := by
  -- Both closing records wire the conditional that opened the block.
  rcases h with h | h
  · have hl := b.learns h
    rw [Wiring.learn] at hl
    simp only [h.op_of_ifElse] at hl
    exact (Except.ok.inj hl).symm
  · have hl := b.learns h
    rw [Wiring.learn] at hl
    simp only [h.op_of_ifEnd] at hl
    exact (Except.ok.inj hl).symm

/-- A read is wired to the first assignment of its local in its frame. -/
theorem wiringAt_pushVar (h : Occurs code n i e) (ho : i.op = .pushVar name) :
    ∃ first, (wiringAt code g n).scope.get? name = some first ∧
      wiringAt code g (n + 1) = (wiringAt code g n).connect n [.record first] := by
  obtain ⟨he, -⟩ := h.pushVar ho
  have hl := b.learns h
  rw [Wiring.learn] at hl
  simp only [ho, he] at hl
  split at hl
  · next first hfirst => exact ⟨first, hfirst, (Except.ok.inj hl).symm⟩
  · cases hl

/-- A constant is wired to the record that defines its class. -/
theorem wiringAt_pushConst (h : Occurs code n i e) (ho : i.op = .pushConst name) :
    ∃ info, g.index.classes.get? name = some info ∧
      wiringAt code g (n + 1) = (wiringAt code g n).connect n [.record info.definition] := by
  obtain ⟨he, -⟩ := h.pushConst ho
  have hl := b.learns h
  rw [Wiring.learn] at hl
  simp only [ho, he] at hl
  split at hl
  · next info hinfo => exact ⟨info, hinfo, (Except.ok.inj hl).symm⟩
  · cases hl

/-- An assignment is wired by the value on top. -/
theorem wiringAt_setVar (h : Occurs code n i e) (ho : i.op = .setVar name) :
    ∃ v rest, (stateAt code n).stack = v :: rest ∧
      wiringAt code g (n + 1) = Wiring.assign (wiringAt code g n) n name v := by
  obtain ⟨v, rest, hstack, rfl, -⟩ := h.setVar ho
  exact ⟨v, rest, hstack, b.wired_setVar h ho⟩

/-- A parameter is wired to what the callers of its method pass for it. -/
theorem wiringAt_pushArg {index : Int} (h : Occurs code n i e) (ho : i.op = .pushArg index) :
    ∃ d defs ds, (stateAt code n).defs = d :: defs ∧
      Wiring.passedArgs g.index index
        ((g.index.callers.get? (Wiring.methodName code.toArray d)).getD []) = .ok ds ∧
      wiringAt code g (n + 1) = (wiringAt code g n).connect n ds := by
  obtain ⟨d, defs, hd, rfl, -⟩ := h.pushArg ho
  obtain ⟨ds, hds, hw⟩ := b.wired_pushArg h ho
  exact ⟨d, defs, ds, hd, hds, hw⟩

/-- A call is wired by the type that its receiver is given. -/
theorem wiringAt_send {count : Option Int} (h : Occurs code n i e) (ho : i.op = .send name count) :
    ∃ r args d, e = .send r args ∧
      Wiring.sendDependency g.index ((code[r]?).bind fun i => i.op.givenType?) i
        ⟨args, (stateAt code n).currentClass⟩ ⟨r, n, args⟩ = .ok d ∧
      wiringAt code g (n + 1) = (wiringAt code g n).connect n [d] := by
  obtain ⟨r, args, _, -, -, rfl, -⟩ := h.send ho
  obtain ⟨d, hd, hw⟩ := b.wired_send h
  exact ⟨r, args, d, rfl, hd, hw⟩

/-- The end of a definition wires the definition to the value on top. -/
theorem wiringAt_defEnd (h : Occurs code n i e) (ho : i.op = .defEnd name) :
    ∃ d defs r rest, (stateAt code n).defs = d :: defs ∧ (stateAt code n).stack = r :: rest ∧
      wiringAt code g (n + 1) = (wiringAt code g n).closeFrame.connect d [.record r] := by
  obtain ⟨d, defs, r, rest, hd, hstack, rfl, -⟩ := h.defEnd ho
  exact ⟨d, defs, r, rest, hd, hstack, b.wired_defEnd h⟩

/-- The end of a branch wires the open conditional to the value on top. -/
theorem wiringAt_branch (h : Occurs code n i e) (ho : i.op = .ifElse ∨ i.op = .ifEnd) :
    ∃ o ifs v rest, (stateAt code n).ifs = o :: ifs ∧ (stateAt code n).stack = v :: rest ∧
      wiringAt code g (n + 1) = (wiringAt code g n).connect o.opened [.record v] := by
  rcases ho with ho | ho
  · obtain ⟨o, ifs, v, rest, hifs, hstack, rfl, -⟩ := h.ifElse ho
    exact ⟨o, ifs, v, rest, hifs, hstack, b.wired_branch (.inl h)⟩
  · obtain ⟨o, ifs, v, rest, hifs, hstack, rfl, -⟩ := h.ifEnd ho
    exact ⟨o, ifs, v, rest, hifs, hstack, b.wired_branch (.inr h)⟩

/-- **An instruction adds edges to one record at most.** -/
theorem exists_adds (h : Occurs code n i e) :
    ∃ k ds, Adds code g n i e k ds ∧ (wiringAt code g n).Grows (wiringAt code g (n + 1)) k ds := by
  have hl := b.learns h
  -- The cases are those of `Wiring.learn`, in its order.
  unfold Wiring.learn at hl
  dsimp only at hl
  split at hl
  · next name v ho =>
    rw [← Except.ok.inj hl, Wiring.assign]
    split
    · next first hfirst => exact ⟨n, _, .again ho hfirst, .connect _ _ _⟩
    · exact ⟨n, _, .assigned ho, .connect ((wiringAt code g n).bind name n) _ _⟩
  · next name ho =>
    split at hl
    · next first hfirst => exact ⟨n, _, .read ho hfirst, Except.ok.inj hl ▸ .connect _ _ _⟩
    · cases hl
  · next name ho =>
    split at hl
    · next info hinfo => exact ⟨n, _, .const ho hinfo, Except.ok.inj hl ▸ .connect _ _ _⟩
    · cases hl
  · next index m ho =>
    obtain ⟨ds, hds, hl⟩ := exists_of_bind_eq_ok hl
    exact ⟨n, ds, .passed ho hds, Except.ok.inj hl ▸ .connect _ _ _⟩
  · next name count r args ho =>
    obtain ⟨_, _, _, -, -, -, hs⟩ := h.send ho
    have hcls : (stateAt code (n + 1)).currentClass = (stateAt code n).currentClass := by
      rw [hs]
      rfl
    split at hl
    · next d hd =>
      rw [hcls, List.getElem?_toArray] at hd
      exact ⟨n, _, .sent hd, Except.ok.inj hl ▸ .connect _ _ _⟩
    · cases hl
  · exact ⟨n, [], .nothing, Except.ok.inj hl ▸ .refl _ _⟩
  · exact ⟨_, _, .result, Except.ok.inj hl ▸ .connect (wiringAt code g n).closeFrame _ _⟩
  · exact ⟨n, [], .nothing, Except.ok.inj hl ▸ .refl _ _⟩
  · exact ⟨n, [], .nothing, Except.ok.inj hl ▸ .refl _ _⟩
  · exact ⟨_, _, .branch, Except.ok.inj hl ▸ .connect _ _ _⟩
  · exact ⟨_, _, .join, Except.ok.inj hl ▸ .connect _ _ _⟩
  · exact ⟨n, [], .nothing, Except.ok.inj hl ▸ .refl _ _⟩

/-- What an instruction does to the tables of the open frames of a graph. -/
theorem scopes_succ (h : Occurs code n i e) :
    (wiringAt code g (n + 1)).scopes = match i.op with
      | .setVar name => if (wiringAt code g n).scope.contains name then (wiringAt code g n).scopes
        else (wiringAt code g n).scope.set name n :: (wiringAt code g n).scopes.tail
      | .defStart _ | .classStart _ => .empty :: (wiringAt code g n).scopes
      | .defEnd _ | .classEnd _ => (wiringAt code g n).scopes.tail
      | _ => (wiringAt code g n).scopes :=
  Wiring.scopes_of_learn h (b.learns h)

/-! ### Edges stay -/

/-- A dependency is never taken back. -/
theorem edge_succ (h : Occurs code n i e) {k : Nat} {d : Dependency}
    (hd : d ∈ (wiringAt code g n).dependenciesOf k) :
    d ∈ (wiringAt code g (n + 1)).dependenciesOf k := by
  obtain ⟨_, _, -, hgrows⟩ := b.exists_adds h
  exact hgrows.mem_iff.mpr (.inl hd)

/-- **An edge that has been found is an edge of the graph.** -/
theorem edge_of_wiringAt {k : Nat} {d : Dependency} (hk : k < code.length) (hn : n ≤ code.length)
    (hd : d ∈ (wiringAt code g n).dependenciesOf k) : d ∈ (g.record k).dependencies := by
  rw [b.record_eq (List.getElem?_eq_getElem hk)]
  exact b.point_mono (P := fun m => d ∈ (wiringAt code g m).dependenciesOf k)
    (fun h hm => b.edge_succ h hm) hn (Nat.le_refl _) hd

/-- An edge that one record adds is in the graph. -/
theorem edge_of_connect {s : Wiring.State} {k : Nat} {ds : List Dependency} {d : Dependency}
    (h : Occurs code n i e) (hk : k < code.length) (hw : wiringAt code g (n + 1) = s.connect k ds)
    (hd : d ∈ ds) : d ∈ (g.record k).dependencies := by
  refine b.edge_of_wiringAt hk h.lt ?_
  rw [hw, Wiring.State.dependenciesOf_connect, if_pos rfl]
  exact List.mem_append_right _ hd

/-! ### The edges of each instruction -/

/-- An assignment depends on its value. -/
theorem setVar_edge (h : Occurs code n i e) (ho : i.op = .setVar name) :
    ∃ v rest, (stateAt code n).stack = v :: rest ∧ .record v ∈ (g.record n).dependencies := by
  obtain ⟨v, rest, hstack, hw⟩ := b.wiringAt_setVar h ho
  refine ⟨v, rest, hstack, ?_⟩
  rw [Wiring.assign] at hw
  split at hw
  · exact b.edge_of_connect h h.lt hw (List.mem_append_right _ (.head _))
  · exact b.edge_of_connect h h.lt hw (.head _)

/-- A constant depends on the record of its class. -/
theorem pushConst_edge (h : Occurs code n i e) (ho : i.op = .pushConst name) :
    ∃ info, g.index.classes.get? name = some info ∧
      .record info.definition ∈ (g.record n).dependencies := by
  obtain ⟨info, hinfo, hw⟩ := b.wiringAt_pushConst h ho
  exact ⟨info, hinfo, b.edge_of_connect h h.lt hw (.head _)⟩

/-- A parameter depends on all that is passed for it. -/
theorem pushArg_edge {index : Int} (h : Occurs code n i e) (ho : i.op = .pushArg index) :
    ∃ d defs ds, (stateAt code n).defs = d :: defs ∧
      Wiring.passedArgs g.index index
        ((g.index.callers.get? (Wiring.methodName code.toArray d)).getD []) = .ok ds ∧
      ∀ x ∈ ds, x ∈ (g.record n).dependencies := by
  obtain ⟨d, defs, ds, hd, hds, hw⟩ := b.wiringAt_pushArg h ho
  exact ⟨d, defs, ds, hd, hds, fun x hx => b.edge_of_connect h h.lt hw hx⟩

/-- A call depends on what it was wired to. -/
theorem send_edge {count : Option Int} (h : Occurs code n i e) (ho : i.op = .send name count) :
    ∃ r args d, e = .send r args ∧
      Wiring.sendDependency g.index ((code[r]?).bind fun i => i.op.givenType?) i
        ⟨args, (stateAt code n).currentClass⟩ ⟨r, n, args⟩ = .ok d ∧
      d ∈ (g.record n).dependencies := by
  obtain ⟨r, args, d, he, hd, hw⟩ := b.wiringAt_send h ho
  exact ⟨r, args, d, he, hd, b.edge_of_connect h h.lt hw (.head _)⟩

/-- A definition depends on its last value. -/
theorem defEnd_edge (h : Occurs code n i e) (ho : i.op = .defEnd name) :
    ∃ d defs r rest, (stateAt code n).defs = d :: defs ∧ (stateAt code n).stack = r :: rest ∧
      .record r ∈ (g.record d).dependencies := by
  obtain ⟨d, defs, r, rest, hd, hstack, hw⟩ := b.wiringAt_defEnd h ho
  have hlt := ((b.opened (Nat.le_of_lt h.lt)).defs d (hd ▸ .head _)).1
  exact ⟨d, defs, r, rest, hd, hstack, b.edge_of_connect h (Nat.lt_trans hlt h.lt) hw (.head _)⟩

/-- A conditional depends on the last value of each branch. -/
theorem branch_edge (h : Occurs code n i e) (ho : i.op = .ifElse ∨ i.op = .ifEnd) :
    ∃ o ifs v rest, (stateAt code n).ifs = o :: ifs ∧ (stateAt code n).stack = v :: rest ∧
      .record v ∈ (g.record o.opened).dependencies := by
  obtain ⟨o, ifs, v, rest, hifs, hstack, hw⟩ := b.wiringAt_branch h ho
  have hlt := ((b.opened (Nat.le_of_lt h.lt)).ifs o (hifs ▸ .head _)).1
  exact ⟨o, ifs, v, rest, hifs, hstack, b.edge_of_connect h (Nat.lt_trans hlt h.lt) hw (.head _)⟩

end Graph.Built

/-! ### Where edges start -/

/-- An edge starts at a record without a type from the start. If it leads to a call or an operator,
its record is that call. -/
def EdgeFits (code : List Instruction) (k : Nat) (d : Dependency) : Prop :=
  ∃ i e, Occurs code k i e ∧ i.op.givenType? = none ∧
    ∀ site, d = .send site ∨ d = .operator site → ∃ r args, e = .send r args ∧ site = ⟨r, k, args⟩

/-- An edge to a record fits wherever it starts. -/
theorem EdgeFits.record (h : Occurs code n i e) (hg : i.op.givenType? = none) (m : Nat) :
    EdgeFits code n (.record m) :=
  ⟨i, e, h, hg, fun _ hs => by simp at hs⟩

/-- What holds of the edges and the locals found so far. -/
structure WiringFits (code : List Instruction) (s : Wiring.State) : Prop where
  edges : ∀ k, ∀ d ∈ s.dependenciesOf k, EdgeFits code k d
  /-- Locals are bound to assignments to them. -/
  locals : ∀ scope ∈ s.scopes, ∀ name first, scope.get? name = some first →
    ∃ i e, Occurs code first i e ∧ i.op = .setVar name

namespace WiringFits

variable {s : Wiring.State}

/-- The locals of the innermost frame are bound to assignments to them. -/
theorem scope (h : WiringFits code s) {first : Nat} (hf : s.scope.get? name = some first) :
    ∃ i e, Occurs code first i e ∧ i.op = .setVar name := by
  unfold Wiring.State.scope at hf
  cases hs : s.scopes with
  | nil => simp [hs] at hf
  | cons t ts =>
    rw [hs, List.headD_cons] at hf
    exact h.locals t (hs ▸ List.mem_cons_self) name first hf

end WiringFits

/-- The arguments of a call that an index knows. -/
def Index.argsOf (x : Index) (call : Nat) : List Nat :=
  ((x.calls.get? call).map CallInfo.args).getD []

/-- What calls pass for a parameter are their arguments at its place. -/
theorem Wiring.mem_passedArgs_iff {x : Index} {index : Int} {d : Dependency} :
    ∀ {calls : List Nat} {ds : List Dependency}, passedArgs x index calls = .ok ds →
      (d ∈ ds ↔ ∃ call ∈ calls, index < (x.argsOf call).length ∧
        ∃ arg, elementAt? (x.argsOf call) index = some arg ∧ d = .record arg) := by
  intro calls
  -- On the calls: one that passes too few arguments adds nothing.
  induction calls with
  | nil =>
    intro ds h
    obtain rfl := Except.ok.inj h
    simp
  | cons call rest ih =>
    intro ds h
    rw [passedArgs, ← Index.argsOf] at h
    simp only [List.mem_cons, exists_eq_or_imp]
    split at h
    · next hlt =>
      split at h
      · next arg harg =>
        obtain ⟨others, hothers, h⟩ := exists_of_bind_eq_ok h
        obtain rfl := Except.ok.inj h
        rw [List.mem_cons, ih hothers]
        simp [hlt, harg]
      · cases h
    · next hlt => simp [hlt, ih h]

/-- A call is refused for its name or for its arguments. -/
theorem Index.cause_of_choose {x : Index} {receiver : Ty} {i : Instruction}
    {info : CallInfo} {e : CompileError} (h : x.choose receiver i info = .error e) :
    (∃ name, e.cause = .undefinedMethod name) ∨
      ∃ name given expected, e.cause = .wrongArgumentCount name given expected := by
  -- The count of arguments is the one check made on a method that was found.
  have harity : ∀ {given method : Nat} {methodName : String},
      x.checkArity i given method methodName = .error e →
        ∃ name given expected, e.cause = .wrongArgumentCount name given expected := by
    intro given method methodName h
    unfold checkArity at h
    simp only at h
    split at h
    · cases h
    · cases h
      exact ⟨_, _, _, rfl⟩
  -- A class looks for its method, an instance among its own, nil and the rest nowhere.
  unfold choose at h
  split at h
  · split at h
    · exact .inr (harity h)
    · cases h
      exact .inl ⟨_, rfl⟩
  · split at h <;> cases h
  · split at h
    · exact .inr (harity h)
    · cases h
  · cases h

/-- A call depends on a method, or on its own site. -/
theorem Wiring.sendDependency_cases {x : Index} {type? : Option Ty} {info : CallInfo}
    {site : CallSite} {d : Dependency} (h : sendDependency x type? i info site = .ok d) :
    (∃ m, d = .record m) ∨ d = .operator site ∨ d = .send site := by
  unfold sendDependency at h
  split at h
  · exact .inr (.inr (Except.ok.inj h).symm)
  · exact .inr (.inr (Except.ok.inj h).symm)
  -- The receiver has a type of its own, and the choice of a method falls on it at once.
  · next type _ =>
    obtain ⟨choice, -, h⟩ := exists_of_bind_eq_ok h
    cases choice with
    | method m => exact .inl ⟨m, (Except.ok.inj h).symm⟩
    | operator => exact .inr (.inl (Except.ok.inj h).symm)
    | instantiate => exact .inr (.inr (Except.ok.inj h).symm)

namespace Graph.Built

variable (b : Built code g)

include b

/-- What the end of a definition connects is the record that began it. -/
theorem op_of_result {m r : Nat} (h : Occurs code n i (.defEnd m r)) :
    ∃ j name, code[m]? = some j ∧ j.op = .defStart name := by
  obtain ⟨name, ho⟩ := h.op_of_defEnd
  obtain ⟨d, defs, _, _, hd, -, he, -⟩ := h.defEnd ho
  obtain ⟨rfl, -⟩ := Event.defEnd.inj he
  exact ((b.opened (Nat.le_of_lt h.lt)).defs m (hd ▸ .head _)).2

/-- The record that a branch belongs to opens a conditional. -/
theorem op_of_branch {opened v : Nat}
    (h : Occurs code n i (.ifElse opened v) ∨ Occurs code n i (.ifEnd opened v)) :
    ∃ j, code[opened]? = some j ∧ j.op = .ifStart := by
  rcases h with h | h
  · obtain ⟨o, ifs, _, _, hifs, -, he, -⟩ := h.ifElse h.op_of_ifElse
    obtain ⟨rfl, -⟩ := Event.ifElse.inj he
    exact ((b.opened (Nat.le_of_lt h.lt)).ifs o (hifs ▸ .head _)).2
  · obtain ⟨o, ifs, _, _, hifs, -, he, -⟩ := h.ifEnd h.op_of_ifEnd
    obtain ⟨rfl, -⟩ := Event.ifEnd.inj he
    exact ((b.opened (Nat.le_of_lt h.lt)).ifs o (hifs ▸ .head _)).2

/-- The edges that an instruction adds fit. -/
theorem edgeFits_of_adds {k : Nat} {ds : List Dependency} {d : Dependency} (h : Occurs code n i e)
    (hw : WiringFits code (wiringAt code g n)) (ha : Adds code g n i e k ds) (hd : d ∈ ds) :
    EdgeFits code k d := by
  cases ha with
  | nothing => cases hd
  | assigned ho | read ho _ | const ho _ =>
    obtain rfl := List.mem_singleton.mp hd
    exact .record h (by rw [ho]; rfl) _
  | again ho hfirst =>
    have hgiven : i.op.givenType? = none := by rw [ho]; rfl
    rcases List.mem_append.mp hd with hd | hd
    · -- What the first assignment depends on is no call, so it may be taken over.
      obtain ⟨j, f, hj, hjop⟩ := hw.scope hfirst
      obtain ⟨j', f', hj', -, hsite⟩ := hw.edges _ d hd
      obtain ⟨rfl, rfl⟩ := hj.unique hj'
      refine ⟨i, _, h, hgiven, fun site hs => ?_⟩
      obtain ⟨_, _, hf, -⟩ := hsite site hs
      obtain ⟨_, _, -, hf', -⟩ := hj.setVar hjop
      rw [hf'] at hf
      cases hf
    · obtain rfl := List.mem_singleton.mp hd
      exact .record h hgiven _
  | passed ho hds =>
    obtain ⟨_, -, -, arg, -, rfl⟩ := (Wiring.mem_passedArgs_iff hds).mp hd
    exact .record h (by rw [ho]; rfl) arg
  | @sent r args d' hd' =>
    obtain rfl := List.mem_singleton.mp hd
    obtain ⟨name, count, ho⟩ := h.op_of_send
    have hgiven : i.op.givenType? = none := by rw [ho]; rfl
    rcases Wiring.sendDependency_cases hd' with ⟨m, rfl⟩ | rfl | rfl
    · exact .record h hgiven m
    · refine ⟨i, _, h, hgiven, fun site hs => ⟨r, args, rfl, ?_⟩⟩
      simpa using Eq.symm (by simpa using hs)
    · refine ⟨i, _, h, hgiven, fun site hs => ⟨r, args, rfl, ?_⟩⟩
      simpa using Eq.symm (by simpa using hs)
  -- What is joined to a definition or to a conditional is joined to the record that opened it.
  | result =>
    obtain rfl := List.mem_singleton.mp hd
    obtain ⟨j, _, hj, hjop⟩ := b.op_of_result h
    obtain ⟨f, hf⟩ := b.occurs hj
    exact .record hf (by rw [hjop]; rfl) _
  | branch =>
    obtain rfl := List.mem_singleton.mp hd
    obtain ⟨j, hj, hjop⟩ := b.op_of_branch (.inl h)
    obtain ⟨f, hf⟩ := b.occurs hj
    exact .record hf (by rw [hjop]; rfl) _
  | join =>
    obtain rfl := List.mem_singleton.mp hd
    obtain ⟨j, hj, hjop⟩ := b.op_of_branch (.inr h)
    obtain ⟨f, hf⟩ := b.occurs hj
    exact .record hf (by rw [hjop]; rfl) _

/-- Locals are bound by assignments alone. -/
theorem locals_succ (h : Occurs code n i e) (hw : WiringFits code (wiringAt code g n)) :
    ∀ scope ∈ (wiringAt code g (n + 1)).scopes, ∀ name first, scope.get? name = some first →
      ∃ i e, Occurs code first i e ∧ i.op = .setVar name := by
  intro scope hscope name first hf
  rw [b.scopes_succ h] at hscope
  -- Only an assignment binds; a frame that opens has no local, one that closes uncovers the outer
  -- table.
  cases ho : i.op with
  | setVar other =>
    simp only [ho] at hscope
    split at hscope
    · exact hw.locals scope hscope name first hf
    · -- The table in which the local is bound is the innermost one; the others stay.
      rcases List.mem_cons.mp hscope with rfl | hscope
      · rw [Table.get?_set] at hf
        split at hf
        · next heq =>
          obtain rfl := Option.some.inj hf
          exact ⟨i, e, h, heq ▸ ho⟩
        · exact hw.scope hf
      · exact hw.locals scope (List.mem_of_mem_tail hscope) name first hf
  | defStart _ | classStart _ =>
    rw [ho] at hscope
    rcases List.mem_cons.mp hscope with rfl | hscope
    · simp at hf
    · exact hw.locals scope hscope name first hf
  | defEnd _ | classEnd _ =>
    rw [ho] at hscope
    exact hw.locals scope (List.mem_of_mem_tail hscope) name first hf
  | _ =>
    rw [ho] at hscope
    exact hw.locals scope hscope name first hf

/-- One record keeps the wiring within what the replay has seen. -/
theorem wiringFits_succ (h : Occurs code n i e) (hw : WiringFits code (wiringAt code g n)) :
    WiringFits code (wiringAt code g (n + 1)) := by
  refine ⟨fun k d hd => ?_, b.locals_succ h hw⟩
  obtain ⟨j, ds, hadds, hgrows⟩ := b.exists_adds h
  rcases hgrows.mem_iff.mp hd with hold | ⟨rfl, hnew⟩
  · exact hw.edges k d hold
  · exact b.edgeFits_of_adds h hw hadds hnew

/-- At every point the wiring stays within what the replay has seen. -/
theorem wiringFits (hn : n ≤ code.length) : WiringFits code (wiringAt code g n) := by
  refine b.point_induction ⟨?_, ?_⟩ (fun h hw => b.wiringFits_succ h hw) n hn
  · intro k d hd
    simp at hd
  · intro scope hscope name first hf
    obtain rfl := List.mem_singleton.mp hscope
    simp at hf

/-- **Where an edge of the graph starts.** -/
theorem edgeFits {k : Nat} {d : Dependency} (hd : d ∈ (g.record k).dependencies) :
    EdgeFits code k d := by
  rcases Nat.lt_or_ge k code.length with hk | hk
  · rw [b.record_eq (List.getElem?_eq_getElem hk)] at hd
    exact (b.wiringFits (Nat.le_refl _)).edges k d hd
  · rw [record_eq_default (b.size_eq ▸ hk)] at hd
    cases hd

end Graph.Built

/-! ### Call sites -/

/-- A site that the edges of a record lead to. -/
def Graph.IsSite (g : Graph) (n : Nat) (site : CallSite) : Prop :=
  .send site ∈ (g.record n).dependencies ∨ .operator site ∈ (g.record n).dependencies

/-- What inference relies on: a record with a type has no edges, and a call has one site, with the
arguments that the graph remembers of the call. -/
structure Graph.Wired (g : Graph) : Prop where
  leaf : ∀ {n t}, (g.record n).given? = some t → (g.record n).dependencies = []
  site_call : ∀ {n site}, g.IsSite n site → site.call = n
  site_args : ∀ {n site}, g.IsSite n site → site.args = (g.callInfo n).args
  site_unique : ∀ {n site site'}, g.IsSite n site → g.IsSite n site' → site = site'

/-- **Every graph that is built is wired.** -/
theorem Graph.Built.isWired (b : Built code g) : g.Wired := by
  -- An edge to a site starts at the call of that site.
  have site : ∀ {n s}, g.IsSite n s → ∃ i r args, Occurs code n i (.send r args) ∧
      s = ⟨r, n, args⟩ := by
    intro n s hs
    obtain ⟨d, hd, hds⟩ : ∃ d ∈ (g.record n).dependencies, d = .send s ∨ d = .operator s := by
      rcases hs with hs | hs
      · exact ⟨_, hs, .inl rfl⟩
      · exact ⟨_, hs, .inr rfl⟩
    obtain ⟨i, e, h, -, hsite⟩ := b.edgeFits hd
    obtain ⟨r, args, rfl, rfl⟩ := hsite s hds
    exact ⟨i, r, args, h, rfl⟩
  refine ⟨?_, ?_, ?_, ?_⟩
  · intro n t ht
    refine List.eq_nil_iff_forall_not_mem.mpr fun d hd => ?_
    obtain ⟨i, e, h, hgiven, -⟩ := b.edgeFits hd
    rw [b.record_eq h.1, hgiven] at ht
    cases ht
  · intro n s hs
    obtain ⟨i, r, args, -, rfl⟩ := site hs
    rfl
  · intro n s hs
    obtain ⟨i, r, args, h, rfl⟩ := site hs
    obtain ⟨name, count, ho⟩ := h.op_of_send
    obtain ⟨r', args', he, hcalls⟩ := b.calls_eq h ho
    obtain ⟨rfl, rfl⟩ := Event.send.inj he
    rw [callInfo, b.record_eq h.1, hcalls]
    rfl
  · intro n s s' hs hs'
    obtain ⟨i, r, args, h, rfl⟩ := site hs
    obtain ⟨i', r', args', h', rfl⟩ := site hs'
    obtain ⟨rfl, rfl⟩ := Event.send.inj (h.unique h').2
    rfl

end Rubylet
