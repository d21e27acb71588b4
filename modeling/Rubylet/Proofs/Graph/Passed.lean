import Rubylet.Proofs.Code.Definitions
import Rubylet.Proofs.Code.Placed
import Rubylet.Proofs.Code.Role
import Rubylet.Proofs.Graph.Exact

/-!
# What calls pass to parameters

Methods are known to the graph by their names alone, so a parameter depends on the arguments of all
calls of its method's name. `parameters_pool_calls` says that no call is lost on the way and none
counts twice: the edges of a parameter are the arguments at its place in the calls of that name that
stand in the source, each of them once and in text order, whatever their receivers are and wherever
they stand. An edge list is compared as a list, so two calls that pass the same record would show.

* `Built.dependencies_eq`: a record that opens nothing has the edges that its own instruction gave
  it, and no others.
* `Indexed.records_sentIn`: the calls among the events of a replay are the instructions that send.
-/

namespace Rubylet

open Replay Direct

/-- Does the operation send a message? -/
def Operation.isSend : Operation → Bool
  | .send _ _ => true
  | _ => false

/-- What calls of a name pass at a place, in text order. A call with too few arguments passes
nothing. -/
def PlacedCall.passed (calls : List PlacedCall) (name : String) (k : Nat) : List Nat :=
  (calls.filter (·.name = name)).filterMap (·.args[k]?)

variable {code : List Instruction} {g : Graph} {n k : Nat} {i j : Instruction} {e : Event}
  {name : String}

/-! ### Edges of records that open nothing -/

namespace Graph.Built

variable (b : Built code g)

include b

/-- An instruction gives edges to its own record, and to one that opens a block around it. -/
theorem dependenciesOf_succ (h : Occurs code n i e) (hk : code[k]? = some j) (hne : n ≠ k)
    (hdef : ∀ name, j.op ≠ .defStart name) (hif : j.op ≠ .ifStart) :
    (wiringAt code g (n + 1)).dependenciesOf k = (wiringAt code g n).dependenciesOf k := by
  obtain ⟨m, ds, hadds, hgrows⟩ := b.exists_adds h
  rw [hgrows k, List.append_right_eq_self, ite_eq_right_iff]
  rintro rfl
  -- What is given to another record is given to a definition or to a conditional.
  cases hadds with
  | nothing => rfl
  | result =>
    obtain ⟨_, name, hj, hop⟩ := b.op_of_result h
    exact absurd (Option.some.inj (hj.symm.trans hk) ▸ hop) (hdef name)
  | branch =>
    obtain ⟨_, hj, hop⟩ := b.op_of_branch (.inl h)
    exact absurd (Option.some.inj (hj.symm.trans hk) ▸ hop) hif
  | join =>
    obtain ⟨_, hj, hop⟩ := b.op_of_branch (.inr h)
    exact absurd (Option.some.inj (hj.symm.trans hk) ▸ hop) hif
  | _ => exact absurd rfl hne

/-- **A record that opens nothing has the edges that its own instruction gave it**, and no
others. -/
theorem dependencies_eq {ds : List Dependency} (h : Occurs code n i e)
    (hdef : ∀ name, i.op ≠ .defStart name) (hif : i.op ≠ .ifStart)
    (hw : wiringAt code g (n + 1) = (wiringAt code g n).connect n ds) :
    (g.record n).dependencies = ds := by
  -- Nothing before the instruction gives its record an edge, and nothing behind it either.
  have before : ∀ m ≤ code.length, m ≤ n → (wiringAt code g m).dependenciesOf n = [] := by
    refine b.point_induction (fun _ => rfl) ?_
    intro m _ _ hm ih hle
    rw [b.dependenciesOf_succ hm h.1 (Nat.ne_of_lt hle) hdef hif, ih (Nat.le_of_succ_le hle)]
  have here : (wiringAt code g (n + 1)).dependenciesOf n = ds := by
    rw [hw, Wiring.State.dependenciesOf_connect, if_pos rfl,
      before n (Nat.le_of_lt h.lt) (Nat.le_refl n), List.nil_append]
  rw [b.record_eq h.1]
  refine (b.point_mono (P := fun m => n < m ∧ (wiringAt code g m).dependenciesOf n = ds) ?_ h.lt
    (Nat.le_refl _) ⟨Nat.lt_succ_self n, here⟩).2
  rintro m _ _ hm ⟨hlt, hds⟩
  exact ⟨Nat.lt_succ_of_lt hlt,
    (b.dependenciesOf_succ hm h.1 (Nat.ne_of_gt hlt) hdef hif).trans hds⟩

end Graph.Built

/-! ### Calls in order -/

/-- What calls pass is read off the arguments that the index knows of them. -/
theorem Wiring.passedArgs_eq {x : Index} {cs : List PlacedCall}
    (h : ∀ c ∈ cs, x.argsOf c.record = c.args) (k : Nat) :
    passedArgs x k (cs.map PlacedCall.record) =
      .ok ((cs.filterMap (·.args[k]?)).map Dependency.record) := by
  induction cs with
  | nil => rfl
  | cons c cs ih =>
    have hrest := ih fun c' hc' => h c' (.tail _ hc')
    rw [List.map_cons, passedArgs, ← Index.argsOf, h c (.head _)]
    -- The call passes the argument, or it has too few.
    rcases Nat.lt_or_ge k c.args.length with hk | hk
    · have harg := List.getElem?_eq_getElem hk
      rw [if_pos (by exact_mod_cast hk), elementAt?_natCast, harg, hrest, List.filterMap_cons, harg]
      rfl
    · rw [if_neg (by exact_mod_cast Nat.not_lt.mpr hk), hrest, List.filterMap_cons,
        List.getElem?_eq_none hk]

/-- What sends a message of a name, sends one, and has that name. -/
theorem Operation.sends_eq (op : Operation) (name : String) :
    op.sends name = (op.isSend && decide (op.name?.getD "" = name)) := by
  cases op <;> rfl

/-- What is consumed as a call is one. -/
theorem Replay.Occurs.isSend_eq (h : Occurs code n i e) : e.isSend = i.op.isSend := by
  have hof := h.of_op
  generalize i.op = op at hof
  cases op <;> cases e <;> first | rfl | cases hof

theorem Replay.records_sentIn_singleton (e : Event) :
    (sentIn code n [e]).map PlacedCall.record = if e.isSend then [n] else [] := by
  cases e <;> rfl

namespace Graph.Indexed

variable {x : Index} (b : Indexed code x)

include b

/-- The calls among the events of a replay. -/
theorem mem_sentIn {c : PlacedCall}
    (h : c ∈ sentIn code 0 ((trace code).steps.map Step.event)) :
    ∃ i, Occurs code c.record i (.send c.receiver c.args) ∧ c.name = nameAt code c.record := by
  obtain ⟨k, hk, hevent, hname⟩ := Replay.mem_sentIn h
  rw [Nat.zero_add] at hk
  subst hk
  -- The event stands in the trace, and the trace has one for each record.
  obtain ⟨t, ht, he⟩ := Option.map_eq_some_iff.mp (List.getElem?_map ▸ hevent)
  have hlt : c.record < code.length := by
    have := (List.getElem?_eq_some_iff.mp ht).1
    rwa [show (trace code).steps.length = code.length from length_steps _ _ _ b.replayed] at this
  obtain ⟨e, hocc⟩ := b.occurs (List.getElem?_eq_getElem hlt)
  obtain rfl := Option.some.inj (ht.symm.trans (b.step_eq hocc))
  obtain rfl : e = .send c.receiver c.args := he
  exact ⟨_, hocc, hname⟩

/-- **The calls among the events of a replay** are the instructions that send, each of them once and
in order. -/
theorem records_sentIn :
    (sentIn code 0 ((trace code).steps.map Step.event)).map PlacedCall.record =
      (List.range code.length).filter fun n => code[n]?.any (·.op.isSend) := by
  have hlen : (trace code).steps.length = code.length := length_steps _ _ _ b.replayed
  -- By induction on how much of the code has been replayed.
  suffices h : ∀ n ≤ code.length,
      (sentIn code 0 (((trace code).steps.take n).map Step.event)).map PlacedCall.record =
        (List.range n).filter fun n => code[n]?.any (·.op.isSend) by
    have := h code.length (Nat.le_refl _)
    rwa [← hlen, List.take_length, hlen] at this
  refine b.point_induction rfl ?_
  intro n i e h ih
  have hle : (((trace code).steps.take n).map Step.event).length = n := by
    rw [List.length_map, List.length_take, hlen, Nat.min_eq_left (Nat.le_of_lt h.lt)]
  rw [List.take_add_one, b.step_eq h, List.map_append, sentIn_append, hle, Nat.zero_add,
    List.map_append, ih, List.range_succ, List.filter_append]
  congr 1
  rw [Option.toList_some, List.map_singleton, records_sentIn_singleton, h.isSend_eq]
  simp only [List.filter_cons, List.filter_nil, h.1, Option.any_some]

/-- The callers of a name are the calls of that name among the events. -/
theorem callers_eq_sentIn (name : String) : (x.callers.get? name).getD [] =
    ((sentIn code 0 ((trace code).steps.map Step.event)).filter (·.name = name)).map
      PlacedCall.record := by
  have hname : ∀ c ∈ sentIn code 0 ((trace code).steps.map Step.event), decide (c.name = name) =
      ((fun n => decide (nameAt code n = name)) ∘ PlacedCall.record) c := by
    intro c hc
    obtain ⟨_, -, hc⟩ := b.mem_sentIn hc
    rw [hc]
    rfl
  -- Both lists are filtered from the same records, one by operation and one by event.
  rw [b.callers_eq, List.filter_congr hname, ← List.filter_map, b.records_sentIn,
    List.filter_filter]
  refine List.filter_congr fun n hn => ?_
  rw [nameAt, List.getElem?_eq_getElem (List.mem_range.mp hn)]
  simp [Operation.sends_eq, Bool.and_comm]

/-- The index knows the arguments of a call that is found. -/
theorem argsOf_sentIn {c : PlacedCall}
    (h : c ∈ sentIn code 0 ((trace code).steps.map Step.event)) : x.argsOf c.record = c.args := by
  obtain ⟨i, hocc, -⟩ := b.mem_sentIn h
  obtain ⟨name, count, ho⟩ := hocc.op_of_send
  obtain ⟨r, args, he, hcalls⟩ := b.calls_eq hocc ho
  obtain ⟨rfl, rfl⟩ := Event.send.inj he
  rw [Index.argsOf, hcalls]
  rfl

end Graph.Indexed

/-! ### Parameters -/

/-- The definition that stands at a record of the code of a program. -/
theorem Layout.exists_declared {links : Nat → Nat → Prop} {statements : List Node}
    (h : Layout code links none (.statements statements) 0 code.length) (hi : code[n]? = some i)
    (ho : i.op = .defStart name) :
    ∃ d, .method d ∈ declared statements ∧ d.record = n ∧ d.name = name := by
  -- The opening record is among the definitions of the code.
  have hmem : n ∈ definitionsIn code 0 code.length := by
    rw [definitionsIn, List.mem_filter, List.mem_range'_1]
    refine ⟨⟨Nat.zero_le n, ?_⟩, ?_⟩
    · have := (List.getElem?_eq_some_iff.mp hi).1
      omega
    · rw [hi, Option.any_some, ho]
      rfl
  rw [← h.definitions, List.mem_filterMap] at hmem
  obtain ⟨declaration, hd, hrecord⟩ := hmem
  -- A class has no record of its own in that list.
  cases declaration with
  | cls c => cases hrecord
  | method d =>
    obtain rfl := Option.some.inj hrecord
    obtain ⟨pos, _, -, -, hlaid⟩ := h.laidOut hd
    rw [← Option.some.inj (hlaid.opener.symm.trans hi)] at ho
    exact ⟨d, hd, rfl, Operation.defStart.inj ho⟩

/-- The calls of a program, its parameters and its edges, as the source has them. -/
structure CallsPooled (statements : List Node) (code : List Instruction) (g : Graph) : Prop where
  /-- The calls of the source are the instructions that send, each of them once and in order. -/
  calls : (Node.placedCallsAll 0 statements).map PlacedCall.record =
    (List.range code.length).filter fun n => code[n]?.any (·.op.isSend)
  /-- A parameter stands in the frame of a method of the source. It depends on what the calls of the
  name of that method pass at its place, and on nothing else. -/
  parameters : ∀ n i (index : Int), code[n]? = some i → i.op = .pushArg index →
    ∃ d, ∃ k : Nat, .method d ∈ declared statements ∧ frameOf code n = some d.record ∧ index = k ∧
      (g.record n).dependencies =
        (PlacedCall.passed (Node.placedCallsAll 0 statements) d.name k).map Dependency.record
  /-- What the graph has remembered of a call are the operands that its edge was made from: those on
  the stack of the replay, where the source has them. -/
  operands : ∀ c ∈ Node.placedCallsAll 0 statements,
    (g.record c.record).call?.map CallInfo.args = some c.args ∧
      (∃ i count, code[c.record]? = some i ∧ i.op = .send c.name count) ∧
      (∃ rest, (stateAt code c.record).stack = c.args.reverse ++ c.receiver :: rest) ∧
      ∃ d, (g.record c.record).dependencies = [d] ∧
        ∀ site, d = .send site ∨ d = .operator site → site = ⟨c.receiver, c.record, c.args⟩

/-- **No call is lost, and none counts twice.** -/
theorem Graph.parameters_pool_calls {source : String} (hcode : Program.code source = .ok code)
    (hbuild : Graph.build code = .ok g) :
    ∃ statements, Syntax.read source = .ok (.block .start statements) ∧
      CallsPooled statements code g := by
  obtain ⟨statements, hread, hlayout⟩ := exists_layout_of_code hcode
  have b := Graph.built_of_build hbuild
  have hroles := hlayout.roles b.replayed
  have hsent := hlayout.sentIn_eq
  refine ⟨statements, hread, ?_, ?_, ?_⟩
  · rw [← hsent, b.records_sentIn]
  · intro n i index hi ho
    have hrole := hroles n i (Nat.zero_le n) (List.getElem?_eq_some_iff.mp hi).1 hi
    rw [ho] at hrole
    -- The innermost block around a parameter is its method, and that is the frame the wiring is in.
    obtain ⟨opener, j, name, _, k, hcloses, hj, hop, ⟨defs, hdefs⟩, -, -, rfl⟩ := hrole
    obtain ⟨d, hd, rfl, rfl⟩ := hlayout.exists_declared hj hop
    refine ⟨d, k, hd, ?_, rfl, ?_⟩
    · rw [frameOf, hcloses.openers_eq, List.head?_cons]
    obtain ⟨e, h⟩ := b.occurs hi
    obtain ⟨d', defs', ds, hd', hds, hw⟩ := b.wiringAt_pushArg h ho
    obtain ⟨rfl, rfl⟩ := List.cons.inj (hdefs.symm.trans hd')
    have hname : Wiring.methodName code.toArray d.record = d.name := by
      rw [Wiring.methodName, List.getElem?_toArray, hj, Option.bind_some, hop]
      rfl
    -- Callers are looked up by the name in the code, calls in the source by the name in the syntax.
    rw [hname, b.callers_eq_sentIn, Wiring.passedArgs_eq fun c hc =>
      b.argsOf_sentIn (List.mem_filter.mp hc).1] at hds
    rw [b.dependencies_eq h (by simp [ho]) (by simp [ho]) hw, ← Except.ok.inj hds, hsent]
    rfl
  · intro c hc
    rw [← hsent] at hc
    obtain ⟨i, h, hname⟩ := b.mem_sentIn hc
    obtain ⟨name, count, ho⟩ := h.op_of_send
    obtain ⟨r, args, rest, hstack, -, he, -⟩ := h.send ho
    obtain ⟨rfl, rfl⟩ := Event.send.inj he
    obtain ⟨d, hd, hw⟩ := b.wired_send h
    have hdeps := b.dependencies_eq h (by simp [ho]) (by simp [ho]) hw
    obtain rfl : c.name = name := by
      rw [hname, nameAt, h.1, Option.bind_some, ho]
      rfl
    refine ⟨?_, ⟨i, count, h.1, ho⟩, ⟨rest, hstack⟩, d, hdeps, fun site hsite => ?_⟩
    · obtain ⟨r, args, he, hcalls⟩ := b.calls_eq h ho
      obtain ⟨-, rfl⟩ := Event.send.inj he
      rw [b.record_eq h.1, hcalls]
      rfl
    · have hmem : d ∈ (g.record c.record).dependencies := hdeps ▸ .head _
      obtain ⟨j, f, hocc, -, hfits⟩ := b.edgeFits hmem
      obtain ⟨r, args, rfl, rfl⟩ := hfits site hsite
      obtain ⟨rfl, rfl⟩ := Event.send.inj (hocc.unique h).2
      rfl

namespace Sample

/-- Two methods of one name, with different numbers of parameters. They are called in one of them,
behind both, and in an argument. -/
def pooled : String :=
  "class A\n def f(x, y)\n  y\n end\nend\ndef f(x)\n f(x)\nend\nA.new.f(1, 2)\nf(f(3))\n"

def pooledCode : List Instruction := [
  ⟨.classStart "A", .classDef, 1, 1⟩,
  ⟨.defStart "f", .methodDef, 2, 2⟩,
  ⟨.pushArg 0, .argument "x", 2, 8⟩,
  ⟨.setVar "x", .argument "x", 2, 8⟩,
  ⟨.pushArg 1, .argument "y", 2, 11⟩,
  ⟨.setVar "y", .argument "y", 2, 11⟩,
  ⟨.pushVar "y", .localRead, 3, 3⟩,
  ⟨.defEnd "f", .methodDef, 2, 2⟩,
  ⟨.classEnd "A", .classDef, 1, 1⟩,
  ⟨.defStart "f", .methodDef, 6, 1⟩,
  ⟨.pushArg 0, .argument "x", 6, 7⟩,
  ⟨.setVar "x", .argument "x", 6, 7⟩,
  ⟨.pushNil, .call, 7, 2⟩,
  ⟨.pushVar "x", .localRead, 7, 4⟩,
  ⟨.send "f" (some 1), .call, 7, 2⟩,
  ⟨.defEnd "f", .methodDef, 6, 1⟩,
  ⟨.pushConst "A", .constant, 9, 1⟩,
  ⟨.send "new" (some 0), .call, 9, 3⟩,
  ⟨.pushInt 1, .integer, 9, 9⟩,
  ⟨.pushInt 2, .integer, 9, 12⟩,
  ⟨.send "f" (some 2), .call, 9, 7⟩,
  ⟨.pushNil, .call, 10, 1⟩,
  ⟨.pushNil, .call, 10, 3⟩,
  ⟨.pushInt 3, .integer, 10, 5⟩,
  ⟨.send "f" (some 1), .call, 10, 3⟩,
  ⟨.send "f" (some 1), .call, 10, 1⟩]

theorem code_pooled : Program.code pooled = .ok pooledCode :=
  Syntax.code_of_descend (by decide +kernel)

end Sample

/-- All four calls pass something to the first parameter of either method; only one has a second
argument. -/
theorem parameters_pool_calls_pooled : ∃ g, Graph.build Sample.pooledCode = .ok g ∧
    (∃ statements, Syntax.read Sample.pooled = .ok (.block .start statements) ∧
      CallsPooled statements Sample.pooledCode g) ∧
    (g.record 2).dependencies = [.record 13, .record 18, .record 23, .record 24] ∧
    (g.record 10).dependencies = (g.record 2).dependencies ∧
    (g.record 4).dependencies = [.record 19] := by
  obtain ⟨g, hg⟩ := exists_of_isOk (by decide +kernel : (Graph.build Sample.pooledCode).isOk)
  -- One evaluation of the wiring gives all three lists.
  have hedges : ((Graph.build Sample.pooledCode).map fun g =>
      [2, 10, 4].map fun n => (g.record n).dependencies) = .ok
        [[.record 13, .record 18, .record 23, .record 24],
          [.record 13, .record 18, .record 23, .record 24], [.record 19]] := by decide +kernel
  rw [hg] at hedges
  obtain ⟨hfirst, hlater⟩ := List.cons.inj (Except.ok.inj hedges)
  obtain ⟨hother, hlater⟩ := List.cons.inj hlater
  exact ⟨g, hg, Graph.parameters_pool_calls Sample.code_pooled hg, hfirst,
    hother.trans hfirst.symm, (List.cons.inj hlater).1⟩

end Rubylet
