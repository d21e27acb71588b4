import Rubylet.Proofs.Typing.Reports

/-!
# Records without a type

A record may have no type because several compete for it. It may also have none because there is
none to be had: it has no type from the start, and nothing that it depends on. Only a parameter can
be in that position, for every other instruction is wired to something: a call to its target, a
variable to its first assignment, a constant to its class, and a conditional or a method to what
closes it. What closes a block comes much later than the block is opened, so the point is that in a
program every block is closed (`exists_ifEnd`, `exists_defEnd`).

* `dependencies_ne_nil`: a record that is neither typed from the start nor a parameter depends on
  something.
* `untypable_is_unpassed`: what cannot be typed for lack of any type is a parameter for which no
  call passes an argument.
-/

namespace Rubylet

open Rubylet.Graph Inference Replay

variable {code : List Instruction} {g : Graph} {links : Nat → Nat → Prop} {n : Nat}
  {i : Instruction} {name : String}

/-! ### Blocks are closed -/

namespace Graph.Indexed

variable {x : Index} (b : Indexed code x)

include b

/-- A conditional that is no longer open at the end has been closed. -/
theorem exists_ifEnd (hfinal : (trace code).final.ifs = []) (hi : code[n]? = some i)
    (ho : i.op = .ifStart) : ∃ m j v, Occurs code m j (.ifEnd n v) := by
  obtain ⟨e, h⟩ := b.occurs hi
  -- From its start on, the conditional is open or has been closed.
  have hlater := b.point_mono (P := fun k => (∃ o ∈ (stateAt code k).ifs, o.opened = n) ∨
    ∃ m j v, Occurs code m j (.ifEnd n v)) ?_ h.lt (Nat.le_refl _) ?_
  · rw [stateAt_of_length_le (Nat.le_refl _), hfinal] at hlater
    exact hlater.resolve_left fun ⟨_, ho, _⟩ => List.not_mem_nil ho
  · rintro k j f hk (⟨o, hmem, hopened⟩ | hclosed)
    · rw [hk.ifs_succ]
      split
      · exact .inl ⟨o, .tail _ hmem, hopened⟩
      · next hop =>
        obtain ⟨o', ifs, v, rest, hifs, -, rfl, -⟩ := hk.ifEnd hop
        rw [hifs] at hmem ⊢
        rcases List.mem_cons.mp hmem with rfl | hmem
        · exact .inr ⟨k, j, v, hopened ▸ hk⟩
        · exact .inl ⟨o, hmem, hopened⟩
      · exact .inl ⟨o, hmem, hopened⟩
    · exact .inr hclosed
  · rw [h.ifs_succ, ho]
    exact .inl ⟨_, .head _, rfl⟩

/-- A method that is no longer open at the end has been closed. -/
theorem exists_defEnd (hfinal : (trace code).final.defs = []) (hi : code[n]? = some i)
    (ho : i.op = .defStart name) : ∃ m j r, Occurs code m j (.defEnd n r) := by
  obtain ⟨e, h⟩ := b.occurs hi
  -- The definition stays open until it is closed, and at the end nothing is open.
  have hlater := b.point_mono (P := fun k => n ∈ (stateAt code k).defs ∨
    ∃ m j r, Occurs code m j (.defEnd n r)) ?_ h.lt (Nat.le_refl _) ?_
  · rw [stateAt_of_length_le (Nat.le_refl _), hfinal] at hlater
    exact hlater.resolve_left List.not_mem_nil
  · rintro k j f hk (hmem | hclosed)
    · rw [hk.defs_succ]
      split
      · exact .inl (.tail _ hmem)
      · next hop =>
        obtain ⟨d, defs, r, rest, hdefs, -, rfl, -⟩ := hk.defEnd hop
        rw [hdefs] at hmem ⊢
        rcases List.mem_cons.mp hmem with rfl | hmem
        · exact .inr ⟨k, j, r, hk⟩
        · exact .inl hmem
      · exact .inl hmem
    · exact .inr hclosed
  · rw [h.defs_succ, ho]
    exact .inl (.head _)

end Graph.Indexed

/-! ### Edges of every record -/

/-- No call passes an argument for a parameter: a record takes the argument of its method at a place,
and all calls of that name have their arguments before that place. -/
def Unpassed (code : List Instruction) (n : Nat) : Prop :=
  ∃ i k d j name, code[n]? = some i ∧ i.op = .pushArg (k : Nat) ∧
    (stateAt code n).defs.head? = some d ∧ code[d]? = some j ∧ j.op = .defStart name ∧
    ∀ (c : Nat) (call : Instruction) (count : Option Int), code[c]? = some call →
      call.op = .send name count → call.op.argCount ≤ k

namespace Graph.Built

variable (b : Built code g)

include b

/-- **Only a parameter may depend on nothing**, of the records that have no type from the start. -/
theorem dependencies_ne_nil (hroles : Roles code links 0 code.length)
    (hifs : (trace code).final.ifs = []) (hdefs : (trace code).final.defs = [])
    (hi : code[n]? = some i) (hgiven : i.op.givenType? = none)
    (harg : ∀ index, i.op ≠ .pushArg index) : (g.record n).dependencies ≠ [] := by
  obtain ⟨e, h⟩ := b.occurs hi
  -- By operation: a value, a table or the end of the block provides the dependency.
  cases ho : i.op with
  | pushConst name =>
    obtain ⟨info, -, hmem⟩ := b.pushConst_edge h ho
    exact List.ne_nil_of_mem hmem
  | pushVar name =>
    obtain ⟨first, -, hw⟩ := b.wiringAt_pushVar h ho
    exact List.ne_nil_of_mem (b.edge_of_connect h h.lt hw (.head _))
  | setVar name =>
    obtain ⟨v, rest, -, hmem⟩ := b.setVar_edge h ho
    exact List.ne_nil_of_mem hmem
  | send name count =>
    obtain ⟨r, args, d, -, -, hmem⟩ := b.send_edge h ho
    exact List.ne_nil_of_mem hmem
  | defStart name =>
    obtain ⟨m, j, r, hend⟩ := b.exists_defEnd hdefs hi ho
    exact List.ne_nil_of_mem ((b.edge_iff hroles).mpr (.result hend))
  | ifStart =>
    obtain ⟨m, j, v, hend⟩ := b.exists_ifEnd hifs hi ho
    exact List.ne_nil_of_mem ((b.edge_iff hroles).mpr (.join hend))
  | pushArg index => exact absurd ho (harg index)
  | unknown opcode operand => exact absurd ho h.ne_unknown
  | _ => rw [ho] at hgiven; cases hgiven

/-- A parameter that depends on nothing is beyond the arguments of all calls of its method. -/
theorem argCount_le_of_nil {k d : Nat} {j : Instruction} (hi : code[n]? = some i)
    (ho : i.op = .pushArg k) (hd : (stateAt code n).defs.head? = some d) (hj : code[d]? = some j)
    (hname : j.op = .defStart name) (hnil : (g.record n).dependencies = []) {c : Nat}
    {call : Instruction} {count : Option Int} (hc : code[c]? = some call)
    (hsend : call.op = .send name count) : call.op.argCount ≤ k := by
  obtain ⟨e, h⟩ := b.occurs hi
  obtain ⟨d', defs, ds, hdefs, hpassed, hmem⟩ := b.pushArg_edge h ho
  obtain rfl : d' = d := by rw [hdefs] at hd; exact Option.some.inj hd
  have hcalled : Wiring.methodName code.toArray d' = name := by
    rw [Wiring.methodName, List.getElem?_toArray, hj, Option.bind_some, hname]
    rfl
  rw [hcalled] at hpassed
  obtain ⟨f, hocc⟩ := b.occurs hc
  obtain ⟨r, args, hcalls, hargs⟩ := b.calls_eq hocc hsend
  obtain ⟨_, _, _, -, hlen, hevent, -⟩ := hocc.send hsend
  obtain ⟨rfl, rfl⟩ := Event.send.inj (hcalls.symm.trans hevent)
  have hargsOf : g.index.argsOf c = args := by rw [Index.argsOf, hargs]; rfl
  by_contra hlt
  have hlt : (k : Int) < (g.index.argsOf c).length := by
    rw [hargsOf, hlen]
    exact Int.ofNat_lt.mpr (Nat.not_le.mp hlt)
  -- A call with an argument at its place would have passed it.
  have hlisted := b.mem_callers hocc hsend
  obtain ⟨arg, harg⟩ := Wiring.exists_passedArgs_iff.mp ⟨ds, hpassed⟩ c hlisted hlt
  have hthere := (Wiring.mem_passedArgs_iff hpassed).mpr ⟨c, hlisted, hlt, arg, harg, rfl⟩
  exact List.not_mem_nil (hnil ▸ hmem _ hthere)

/-- A parameter that depends on nothing has no call that passes it an argument. -/
theorem unpassed_of_nil {index : Int} (hroles : Roles code links 0 code.length)
    (hi : code[n]? = some i) (ho : i.op = .pushArg index)
    (hnil : (g.record n).dependencies = []) : Unpassed code n := by
  have hrole := hroles n i (Nat.zero_le n) (List.getElem?_eq_some_iff.mp hi).1 hi
  rw [ho] at hrole
  obtain ⟨d, j, name, params, k, -, hj, hname, ⟨defs, hdefs⟩, -, -, rfl⟩ := hrole
  have hhead : (stateAt code n).defs.head? = some d := by rw [hdefs]; rfl
  exact ⟨i, k, d, j, name, hi, ho, hhead, hj, hname, fun c call count hc hsend =>
    b.argCount_le_of_nil hi ho hhead hj hname hnil hc hsend⟩

end Graph.Built

/-! ### Programs -/

/-- At the end of a program nothing is open. -/
theorem Layout.nothing_open {xs : List Node}
    (h : Layout code links none (.statements xs) 0 code.length) :
    (trace code).final.ifs = [] ∧ (trace code).final.defs = [] := by
  obtain ⟨_, -, hpasses⟩ := h.passes .initial rfl
  have hfinal : (trace code).final = _ := (hpasses.trace_eq rfl).2.2
  rw [hfinal]
  exact ⟨rfl, rfl⟩

/-- A text that has no tree is refused for its characters or its tokens. -/
theorem category_of_treeOf_error {source : String} {e : CompileError}
    (h : Syntax.treeOf (Terminator.read source) = .error e) : e.cause.category = .parse := by
  -- A syntax error is of the parser whatever it reports.
  have hsyntax : ∀ {α : Type} {x : Except Parse.SyntaxError α},
      x.mapError Syntax.syntaxError = .error e → e.cause.category = .parse := by
    intro α x hx
    cases x with
    | ok a => cases hx
    | error err => rw [← Except.error.inj hx]; rfl
  rcases error_of_bind_eq_error h with h | ⟨stack, -, h⟩
  · exact hsyntax h
  · split at h
    · next lexical hlexical =>
      obtain rfl := Except.error.inj h
      obtain ⟨-, _, _, _, -, -, rfl⟩ := Lexer.refusedAt_of_error hlexical
      rfl
    · exact hsyntax h

/-- What is wrong with a tree is wrong with its parameters or its literals. -/
theorem category_of_mem_faults {t : Tree} {e : CompileError} (h : .compile e ∈ Syntax.faults t) :
    e.cause.category = .parse := by
  rcases Syntax.of_mem_faults t h with ⟨_, _, _, _, _, _, _, -, -, -, heq⟩ | ⟨u, -, hfault⟩
  · obtain rfl := StageError.compile.inj heq
    rfl
  · unfold Syntax.literalFaults at hfault
    split at hfault
    · -- Too many digits are a fault, and not a compile error.
      split at hfault
      · cases List.mem_singleton.mp hfault
      · cases hfault
    · split at hfault
      · cases hfault
      · obtain rfl := StageError.compile.inj (List.mem_singleton.mp hfault)
        rfl
    · cases hfault

/-- A text without code is refused by the parser, or for the structure of its code. -/
theorem category_of_code_error {source : String} {e : CompileError}
    (h : Program.code source = .error (.compile e)) :
    e.cause.category = .parse ∨ e.cause.category = .structural := by
  rcases error_of_bind_eq_error h with h | ⟨root, hread, h⟩
  -- The scanner and the parser fail in one way, the reading of the tree in another. Both are of the
  -- parser.
  · rcases error_of_bind_eq_error h with h | ⟨t, ht, h⟩
    · obtain ⟨e', herror, heq⟩ := mapError_eq_error_iff.mp h
      obtain rfl := StageError.compile.inj heq
      exact .inl (category_of_treeOf_error herror)
    · obtain ⟨hderives, -⟩ := Syntax.tokens_of_treeOf (mapError_eq_ok_iff.mp ht)
      exact .inl (category_of_mem_faults (Syntax.mem_faults_of_ofTree hderives h))
  · obtain ⟨statements, rfl, hsurface⟩ := Syntax.surface_of_read hread
    obtain ⟨e', hlower, heq⟩ := mapError_eq_error_iff.mp h
    obtain rfl := StageError.compile.inj heq
    obtain ⟨_, _, _, rfl, -⟩ := refused_of_lower hsurface hlower
    exact .inr rfl

/-- No graph that cannot be built is refused for a type. -/
theorem cause_of_build_error {error : CompileError} (hr : (trace code).error? = none)
    (h : Graph.build code = .error (.compile error)) : error.cause ≠ .ambiguousType := by
  obtain ⟨n, i, e, w, -, -, hlearn⟩ := exists_of_build_error hr h
  rcases cause_of_learn hlearn with ⟨_, h, -⟩ | ⟨_, h⟩ | ⟨_, h⟩ | ⟨_, _, _, h⟩ <;> rw [h] <;>
    exact nofun

/-- The records of a program that have no type from the start and are no parameters. -/
theorem dependencies_of_code {source : String} (hcode : Program.code source = .ok code)
    (b : Built code g) (hi : code[n]? = some i) (hgiven : i.op.givenType? = none)
    (harg : ∀ index, i.op ≠ .pushArg index) : (g.record n).dependencies ≠ [] := by
  obtain ⟨xs, -, hlayout⟩ := exists_layout_of_code hcode
  obtain ⟨hifs, hdefs⟩ := hlayout.nothing_open
  exact b.dependencies_ne_nil (hlayout.roles hlayout.replayed) hifs hdefs hi hgiven harg

/-- The records of a program that have no type from the start and depend on nothing. -/
theorem unpassed_of_code {source : String} (hcode : Program.code source = .ok code)
    (b : Built code g) (hi : code[n]? = some i) (hgiven : i.op.givenType? = none)
    (hnil : (g.record n).dependencies = []) : Unpassed code n := by
  by_cases harg : ∃ index, i.op = .pushArg index
  · obtain ⟨index, ho⟩ := harg
    obtain ⟨xs, -, hlayout⟩ := exists_layout_of_code hcode
    exact b.unpassed_of_nil (hlayout.roles hlayout.replayed) hi ho hnil
  · exact absurd hnil (dependencies_of_code hcode b hi hgiven fun index ho => harg ⟨index, ho⟩)

/-- **Only parameters can lack all types.** If the type of a record cannot be determined and no types
compete for it, then it is a parameter for which no call passes an argument; this is why it depends
on nothing. All other records that have no type from the start depend on something: those that are
no parameters, and the parameters for which some call passes an argument. -/
theorem untypable_is_unpassed {source : String} :
    (∀ e, Program.typed source = .error (.compile e) → e.cause = .ambiguousType →
      e.candidates = [] → ∃ code g n, Program.code source = .ok code ∧ Graph.build code = .ok g ∧
        e = .atOrigin (g.origin n) .ambiguousType ∧ (g.record n).dependencies = [] ∧
        Unpassed code n) ∧
    ∀ code g n i, Program.code source = .ok code → Graph.build code = .ok g → code[n]? = some i →
      i.op.givenType? = none → (∀ index, i.op ≠ .pushArg index) ∨ ¬ Unpassed code n →
        (g.record n).dependencies ≠ [] := by
  refine ⟨fun e he hcause hcandidates => ?_, fun code g n i hcode hg hi hgiven hother hnil =>
    hother.elim (fun harg => dependencies_of_code hcode (built_of_build hg) hi hgiven harg hnil)
      fun hpassed => hpassed (unpassed_of_code hcode (built_of_build hg) hi hgiven hnil)⟩
  -- Neither a text without code nor a graph that cannot be built is refused for a type.
  cases hcode : Program.code source with
  | error e' =>
    rw [Program.typed, hcode] at he
    obtain rfl := Except.error.inj he
    rcases category_of_code_error hcode with h | h <;> rw [hcause] at h <;> cases h
  | ok code =>
    rw [Program.typed, hcode] at he
    change infer code = _ at he
    obtain ⟨xs, -, hlayout⟩ := exists_layout_of_code hcode
    have hr := hlayout.replayed
    cases hg : Graph.build code with
    | error error =>
      rw [infer, hg] at he
      obtain rfl := Except.error.inj he
      exact absurd hcause (cause_of_build_error hr hg)
    | ok g =>
      have b := built_of_build hg
      cases reported_of_infer_error hg he with
      | single _ hne => exact absurd hcause hne
      | @types n ps hlt hgiven _ hdepends =>
        have hnil := hdepends (List.map_eq_nil_iff.mp hcandidates)
        obtain rfl := List.map_eq_nil_iff.mp hcandidates
        refine ⟨code, g, n, rfl, hg, rfl, hnil, ?_⟩
        obtain ⟨i, hi⟩ : ∃ i, code[n]? = some i :=
          ⟨_, List.getElem?_eq_getElem (b.size_eq ▸ hlt)⟩
        rw [b.record_eq hi] at hgiven
        exact unpassed_of_code hcode b hi hgiven hnil

namespace Sample

/-- A method with a parameter that is never called. -/
def uncalled : String := "def foo(x); x; end"

def uncalledCode : List Instruction := [
  ⟨.defStart "foo", .methodDef, 1, 1⟩,
  ⟨.pushArg 0, .argument "x", 1, 9⟩,
  ⟨.setVar "x", .argument "x", 1, 9⟩,
  ⟨.pushVar "x", .localRead, 1, 13⟩,
  ⟨.defEnd "foo", .methodDef, 1, 1⟩]

/-- The parameter is refused, and no types compete. -/
def uncalledError : CompileError where
  cause := .ambiguousType
  place := .node ⟨.argument "x", 1, 9⟩

theorem code_uncalled : Program.code uncalled = .ok uncalledCode :=
  Syntax.code_of_descend (by decide +kernel)

theorem typed_uncalled : Program.typed uncalled = .error (.compile uncalledError) := by
  rw [Program.typed, code_uncalled]
  exact (by decide +kernel : infer uncalledCode = .error (.compile uncalledError))

end Sample

/-- Nothing is passed for the parameter of a method that is never called; but the method depends on
the value of its body all the same. -/
theorem untypable_is_unpassed_uncalled : ∃ n g, Unpassed Sample.uncalledCode n ∧
    Graph.build Sample.uncalledCode = .ok g ∧ (g.record n).dependencies = [] ∧
      (g.record 0).dependencies ≠ [] := by
  obtain ⟨hnone, hsome⟩ := @untypable_is_unpassed Sample.uncalled
  obtain ⟨code, g, n, hcode, hg, -, hnil, hunpassed⟩ :=
    hnone Sample.uncalledError Sample.typed_uncalled rfl rfl
  obtain rfl := Except.ok.inj (Sample.code_uncalled.symm.trans hcode)
  exact ⟨n, g, hunpassed, hg, hnil, hsome _ g 0 _ hcode hg rfl rfl (.inl nofun)⟩

end Rubylet
