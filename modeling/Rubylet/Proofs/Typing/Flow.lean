import Rubylet.Proofs.Code.Tables
import Rubylet.Proofs.Graph.Locals
import Rubylet.Proofs.Typing.Classes

/-!
# Values at records

`Graph.Holds g n v` says that a value may come from a record: it has the record's type, and if it is
a class, the edges lead from the record to the name of that class. Types alone would not do, since
all classes have one type and `new` answers an object of one of them.

Values flow along edges (`Holds.flow`). What happens at a call is in `Built.send_typed`: its receiver
has a type, the index chooses by that type what the call means, and the call has the type of what
is chosen.
-/

namespace Rubylet

open Replay

/-- The type of a value. -/
def Value.ty : Value → Ty
  | nil => .nil
  | int _ => .int
  | str _ => .str
  | cls _ => .cls
  | object className => .object className

variable {code : List Instruction} {g : Graph} {n m : Nat} {i : Instruction} {e : Event}
  {t : Ty} {v : Value}

namespace Graph

/-- A value may come from a record. -/
structure Holds (g : Graph) (n : Nat) (v : Value) : Prop where
  type : g.HasType (.record n) v.ty
  names : ∀ c, v = .cls c → g.Yields n c

/-- What a record with edges is typed by. -/
theorem HasType.edge (hw : g.Wired) (h : g.HasType (.record n) t) {d : Dependency}
    (hd : d ∈ (g.record n).dependencies) : g.HasType d t := by
  cases h with
  | given h => rw [hw.leaf h] at hd; cases hd
  | agreed _ _ h => exact h d hd

/-- **Values flow along edges.** -/
theorem Holds.flow (hw : g.Wired) (hv : g.Holds m v) (hd : .record m ∈ (g.record n).dependencies)
    (ht : g.HasType (.record n) t) (hc : g.classNamed? n = none) : g.Holds n v := by
  obtain rfl := (ht.edge hw hd).unique hv.type
  exact ⟨ht, fun c h => .record hc hd (hv.names c h)⟩

/-- What an operator is typed by. -/
theorem HasType.of_operator {site : CallSite} (h : g.HasType (.operator site) t) :
    ∃ receiver o arg, g.HasType (.record site.receiver) receiver ∧
      ((g.record site.call).instruction.op.name?.bind (Operator.find? receiver)) = some o ∧
      site.args = [arg] ∧ g.HasType (.record arg) o.argType ∧ t = o.resultType := by
  cases h with
  | operator hr ho hargs ha => exact ⟨_, _, _, hr, ho, hargs, ha, rfl⟩

end Graph

/-- Only a class is instantiated. -/
theorem Index.choose_instantiate {x : Index} {receiver : Ty} {info : CallInfo}
    (h : x.choose receiver i info = .ok .instantiate) : receiver = .cls := by
  -- A check of the arguments never ends in an instantiation.
  have harity : ∀ given method name, x.checkArity i given method name ≠ .ok .instantiate := by
    intro given method name h
    unfold checkArity at h
    dsimp only at h
    split at h <;> cases h
  unfold choose at h
  split at h
  · split at h
    · exact absurd h (harity _ _ _)
    · cases h
  · rfl
  · split at h
    · exact absurd h (harity _ _ _)
    · cases h
  · cases h

/-- A call of a method gives as many arguments as the method has parameters. -/
theorem Index.choose_method {x : Index} {receiver : Ty} {info : CallInfo} {d : Nat}
    (h : x.choose receiver i info = .ok (.method d)) :
    info.args.length = (x.arity.get? d).getD 0 ∧
      ((receiver = .nil ∧ (i.op.name?.bind fun name => x.implicitMethod name info.owner) = some d) ∨
        ∃ c, receiver = .object c ∧
          (i.op.name?.bind fun name => x.findMethod name (some c)) = some d) := by
  -- The check lets the method through and no other.
  have harity : ∀ {given method name}, x.checkArity i given method name = .ok (.method d) →
      method = d ∧ given = (x.arity.get? d).getD 0 := by
    intro given method name h
    unfold checkArity at h
    dsimp only at h
    -- The receiver is nil and the method is looked up around it, or it is an object with methods of
    -- its own.
    split at h
    · next heq =>
      obtain rfl := Choice.method.inj (Except.ok.inj h)
      exact ⟨rfl, heq⟩
    · cases h
  unfold choose at h
  split at h
  · split at h
    · next method hm =>
      obtain ⟨rfl, hlen⟩ := harity h
      exact ⟨hlen, .inl ⟨rfl, hm⟩⟩
    · cases h
  · split at h <;> cases h
  · next c =>
    split at h
    · next method hm =>
      obtain ⟨rfl, hlen⟩ := harity h
      exact ⟨hlen, .inr ⟨c, rfl, hm⟩⟩
    · cases h
  · cases h

/-- What a choice makes of the type of a call, and of the classes that it may stand for. -/
def Graph.Chosen (g : Graph) (n r : Nat) (args : List Nat) (t : Ty) : Choice → Prop
  | .method d => g.HasType (.record d) t ∧ ∀ c, g.Yields d c → g.Yields n c
  | .operator => g.HasType (.operator ⟨r, n, args⟩) t
  | .instantiate => ∃ name, t = .object name ∧ ∀ c, g.Yields r c → c = name

/-- The target of a call that a choice leads to. -/
def Graph.Meant (g : Graph) (site : CallSite) (found : Target) : Choice → Prop
  | .method d => found = .method d
  | .operator => found = .operator site
  | .instantiate => ∃ name, found = .object name ∧ ∀ c, g.Yields site.receiver c → c = name

/-- The target of a call is chosen by the type of its receiver. -/
theorem Graph.HasTarget.exists_choose {site : CallSite} {found : Target}
    (h : g.HasTarget site found) (hargs : (g.callInfo site.call).args = site.args) :
    ∃ receiver choice, g.HasType (.record site.receiver) receiver ∧
      g.index.choose receiver (g.record site.call).instruction (g.callInfo site.call) = .ok choice ∧
      g.Meant site found choice := by
  cases h with
  | @dispatched _ receiver targets _ hr hright hcov hdispatch =>
    obtain ⟨choice, hchoose, hcase⟩ := dispatch_cases hdispatch
    refine ⟨receiver, choice, hr, hchoose, ?_⟩
    -- The target means what was chosen; for an object the class is the only one the call stands on.
    cases choice with
    | method d => exact hcase
    | operator => rw [hargs] at hcase; exact hcase
    | instantiate =>
      obtain ⟨name, hname, rfl⟩ := hcase
      exact ⟨name, rfl, fun c hc => hc.eq_of_className hright hcov hname⟩

/-- A target that is found later is chosen by the type that the receiver has then. -/
theorem Graph.HasType.exists_chosen {site : CallSite} (h : g.HasType (.send site) t)
    (hcls : g.classNamed? site.call = none)
    (hmem : .send site ∈ (g.record site.call).dependencies)
    (hargs : (g.callInfo site.call).args = site.args) :
    ∃ receiver choice, g.HasType (.record site.receiver) receiver ∧
      g.index.choose receiver (g.record site.call).instruction (g.callInfo site.call) = .ok choice ∧
      g.Chosen site.call site.receiver site.args t choice := by
  -- Whatever the type is taken from tells the target, and with it the choice.
  cases h with
  | @method _ d _ hd hdt =>
    obtain ⟨receiver, choice, hr, hchoose, hmeant⟩ := hd.exists_choose hargs
    refine ⟨receiver, choice, hr, hchoose, ?_⟩
    cases choice with
    | method d' =>
      obtain rfl := Target.method.inj hmeant
      exact ⟨hdt, fun c hc => .method hcls hmem hd hc⟩
    | operator => cases hmeant
    | instantiate => obtain ⟨_, hmeant, -⟩ := hmeant; cases hmeant
  | primitive hp hot =>
    obtain ⟨receiver, choice, hr, hchoose, hmeant⟩ := hp.exists_choose hargs
    refine ⟨receiver, choice, hr, hchoose, ?_⟩
    cases choice with
    | method d' => cases hmeant
    | operator => obtain rfl := Target.operator.inj hmeant; exact hot
    | instantiate => obtain ⟨_, hmeant, -⟩ := hmeant; cases hmeant
  | object ho =>
    obtain ⟨receiver, choice, hr, hchoose, hmeant⟩ := ho.exists_choose hargs
    refine ⟨receiver, choice, hr, hchoose, ?_⟩
    cases choice with
    | method d' => cases hmeant
    | operator => cases hmeant
    | instantiate =>
      obtain ⟨name, hmeant, honly⟩ := hmeant
      obtain rfl := Target.object.inj hmeant
      exact ⟨_, rfl, honly⟩

namespace Graph.Built

variable (b : Built code g)

include b

theorem classNamed?_eq (hi : code[n]? = some i) :
    g.classNamed? n =
      match i.op with
      | .pushConst name | .classStart name => some name
      | _ => none := by
  cases hop : i.op <;> simp only [classNamed?, b.record_eq hi, hop]

/-- The index knows a class by a record that opens it. -/
theorem class_definition {c : String} {info : ClassInfo}
    (h : g.index.classes.get? c = some info) :
    ∃ i, code[info.definition]? = some i ∧ i.op = .classStart c := by
  -- By induction on the points: only where a class is opened do the classes of the index change.
  suffices hall : ∀ n, n ≤ code.length → ∀ c d,
      ((indexAt code n).classes.get? c).map ClassInfo.definition = some d →
        ∃ i, code[d]? = some i ∧ i.op = .classStart c by
    refine hall code.length (Nat.le_refl _) c info.definition ?_
    rw [b.indexAt_length, h]
    rfl
  refine b.point_induction (fun c d h => nomatch h) ?_
  intro n i e hocc ih
  refine b.index_cases hocc (P := fun x => ∀ c d,
    (x.classes.get? c).map ClassInfo.definition = some d →
      ∃ i, code[d]? = some i ∧ i.op = .classStart c) ?_ ?_ ?_ ?_ ih
  · intro name hop c d hd
    rw [Index.classes_openClass] at hd
    split at hd
    · next heq =>
      obtain rfl := Option.some.inj hd
      exact ⟨i, hocc.1, heq.1 ▸ hop⟩
    · exact ih c d hd
  · intro name _ c d hd
    rw [Index.classes_define] at hd
    exact ih c d hd
  · intro _ _ _ _ _ c d hd
    exact ih c d hd
  · intro _ _ _ _ _ _ c d hd
    exact ih c d hd

/-- The record that defines a class is a class. -/
theorem class_typed {c : String} {info : ClassInfo} (h : g.index.classes.get? c = some info) :
    g.HasType (.record info.definition) .cls := by
  obtain ⟨i, hi, ho⟩ := b.class_definition h
  exact .given (by rw [b.record_eq hi, ho]; rfl)

/-- The index knows a method by the record that defines it, in its class. -/
theorem method_definition {other : String} {c : Option String} {d : Nat}
    (h : g.index.findMethod other c = some d) :
    ∃ i, code[d]? = some i ∧ i.op = .defStart other ∧ (stateAt code d).currentClass = c := by
  -- By induction on the points: only where a method is defined do the methods of the index change.
  suffices hall : ∀ n, n ≤ code.length → ∀ other c d,
      (indexAt code n).findMethod other c = some d →
        ∃ i, code[d]? = some i ∧ i.op = .defStart other ∧ (stateAt code d).currentClass = c from
    hall code.length (Nat.le_refl _) other c d (b.indexAt_length ▸ h)
  refine b.point_induction ?_ ?_
  · intro other c d h
    cases c <;> cases h
  intro n i e hocc ih
  refine b.index_cases hocc (P := fun x => ∀ other c d, x.findMethod other c = some d →
    ∃ i, code[d]? = some i ∧ i.op = .defStart other ∧ (stateAt code d).currentClass = c) ?_ ?_ ?_ ?_ ih
  · intro name _ other c d hd
    rw [Index.findMethod_openClass] at hd
    exact ih other c d hd
  · intro name hop other c d hd
    rcases Index.findMethod_define_cases _ _ _ _ _ hd with ⟨rfl, rfl, rfl⟩ | hd
    · exact ⟨i, hocc.1, hop, rfl⟩
    · exact ih other c d hd
  · intro _ _ _ _ _ other c d hd
    exact ih other c d hd
  · intro _ _ _ _ _ _ other c d hd
    exact ih other c d hd

/-- **What a call is typed by.** -/
theorem send_typed {name : String} {count : Option Int} (h : Occurs code n i e)
    (ho : i.op = .send name count) (ht : g.HasType (.record n) t) :
    ∃ r args receiver choice, e = .send r args ∧ g.HasType (.record r) receiver ∧
      g.index.choose receiver i ⟨args, (stateAt code n).currentClass⟩ = .ok choice ∧
      g.Chosen n r args t choice := by
  obtain ⟨r, args, d, he, hd, hmem⟩ := b.send_edge h ho
  have hcls : g.classNamed? n = none := by rw [b.classNamed?_eq h.1, ho]
  have htd := ht.edge b.isWired hmem
  have hinfo : g.callInfo n = ⟨args, (stateAt code n).currentClass⟩ := by
    obtain ⟨r', args', he', hcalls⟩ := b.calls_eq h ho
    obtain ⟨rfl, rfl⟩ := Event.send.inj (he.symm.trans he')
    rw [callInfo, b.record_eq h.1, hcalls]
    rfl
  have hinstr : (g.record n).instruction = i := by rw [b.record_eq h.1]
  have later : d = .send ⟨r, n, args⟩ → ∃ receiver choice, g.HasType (.record r) receiver ∧
      g.index.choose receiver i ⟨args, (stateAt code n).currentClass⟩ = .ok choice ∧
      g.Chosen n r args t choice := by
    rintro rfl
    have hchosen := htd.exists_chosen hcls hmem (by rw [hinfo])
    dsimp only at hchosen
    rwa [hinstr, hinfo] at hchosen
  -- The target is looked up before inference only for a receiver that has its type from the start.
  unfold Wiring.sendDependency at hd
  split at hd
  · obtain ⟨receiver, choice, hr, hchoose, hchosen⟩ := later (Except.ok.inj hd).symm
    exact ⟨r, args, receiver, choice, he, hr, hchoose, hchosen⟩
  · obtain ⟨receiver, choice, hr, hchoose, hchosen⟩ := later (Except.ok.inj hd).symm
    exact ⟨r, args, receiver, choice, he, hr, hchoose, hchosen⟩
  · next receiver hnot hgiven =>
    obtain ⟨choice, hchoose, hd⟩ := exists_of_bind_eq_ok hd
    obtain ⟨j, hj, hjt⟩ := Option.bind_eq_some_iff.mp hgiven
    have hr : g.HasType (.record r) receiver := .given (by rw [b.record_eq hj, hjt])
    refine ⟨r, args, receiver, choice, he, hr, hchoose, ?_⟩
    cases choice with
    | method m =>
      obtain rfl := Except.ok.inj hd
      exact ⟨htd, fun c hc => .record hcls hmem hc⟩
    | operator =>
      obtain rfl := Except.ok.inj hd
      exact htd
    | instantiate => exact absurd (Index.choose_instantiate hchoose) (by rintro rfl; simp at hnot)

end Graph.Built

/-! ### Parameters -/

/-- What a call passes for a parameter is among what the parameter depends on. -/
theorem Wiring.passed_mem {x : Index} {k arg call : Nat} {info : CallInfo}
    (hinfo : x.calls.get? call = some info) (harg : info.args[k]? = some arg) :
    ∀ {calls : List Nat} {ds : List Dependency}, passedArgs x k calls = .ok ds → call ∈ calls →
      .record arg ∈ ds := by
  intro calls
  induction calls with
  | nil => exact fun _ hmem => nomatch hmem
  | cons c rest ih =>
    intro ds h hmem
    rw [passedArgs] at h
    -- The call is the first of the list and passes this argument, or it comes later.
    rcases List.mem_cons.mp hmem with rfl | hmem
    · have hlt := (List.getElem?_eq_some_iff.mp harg).1
      simp only [hinfo, Option.map_some, Option.getD_some, Int.ofNat_lt, hlt, if_true,
        elementAt?_natCast, harg] at h
      obtain ⟨others, -, h⟩ := exists_of_bind_eq_ok h
      obtain rfl := Except.ok.inj h
      exact .head _
    · split at h
      · split at h
        · obtain ⟨others, hothers, h⟩ := exists_of_bind_eq_ok h
          obtain rfl := Except.ok.inj h
          exact .tail _ (ih hothers hmem)
        · cases h
      · exact ih h hmem

/-- **A parameter depends on the argument at its place** in every call of the method's name. -/
theorem Graph.Built.argument_edge (b : Built code g) {q d k r arg : Nat} {j f : Instruction}
    {e' : Event} {args : List Nat} {name : String} {count : Option Int} {defs : List Nat}
    (h : Occurs code n i (.send r args)) (ho : i.op = .send name count)
    (hq : Occurs code q j e') (hqo : j.op = .pushArg k) (hdefs : (stateAt code q).defs = d :: defs)
    (hd : code[d]? = some f) (hname : f.op = .defStart name) (harg : args[k]? = some arg) :
    .record arg ∈ (g.record q).dependencies := by
  obtain ⟨d', defs', ds, hdefs', hds, hmem⟩ := b.pushArg_edge hq hqo
  obtain ⟨rfl, rfl⟩ := List.cons.inj (hdefs.symm.trans hdefs')
  -- The parameter stands in the definition of the method that is called by this name.
  have hmethod : Wiring.methodName code.toArray d = name := by
    rw [Wiring.methodName, List.getElem?_toArray, hd]
    simp [hname, Operation.name?, Operation.operand?]
  rw [hmethod] at hds
  obtain ⟨r', args', he, hcalls⟩ := b.calls_eq h ho
  obtain ⟨rfl, rfl⟩ := Event.send.inj he
  exact hmem _ (Wiring.passed_mem hcalls harg hds (b.mem_callers h ho))

end Rubylet
