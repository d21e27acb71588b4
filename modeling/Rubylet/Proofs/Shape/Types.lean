import Rubylet.Proofs.Shape.Code
import Rubylet.Proofs.Typing.Exact

/-!
# Types are told by the shape

A record's type is found by following edges and looking up names of calls, classes and methods, and
all of them are there in the shape of a graph. So graphs of one shape have one typing relation
(`HasType.of_shape`), and inference, which is that relation, goes through for one of two programs of
one shape just in case it goes through for the other, with the same types (`infer_shape`).

The one thing that could tell literals apart is the operand of an instruction read as a name: that
of a string literal is its text. Only calls are asked for their names, and `Graph.Built` knows that
the sites of a graph are calls.
-/

namespace Rubylet

variable {code code' : List Instruction} {g g' : Graph} {n : Nat}

namespace Graph

/-! ### Graphs of one shape -/

section Same

variable (h : g.shape = g'.shape)

include h

theorem size_of_shape : g.records.size = g'.records.size := by
  have := congrArg (fun g => g.records.size) h
  simpa [shape] using this

theorem record_of_shape (n : Nat) : (g.record n).shape = (g'.record n).shape := by
  have hget : ∀ g : Graph, (g.record n).shape = (g.shape.records[n]?).getD (Record.shape default) := by
    intro g
    rw [record, Array.getD_eq_getD_getElem?, shape, Array.getElem?_map]
    cases g.records[n]? <;> rfl
  rw [hget, hget, h]

theorem given?_of_shape (n : Nat) : (g.record n).given? = (g'.record n).given? :=
  have := congrArg Record.given? (record_of_shape h n)
  this

theorem dependencies_of_shape (n : Nat) : (g.record n).dependencies = (g'.record n).dependencies :=
  have := congrArg Record.dependencies (record_of_shape h n)
  this

theorem callInfo_of_shape (n : Nat) : g.callInfo n = g'.callInfo n :=
  congrArg (fun r => r.call?.getD ⟨[], none⟩) (record_of_shape h n)

theorem op_of_shape (n : Nat) :
    (g.record n).instruction.op.shape = (g'.record n).instruction.op.shape :=
  congrArg (fun r => r.instruction.op) (record_of_shape h n)

theorem classNamed?_of_shape (n : Nat) : g.classNamed? n = g'.classNamed? n := by
  have hop := op_of_shape h n
  unfold classNamed?
  revert hop
  generalize (g.record n).instruction.op = op
  generalize (g'.record n).instruction.op = op'
  intro hop
  cases op <;> cases op' <;> cases hop <;> rfl

theorem edgeSteps_of_shape : g.edgeSteps = g'.edgeSteps := by
  have hsteps : ∀ g : Graph, g.edgeSteps =
      g.shape.records.toList.foldl (fun total r => total + r.dependencies.length) 2 := by
    intro g
    rw [edgeSteps, shape, Array.toList_map, List.foldl_map]
    rfl
  rw [hsteps, hsteps, h]

/-- The search for class names goes the same way in both graphs. -/
theorem collectClasses_of_shape (targets : Table Nat Target) :
    ∀ (steps : Nat) (work seen : List Nat) (names : List String),
      g.collectClasses targets steps work seen names =
        g'.collectClasses targets steps work seen names := by
  intro steps
  induction steps with
  | zero => exact fun _ _ _ => rfl
  | succ steps ih =>
    intro work seen names
    cases work with
    | nil => rfl
    | cons n work =>
      -- The names and the edges are part of the shape.
      rw [collectClasses, collectClasses, classNamed?_of_shape h, dependencies_of_shape h]
      simp only [ih]

theorem className_of_shape (targets : Table Nat Target) (n : Nat) :
    (g.className targets n).toOption = (g'.className targets n).toOption := by
  have hnames : g.classNames targets n = g'.classNames targets n := by
    rw [classNames, classNames, edgeSteps_of_shape h, collectClasses_of_shape h]
  rw [className, className, hnames]
  split <;> rfl

theorem covers_of_shape {targets : Table Nat Target} (hc : g.Covers targets n) :
    g'.Covers targets n := by
  -- What stands for the receiver is found along names of classes and edges, which both graphs
  -- share.
  have hstands : ∀ m, g'.Stands targets n m → g.Stands targets n m := by
    intro m hm
    induction hm with
    | start => exact .start
    | follow _ hnamed hd hm ih =>
      rw [← classNamed?_of_shape h] at hnamed
      rw [← dependencies_of_shape h] at hd
      exact .follow ih hnamed hd hm
  intro m hm hnamed site hsite
  rw [← classNamed?_of_shape h] at hnamed
  rw [← dependencies_of_shape h] at hsite
  exact hc m (hstands m hm) hnamed site hsite

/-! ### Types -/

/-- A call has the same name in both graphs. -/
theorem name?_of_shape (b : Built code g) {site : CallSite} (hs : g.IsSite n site) :
    (g.record n).instruction.op.name? = (g'.record n).instruction.op.name? := by
  obtain ⟨d, hd, hds⟩ : ∃ d ∈ (g.record n).dependencies, d = .send site ∨ d = .operator site :=
    hs.elim (fun hd => ⟨_, hd, .inl rfl⟩) (fun hd => ⟨_, hd, .inr rfl⟩)
  -- A site is the record of a call, and a call keeps its name in its shape.
  obtain ⟨i, e, ho, -, hsite⟩ := b.edgeFits hd
  obtain ⟨r, args, rfl, rfl⟩ := hsite site hds
  obtain ⟨name, count, hop⟩ := ho.op_of_send
  have hop' := op_of_shape h n
  rw [b.record_eq ho.1, hop] at hop' ⊢
  revert hop'
  generalize (g'.record n).instruction.op = op'
  intro hop'
  cases op' <;> cases hop'
  rfl

/-- A call that is dispatched in one graph is dispatched to the same target in the other. -/
theorem dispatch_of_shape (b : Built code g) {site : CallSite}
    (hs : .send site ∈ (g.record site.call).dependencies) {targets : Table Nat Target}
    {receiver : Ty} {found : Target}
    (hd : g.dispatch targets receiver site.call site.receiver = .ok found) :
    g'.dispatch targets receiver site.call site.receiver = .ok found := by
  have hindex : g.index.mute = g'.index.mute := congrArg Graph.index h
  have hchoose := Index.choose_shape hindex (name?_of_shape h b (.inl hs)) receiver
    (g.callInfo site.call)
  have hclass := className_of_shape h targets site.receiver
  have hboth : (g.dispatch targets receiver site.call site.receiver).toOption =
      (g'.dispatch targets receiver site.call site.receiver).toOption := by
    unfold dispatch
    rw [toOption_bind, toOption_bind, hchoose, ← callInfo_of_shape h]
    refine Option.bind_congr fun choice _ => ?_
    -- Only an instantiation goes on to ask for the class.
    cases choice with
    | instantiate =>
      dsimp only
      rw [toOption_bind, toOption_bind, hclass]
    | _ => rfl
  rw [hd] at hboth
  exact toOption_eq_some_iff.mp hboth.symm

end Same

open Inference in
mutual

/-- **What has a type has it in every graph of the shape.** -/
theorem HasType.of_shape (h : g.shape = g'.shape) (b : Built code g) {d : Dependency} {t : Ty} :
    g.HasType d t → Owned g d → g'.HasType d t
  | .given hg, _ => .given (given?_of_shape h _ ▸ hg)
  | .agreed hg hne hall, _ => by
    refine .agreed (given?_of_shape h _ ▸ hg) (dependencies_of_shape h _ ▸ hne) fun d hd => ?_
    rw [← dependencies_of_shape h] at hd
    exact HasType.of_shape h b (hall d hd) (owned_of_mem b.isWired hd)
  | .operator hr ho hargs harg, hown => by
    rw [name?_of_shape h b hown] at ho
    exact .operator (HasType.of_shape h b hr trivial) ho hargs (HasType.of_shape h b harg trivial)
  | .method ht hn, hown =>
    .method (HasTarget.of_shape h b ht hown) (HasType.of_shape h b hn trivial)
  | .primitive ht ho, hown => by
    have hsite := site_of_hasTarget b.isWired hown ht
    refine .primitive (HasTarget.of_shape h b ht hown) (HasType.of_shape h b ho ?_)
    -- The site of the target is that of the call, which its record owns.
    rw [hsite]
    exact .inl hown
  | .object ht, hown => .object (HasTarget.of_shape h b ht hown)

/-- What a call leads to it leads to in every graph of the shape. -/
theorem HasTarget.of_shape (h : g.shape = g'.shape) (b : Built code g) {site : CallSite}
    {found : Target} :
    g.HasTarget site found → .send site ∈ (g.record site.call).dependencies →
      g'.HasTarget site found
  | .dispatched hr right hcov hd, hs => by
    refine .dispatched (HasType.of_shape h b hr trivial) (fun n other t hm ho => ?_)
      (covers_of_shape h hcov) (dispatch_of_shape h b hs hd)
    rw [← dependencies_of_shape h] at hm
    exact HasTarget.of_shape h b (right n other t hm ho) (owned_of_mem b.isWired hm)

end

end Graph

/-! ### Inference -/

/-- The graph of code of which other code of its shape has a graph. -/
theorem exists_build_of_shape (h : code.map Instruction.shape = code'.map Instruction.shape)
    (hg : Graph.build code = .ok g) : ∃ g', Graph.build code' = .ok g' ∧ g.shape = g'.shape := by
  have hboth := Graph.build_shape code
  rw [h, Graph.build_shape code', hg, toOption_ok, Option.map_some] at hboth
  obtain ⟨g', hg', hshape⟩ := Option.map_eq_some_iff.mp hboth
  exact ⟨g', toOption_eq_some_iff.mp hg', hshape.symm⟩

/-- **Inference answers one list of types for all programs of a shape.** -/
theorem infer_shape (h : code.map Instruction.shape = code'.map Instruction.shape)
    {records : List TypedRecord} (hr : infer code = .ok records) :
    ∃ records', infer code' = .ok records' ∧
      records'.map TypedRecord.type? = records.map TypedRecord.type? := by
  obtain ⟨g, hg⟩ := exists_build_of_infer hr
  obtain ⟨g', hg', hshape⟩ := exists_build_of_shape h hg
  have b := Graph.built_of_build hg
  have htyped := (inference_exact hg).2.2.2.1.mp ⟨records, hr⟩
  -- Every record of the other graph has a type: the one that it has here.
  have htyped' : ∀ n < g'.records.size, ∃ t, g'.HasType (.record n) t := by
    intro n hn
    obtain ⟨t, ht⟩ := htyped n (Graph.size_of_shape hshape ▸ hn)
    exact ⟨t, ht.of_shape hshape b trivial⟩
  obtain ⟨records', hr'⟩ := (inference_exact hg').2.2.2.1.mpr htyped'
  refine ⟨records', hr', List.ext_getElem? fun n => ?_⟩
  rw [List.getElem?_map, List.getElem?_map]
  have hlen : code.length = code'.length := by simpa using congrArg List.length h
  rcases Nat.lt_or_ge n code.length with hn | hn
  · obtain ⟨t, hget, ht⟩ := getElem?_of_infer hg hr (List.getElem?_eq_getElem hn)
    obtain ⟨t', hget', ht'⟩ := getElem?_of_infer hg' hr' (List.getElem?_eq_getElem (hlen ▸ hn))
    obtain rfl := (ht.of_shape hshape b trivial).unique ht'
    rw [hget, hget']
    rfl
  · rw [List.getElem?_eq_none (by rw [length_of_infer hg' hr']; omega),
      List.getElem?_eq_none (by rw [length_of_infer hg hr]; omega)]

end Rubylet
