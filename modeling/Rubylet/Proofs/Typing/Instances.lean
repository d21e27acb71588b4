import Rubylet.Proofs.Replay.Prescribed
import Rubylet.Proofs.Typing.Classes
import Rubylet.Proofs.Typing.Cycles
import Rubylet.Proofs.Typing.Flow

/-!
# When classes are named

`Graph.className` passes over a call that has no target yet, so asking it too early could answer a
wrong class, or none. It is never asked too early. When inference asks what `new` instantiates, the
receiver has the type of classes, and all that its type was taken from has been found before
(`Graph.Ready`): every call on the way to the names has its target, the search for them comes to its
end, and it finds one at least.

That no question is asked too early is said by letting anything else answer in place of
`Graph.dispatch` (`resolveVia`). As long as it answers as `dispatch` does once the graph is ready,
inference answers the same and finds the same out, whatever it is told before.

* `Graph.walks_collectClasses`: the search for class names ends, on every graph.
* `Built.standsForClass`: what has the type of classes stands for a class.
* `class_names_are_resolved`: for every graph that is built and any questions on it.
-/

namespace Rubylet

open Rubylet.Graph Inference

variable {code : List Instruction} {g : Graph} {s s' : Store} {d : Dependency} {n : Nat} {t : Ty}
  {targets : Table Nat Target} {site : CallSite} {e : CompileError} {α β : Type}

namespace Graph

/-! ### The search for class names ends -/

variable (g targets) in
/-- From a worklist, some records that were seen and some names, the search for class names comes to
its end, with other names. No number of steps is given. -/
inductive Walks : (work seen : List Nat) → (names found : List String) → Prop
  | done {seen names} : Walks [] seen names names
  | named {n work seen names name found} : g.classNamed? n = some name →
      Walks work seen (if names.contains name then names else name :: names) found →
      Walks (n :: work) seen names found
  | again {n work seen names found} : g.classNamed? n = none → n ∈ seen →
      Walks work seen names found → Walks (n :: work) seen names found
  | follow {n work seen names found} : g.classNamed? n = none → n ∉ seen →
      Walks (g.successors targets n ++ work) (n :: seen) names found →
      Walks (n :: work) seen names found

/-- **The search ends**, whatever cycles there are: no edge is followed twice. -/
theorem walks_collectClasses : ∀ (steps : Nat) (work seen : List Nat) (names : List String),
    work.length + g.edgesLeft seen < steps →
    g.Walks targets work seen names (g.collectClasses targets steps work seen names) := by
  intro steps
  induction steps with
  | zero => exact fun work seen names h => absurd h (Nat.not_lt_zero _)
  | succ steps ih =>
    intro work seen names hsteps
    cases work with
    | nil => exact .done
    | cons n work =>
      rw [List.length_cons] at hsteps
      rw [collectClasses]
      cases hc : g.classNamed? n with
      | some name => exact .named hc (ih work seen _ (by omega))
      | none =>
        dsimp only
        by_cases hold : seen.contains n
        · rw [if_pos hold]
          exact .again hc (by simpa using hold) (ih work seen names (by omega))
        · rw [if_neg hold]
          have hnew : n ∉ seen := by simpa using hold
          have hedges := edgesLeft_cons (g := g) hnew
          have hlen : (g.successors targets n).length ≤ (g.record n).dependencies.length :=
            length_successors_le n
          -- The edges of a record are paid for when it is seen, so the worklist may grow by them.
          exact .follow hc hnew (ih (g.successors targets n ++ work) (n :: seen) names
            (by rw [List.length_append]; omega))

variable (g targets) in
/-- The class names of a record can be asked for: each call on the way has its target, the search
ends within the steps that it is given, and it finds a name. -/
structure Ready (receiver : Nat) : Prop where
  covers : g.Covers targets receiver
  ends : g.Walks targets [receiver] [] [] (g.collectClasses targets g.edgeSteps [receiver] [] [])
  named : g.classNames targets receiver ≠ []

/-! ### What has the type of classes -/

/-- A dependency stands for a class. An operator never does. -/
def StandsForClass (g : Graph) : Dependency → Prop
  | .record n => ∃ name, g.Yields n name
  | .operator _ => False
  | .send site => ∃ n name, g.HasTarget site (.method n) ∧ g.Yields n name

end Graph

theorem Operator.resultType_ne_cls (o : Operator) : o.resultType ≠ .cls := by cases o <;> nofun

/-- **What has the type of classes stands for a class**: by itself, or through what its type is
taken from. The proof goes by induction on what that depends on. -/
theorem Graph.Built.standsForClass (b : Graph.Built code g) (h : g.HasType d .cls) :
    g.StandsForClass d := by
  have hacc := h.accessible
  induction hacc with
  | intro d _ ih =>
    generalize ht : Ty.cls = t at h
    cases h with
    | @given n _ hgiven =>
      have hi : n < code.length := b.size_eq ▸ Store.lt_size_of_hasType (.given hgiven)
      have hi := List.getElem?_eq_getElem hi
      rw [b.record_eq hi, ← ht] at hgiven
      cases ho : (code[n]).op with
      | classStart name => exact ⟨name, .named (by rw [b.classNamed?_eq hi, ho])⟩
      | _ => rw [ho] at hgiven; cases hgiven
    | @agreed n _ hgiven hne hall =>
      cases hc : g.classNamed? n with
      | some name => exact ⟨name, .named hc⟩
      | none =>
        -- All its edges have the type of classes, so any one of them leads to a class.
        obtain ⟨d, hd⟩ := List.exists_mem_of_ne_nil _ hne
        have hstands := ih d (.edge hgiven hd) (ht ▸ hall d hd)
        cases d with
        | record m =>
          obtain ⟨name, hname⟩ := hstands
          exact ⟨name, .record hc hd hname⟩
        | operator site => exact hstands.elim
        | send site =>
          obtain ⟨m, name, htarget, hname⟩ := hstands
          exact ⟨name, .method hc hd htarget hname⟩
    | operator hr ho hargs ha => exact absurd ht.symm (Operator.resultType_ne_cls _)
    | @method site n _ htarget hn =>
      obtain ⟨name, hname⟩ := ih (.record n) (.method htarget) (ht ▸ hn)
      exact ⟨n, name, htarget, hname⟩
    | @primitive site site' _ htarget hp =>
      exact (ih (.operator site') (.primitive htarget) (ht ▸ hp)).elim
    | object htarget => cases ht

/-- **What is known to be a class can be asked for its name.** -/
theorem Store.Sound.ready (h : s.Sound g) (b : Graph.Built code g) (hn : s.type? n = some .cls) :
    g.Ready s.targets n := by
  have hcov := h.covers (Option.isSome_of_eq_some hn)
  have hsteps : [n].length + g.edgesLeft [] < g.edgeSteps := by
    rw [edgeSteps_eq, List.length_singleton]
    omega
  refine ⟨hcov, walks_collectClasses _ _ _ _ hsteps, ?_⟩
  obtain ⟨name, hname⟩ := b.standsForClass (h.typed hn)
  obtain ⟨m, hm, hc⟩ := hname.exists_stands (fun _ _ _ => h.targeted) hcov
  exact List.ne_nil_of_mem (mem_classNames hm hc)

/-! ### Undetermined classes -/

/-- A class is undetermined only among two names at least, all of them different. -/
def CompileError.Contested (e : CompileError) : Prop :=
  ∀ names, e.cause = .undeterminedClass names → 2 ≤ names.length ∧ names.Nodup

theorem CompileError.contested_of_ne (h : ∀ names, e.cause ≠ .undeterminedClass names) :
    e.Contested := fun names hc => absurd hc (h names)

/-- Only `new` sent to a class makes an object. -/
theorem Index.of_choose_instantiate {x : Index} {i : Instruction} {info : CallInfo}
    (h : x.choose t i info = .ok .instantiate) : t = .cls ∧ i.op.name? = some "new" := by
  have harity : ∀ {given method name}, x.checkArity i given method name ≠ .ok .instantiate := by
    intro given method name h
    unfold checkArity at h
    dsimp only at h
    split at h <;> cases h
  unfold choose at h
  split at h
  · split at h
    · exact absurd h harity
    · cases h
  -- The class is asked for a new object, or for something it does not have.
  · split at h
    · next hnew => exact ⟨rfl, hnew⟩
    · cases h
  · split at h
    · exact absurd h harity
    · cases h
  · cases h

/-- Once the graph is ready, a call is refused for the class it instantiates only if there are two
of them. -/
theorem Graph.contested_dispatch {call receiver : Nat}
    (hready : t = .cls → (g.record call).instruction.op.name? = some "new" →
      g.Ready targets receiver)
    (he : g.dispatch targets t call receiver = .error e) : e.Contested := by
  rcases error_of_bind_eq_error he with h | ⟨choice, hchoice, h⟩
  · rcases Index.cause_of_choose h with ⟨_, hc⟩ | ⟨_, _, _, hc⟩ <;>
      exact CompileError.contested_of_ne fun names => by rw [hc]; exact nofun
  -- Only an instantiation asks for the names of a class.
  · cases choice with
    | method n => cases h
    | operator => cases h
    | instantiate =>
      obtain ⟨hcls, hnew⟩ := Index.of_choose_instantiate hchoice
      rcases error_of_bind_eq_error h with h | ⟨name, -, h⟩
      · -- `className` refuses no name and several alike; readiness excludes that there is none.
        have hnamed := (hready hcls hnew).named
        have hnodup := nodup_classNames g targets receiver
        unfold className at h
        split at h
        · cases h
        · next hmany =>
          obtain rfl := Except.error.inj h
          rintro names hc
          obtain rfl := Cause.undeterminedClass.inj hc
          refine ⟨?_, hnodup⟩
          match hlist : g.classNames targets receiver with
          | [] => exact absurd hlist hnamed
          | [name] => exact absurd hlist (hmany name)
          | _ :: _ :: _ => simp
      · cases h

/-! ### Another answer in place of `dispatch` -/

namespace Inference

/-- What answers with the target of a call, given the targets that are known, the type of the
receiver, the call and its receiver. -/
abbrev Dispatcher :=
  (targets : Table Nat Target) → (receiverType : Ty) → (call receiver : Nat) →
    Except CompileError Target

variable (g) in
/-- Another answer is the same as that of `dispatch`, unless it is asked too early what `new`
instantiates. Then it may be any target and any error. -/
def AgreesWhenReady (other : Dispatcher) : Prop :=
  ∀ targets t call receiver,
    (t = .cls → (g.record call).instruction.op.name? = some "new" → g.Ready targets receiver) →
    other targets t call receiver = g.dispatch targets t call receiver

/-- The target of a call, as `target` finds it, with another answer in place of `dispatch`. -/
def targetVia (other : Dispatcher) (typeOf : Dependency → Finding Ty) (site : CallSite) :
    Finding Target := do
  match (← get).targets.get? site.call with
  | some found => return found
  | none => do
    let receiverType ← typeOf (.record site.receiver)
    let found ← other (← get).targets receiverType site.call site.receiver
    modify (·.setTarget site.call found)
    return found

/-- The type of a dependency, as `resolveWithin` finds it, with another answer in place of
`dispatch`. -/
def resolveWithinVia (g : Graph) (other : Dispatcher) :
    (steps : Nat) → List PathNode → Dependency → Finding Ty
  | 0, _, d => throw (circular g d)
  | steps + 1, path, d => do
    let node := nodeOf d
    match (← get).known? d with
    | some type => return type
    | none =>
      if path.contains node then throw (circular g d)
      else
        let typeOf := resolveWithinVia g other steps (node :: path)
        match d with
        | .record n =>
          match ← possibleTypes typeOf [] (g.record n).dependencies with
          | [possible] => do
            modify (·.setType n possible.type)
            return possible.type
          | possibles =>
            throw
              { CompileError.atOrigin (g.origin n) .ambiguousType with
                candidates := possibles.map fun p => ⟨p.type, .ofPos (g.originOf p.source).pos⟩ }
        | .operator site => operatorType g typeOf site
        | .send site =>
          match ← targetVia other typeOf site with
          | .object className => return .object className
          | .method n => typeOf (.record n)
          | .operator site => typeOf (.operator site)

/-- The type of a dependency, with another answer in place of `dispatch`. -/
def resolveVia (g : Graph) (other : Dispatcher) (d : Dependency) : Finding Ty :=
  resolveWithinVia g other (steps g) [] d

/-- The types of all records, in order, with another answer in place of `dispatch`. -/
def resolveAllVia (g : Graph) (other : Dispatcher) : Finding (List Ty) :=
  (List.range g.records.size).mapM fun n => resolveVia g other (.record n)

/-- With the answer of `dispatch` itself, it is the search that inference makes. -/
theorem resolveWithinVia_dispatch (g : Graph) :
    ∀ k, resolveWithinVia g g.dispatch k = resolveWithin g k := by
  intro k
  induction k with
  | zero => rfl
  | succ k ih =>
    funext path d
    rw [resolveWithinVia, resolveWithin, ih]
    rfl

/-! ### Two searches that coincide -/

/-- From a store, one finding does what another one does, and leaves no class undetermined for want
of a name. -/
structure Coincides (s : Store) (x y : Finding α) : Prop where
  same : outcome x s = outcome y s
  contested : Fails s y CompileError.Contested

namespace Coincides

variable {x y : Finding α} {f h : α → Finding β} {P : α → Store → Prop}

theorem pure (a : α) : Coincides s (Pure.pure a) (Pure.pure a) := ⟨rfl, .pure a⟩

theorem throw (hne : ∀ names, e.cause ≠ .undeterminedClass names) :
    Coincides s (MonadExcept.throw e : Finding α) (MonadExcept.throw e) :=
  ⟨rfl, .throw (CompileError.contested_of_ne hne)⟩

theorem throw_circular {d : Dependency} :
    Coincides s (MonadExcept.throw (circular g d) : Finding α) (MonadExcept.throw (circular g d)) :=
  throw fun _ hcause => by cases hcause

theorem throw_ambiguous (he : e.cause = .ambiguousType) :
    Coincides s (MonadExcept.throw e : Finding α) (MonadExcept.throw e) :=
  throw fun _ hcause => by cases he.symm.trans hcause

theorem get_bind {f h : Store → Finding β} (hf : Coincides s (f s) (h s)) :
    Coincides s (get >>= f) (get >>= h) := ⟨hf.same, hf.contested⟩

theorem modify_pure (u : Store → Store) (a : α) : Coincides s
    (modify u >>= fun _ => Pure.pure a : Finding α) (modify u >>= fun _ => Pure.pure a) :=
  ⟨rfl, fun _ he => nomatch he⟩

/-- Searches that coincide, and then do so again, coincide in turn. -/
theorem bind (hxy : Coincides s x y) (hk : Keeps g s y P)
    (hf : ∀ a s', s'.Sound g → P a s' → Coincides s' (f a) (h a)) :
    Coincides s (x >>= f) (y >>= h) := by
  refine ⟨?_, hxy.contested.bind hk fun a s' hs' ha => (hf a s' hs' ha).contested⟩
  obtain ⟨hsound, -, hpost⟩ := hk
  have hsame := hxy.same
  -- Both fail alike, or go on from one store.
  cases hr : outcome y s with
  | mk r s' =>
    rw [hr] at hsound hpost hsame
    cases r with
    | error e => rw [outcome_bind_error hr, outcome_bind_error hsame]
    | ok a => rw [outcome_bind_ok hr, outcome_bind_ok hsame, (hf a s' hsound (hpost a rfl)).same]

theorem lift_bind {r r' : Except CompileError α} (heq : r = r')
    (hr : ∀ e, r' = .error e → e.Contested) (hf : ∀ a, Coincides s (f a) (h a)) :
    Coincides s ((liftM r : Finding α) >>= f) ((liftM r' : Finding α) >>= h) := by
  subst heq
  cases r with
  | error e => exact ⟨rfl, fun _ he => Except.error.inj he ▸ hr e rfl⟩
  | ok a => exact ⟨(hf a).same, (hf a).contested⟩

end Coincides

section Coincides

variable {other : Dispatcher} {typeOf typeOf' : Dependency → Finding Ty}

/-- The searches through a list of dependencies coincide when those for each do. -/
theorem coincides_possibleTypes (hfinds : Finds g typeOf')
    (ht : ∀ d s, Owned g d → s.Sound g → Coincides s (typeOf d) (typeOf' d)) :
    ∀ (ds : List Dependency) (found : List Possible) (s : Store), (∀ d ∈ ds, Owned g d) →
      s.Sound g → Coincides s (possibleTypes typeOf found ds) (possibleTypes typeOf' found ds) := by
  intro ds
  -- On the dependencies, each searched in the store the ones before have left.
  induction ds with
  | nil => exact fun found s _ _ => .pure found
  | cons d rest ih =>
    intro found s hown hs
    rw [possibleTypes, possibleTypes]
    have hd := hown d (.head _)
    exact (ht d s hd hs).bind (hfinds d s hd hs) fun t s₁ hs₁ _ =>
      ih _ s₁ (fun d hd => hown d (.tail _ hd)) hs₁

/-- The searches for the type of an operator coincide when those for its operands do. -/
theorem coincides_operatorType (hfinds : Finds g typeOf')
    (ht : ∀ d s, Owned g d → s.Sound g → Coincides s (typeOf d) (typeOf' d)) (hs : s.Sound g) :
    Coincides s (operatorType g typeOf site) (operatorType g typeOf' site) := by
  have hrecord : ∀ n s, s.Sound g → Coincides s (typeOf (.record n)) (typeOf' (.record n)) :=
    fun n s => ht (.record n) s trivial
  unfold operatorType
  refine (hrecord _ s hs).bind (hfinds _ s trivial hs) fun t s₁ hs₁ _ => ?_
  dsimp only
  cases (g.record site.call).instruction.op.name?.bind (Operator.find? t) with
  | none => exact .throw nofun
  | some operator =>
    -- One argument is asked for on both sides, and every other number refused.
    rcases site.args with _ | ⟨arg, _ | ⟨another, rest⟩⟩
    · exact .throw nofun
    · refine (hrecord _ s₁ hs₁).bind (hfinds _ s₁ trivial hs₁) fun u s₂ _ _ => ?_
      by_cases hu : u = operator.argType
      · rw [if_pos hu]
        exact .pure _
      · rw [if_neg hu]
        exact .throw nofun
    · exact .throw nofun

/-- **The target of a call is never asked for too early**: its receiver has just been found to be a
class, so everything on the way to the names is settled. -/
theorem coincides_targetVia (b : Graph.Built code g) (hother : AgreesWhenReady g other)
    (hfinds : Finds g typeOf')
    (ht : ∀ d s, Owned g d → s.Sound g → Coincides s (typeOf d) (typeOf' d)) (hs : s.Sound g) :
    Coincides s (targetVia other typeOf site) (target g typeOf' site) := by
  unfold targetVia target
  refine .get_bind ?_
  cases s.targets.get? site.call with
  | some found => exact .pure found
  | none =>
    refine (ht (.record site.receiver) s trivial hs).bind (hfinds _ s trivial hs)
      fun t s₁ hs₁ hp => ?_
    obtain ⟨htype, hsettled⟩ := hp
    -- The type that `typeOf` answered is the one in the store, and what is stored is settled.
    have hready : t = .cls → (g.record site.call).instruction.op.name? = some "new" →
        g.Ready s₁.targets site.receiver := by
      rintro rfl -
      obtain ⟨u, hu⟩ := Option.isSome_iff_exists.mp hsettled
      obtain rfl := htype.unique (hs₁.typed hu)
      exact hs₁.ready b hu
    exact .get_bind (.lift_bind (hother _ _ _ _ hready)
      (fun _ he => contested_dispatch hready he) fun found => .modify_pure _ found)

/-- **A search coincides with one that has another answer in place of `dispatch`.** The proof goes
by induction on the steps; the stores on the way stay sound, which is what makes the graph ready. -/
theorem coincides_resolveWithinVia (b : Graph.Built code g) (hother : AgreesWhenReady g other) :
    ∀ (k : Nat) (path : List PathNode) (d : Dependency) (s : Store), Owned g d → s.Sound g →
      Coincides s (resolveWithinVia g other k path d) (resolveWithin g k path d) := by
  have w := b.isWired
  intro k
  induction k with
  | zero => exact fun path d s _ _ => .throw_circular
  | succ k ih =>
    intro path d s hown hs
    rw [resolveWithinVia, resolveWithin]
    refine .get_bind ?_
    cases s.known? d with
    | some t => exact .pure t
    | none =>
      -- What `resolveWithin` leaves behind is sound, so both searches can go on from there.
      have hfinds := keeps_resolveWithin w k (nodeOf d :: path)
      have hnext := ih (nodeOf d :: path)
      dsimp only
      by_cases hpath : path.contains (nodeOf d)
      · rw [if_pos hpath, if_pos hpath]
        exact .throw_circular
      · rw [if_neg hpath, if_neg hpath]
        cases d with
        | record n =>
          have howned : ∀ d ∈ (g.record n).dependencies, Owned g d := fun d hd => owned_of_mem w hd
          refine (coincides_possibleTypes hfinds hnext _ _ s howned hs).bind
            (keeps_possibleTypes hfinds _ _ s howned hs) fun ps s₁ _ _ => ?_
          rcases ps with _ | ⟨p, _ | ⟨q, rest⟩⟩
          · exact .throw_ambiguous rfl
          · exact .modify_pure _ _
          · exact .throw_ambiguous rfl
        | operator site => exact coincides_operatorType hfinds hnext hs
        | send site =>
          refine (coincides_targetVia b hother hfinds hnext hs).bind (keeps_target w hfinds hown hs)
            fun found s₁ hs₁ hp => ?_
          obtain ⟨hfound, -⟩ := hp
          cases found with
          | object name => exact .pure _
          | method n => exact hnext (.record n) s₁ trivial hs₁
          | operator site' =>
            obtain rfl := site_of_hasTarget w hown hfound
            exact hnext (.operator site') s₁ (.inl hown) hs₁

/-- The sweeps coincide when the dispatchers agree on what is ready. -/
theorem coincides_resolveAllVia (b : Graph.Built code g) (hother : AgreesWhenReady g other) :
    ∀ (ns : List Nat) (s : Store), s.Sound g →
      Coincides s (ns.mapM fun n => resolveVia g other (.record n)) (ns.mapM (resolve g)) := by
  have w := b.isWired
  intro ns
  -- On the records: the searches for the first coincide and leave one sound store.
  induction ns with
  | nil => exact fun s _ => .pure []
  | cons n ns ih =>
    intro s hs
    rw [List.mapM_cons, List.mapM_cons]
    refine (coincides_resolveWithinVia b hother _ [] (.record n) s trivial hs).bind
      (keeps_resolveWithin w _ [] (.record n) s trivial hs) fun t s₁ hs₁ _ => ?_
    exact (ih s₁ hs₁).bind (Session.keeps_resolveAll w ns s₁ hs₁) fun ts s₂ _ _ => .pure _

end Coincides

end Inference

/-! ### Sessions -/

/-- From a store on, class names are collected from resolved edges only. -/
structure NamesResolved (g : Graph) (s : Store) : Prop where
  /-- Whatever has been found to be a class can be asked for its name. -/
  ready : ∀ n, s.type? n = some .cls → g.Ready s.targets n
  /-- No search asks too early what `new` instantiates: whatever it would be told then, it comes to
  the same answer and the same store. -/
  asked : ∀ other, AgreesWhenReady g other → ∀ d, Owned g d →
    outcome (resolveVia g other d) s = outcome (resolveDependency g d) s
  askedAll : ∀ other, AgreesWhenReady g other →
    outcome (resolveAllVia g other) s = outcome (resolveAll g) s
  /-- A class is undetermined only if there are two candidates at least. -/
  contested : ∀ d, Owned g d → ∀ e, (outcome (resolveDependency g d) s).1 = .error e → e.Contested
  contestedAll : ∀ e, (outcome (resolveAll g) s).1 = .error e → e.Contested

/-- **Class names are collected from resolved edges only**, in every session on a graph that is
built, whatever was asked before and whether it was answered or refused. -/
theorem class_names_are_resolved (h : Graph.build code = .ok g) (asked : List Session.Question) :
    NamesResolved g ((Session.start g).askAll asked).store := by
  have b := Graph.built_of_build h
  have hs := (Session.On.askAll b.isWired asked (Session.On.start b.isWired)).1.sound
  -- The dispatcher of the graph agrees with itself.
  have hself : AgreesWhenReady g g.dispatch := fun _ _ _ _ _ => rfl
  exact {
    ready := fun n hn => hs.ready b hn
    asked := fun other hother d hown =>
      (coincides_resolveWithinVia b hother _ [] d _ hown hs).same
    askedAll := fun other hother => (coincides_resolveAllVia b hother _ _ hs).same
    contested := fun d hown => (coincides_resolveWithinVia b hself _ [] d _ hown hs).contested
    contestedAll := (coincides_resolveAllVia b hself _ _ hs).contested }

namespace Sample

/-- A class, another one with a method that answers it, and an object of what is answered. -/
def boxedCode : List Instruction := [.classStart "A", .classEnd "A", .classStart "Box",
  .defStart "get", .pushConst "A", .defEnd "get", .classEnd "Box", .pushConst "Box",
  .send "new" (some 0), .send "get" (some 0), .send "new" (some 0)].map fun op => ⟨op, default⟩

/-- Where no class name is found, it makes one up. -/
def hasty (g : Graph) : Dispatcher := fun targets t call receiver =>
  if t = .cls ∧ (g.record call).instruction.op.name? = some "new" ∧
      g.classNames targets receiver = [] then
    .ok (.object "Box")
  else g.dispatch targets t call receiver

theorem agrees_hasty (g : Graph) : AgreesWhenReady g (hasty g) := by
  intro targets t call receiver hready
  exact if_neg fun ⟨ht, hnew, hnone⟩ => (hready ht hnew).named hnone

end Sample

/-- The last receiver is a class by the target of a call. Without that target no name is found, and
`hasty` would answer a wrong one; but it is not asked before, and the object is one of the right
class. -/
theorem class_names_are_resolved_boxed : ∃ g, Graph.build Sample.boxedCode = .ok g ∧
    NamesResolved g (Session.start g).store ∧
    Sample.hasty g .empty .cls 10 9 = .ok (.object "Box") ∧
    (outcome (resolveVia g (Sample.hasty g) (.record 10)) (Session.start g).store).1 =
      .ok (.object "A") := by
  -- One evaluation for both: the hasty dispatcher names a class too early, and the search is not
  -- misled.
  have hrun : ((Graph.build Sample.boxedCode).toOption.any fun g =>
      (match Sample.hasty g .empty .cls 10 9 with
        | .ok found => found = .object "Box"
        | .error _ => false) &&
      match (outcome (resolveDependency g (.record 10)) (Session.start g).store).1 with
      | .ok t => t = .object "A"
      | .error _ => false) = true := by decide +kernel
  cases hg : Graph.build Sample.boxedCode with
  | error e => rw [hg] at hrun; cases hrun
  | ok g =>
    rw [hg] at hrun
    simp only [Except.toOption, Option.any_some, Bool.and_eq_true] at hrun
    obtain ⟨hhasty, htype⟩ := hrun
    have hnames := class_names_are_resolved hg []
    refine ⟨g, rfl, hnames, ?_, ?_⟩
    · cases hfound : Sample.hasty g .empty .cls 10 9 with
      | error e => rw [hfound] at hhasty; cases hhasty
      | ok found =>
        rw [hfound] at hhasty
        exact congrArg Except.ok (of_decide_eq_true hhasty)
    · have hsame := hnames.asked _ (Sample.agrees_hasty g) (.record 10) trivial
      refine (congrArg Prod.fst hsame).trans ?_
      cases ht : (outcome (resolveDependency g (.record 10)) (Session.start g).store).1 with
      | error e => rw [ht] at htype; cases htype
      | ok t =>
        rw [ht] at htype
        exact ht.trans (congrArg Except.ok (of_decide_eq_true htype))

end Rubylet
