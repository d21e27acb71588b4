import Mathlib.Data.Finset.Basic
import Rubylet.Proofs.Typing.History

/-!
# Cycles

Inference reports a cycle when it comes back to a node that it is still looking for a type of. No
such report is false: the node depends on itself, and what was asked for depends on the node.

The search is given the path to each node as a list (`Inference.resolveWithin`). What it reports rests
on the path being the chain of dependencies that leads to the node, at every point of the recursion
(`Chain`). A chain has no node twice, so there is always a step left, and the search is never given
up for want of steps.

The path could as well be one set that all parts of the search share, where a node is put in when it
is entered and taken out when it is left, by an answer or by an error (`Marked.resolve`). The two
searches are the same, and the set is in the end what it was at the beginning (`Mirrors`).

* `cycles_are_real`: both, for every graph that is built and every record, whatever was asked before.
-/

namespace Rubylet

open Rubylet.Graph Relation

variable {code : List Instruction} {g : Graph} {s s' : Store} {d : Dependency} {n : Nat} {t : Ty}
  {α β : Type}

namespace Inference

/-! ### Errors of findings -/

/-- If a finding ends in an error, the error has a property. -/
def Fails (s : Store) (x : Finding α) (E : CompileError → Prop) : Prop :=
  ∀ e, (outcome x s).1 = .error e → E e

variable {x : Finding α} {f : α → Finding β} {E : CompileError → Prop}

theorem Fails.pure (a : α) : Fails s (Pure.pure a) E := fun _ he => nomatch he

theorem Fails.throw {e : CompileError} (h : E e) : Fails s (MonadExcept.throw e : Finding α) E :=
  fun _ he => Except.error.inj he ▸ h

theorem Fails.get_bind {f : Store → Finding β} (h : Fails s (f s) E) : Fails s (get >>= f) E := h

/-- What two searches in turn fail with is what the first fails with, or the second. -/
theorem Fails.bind {P : α → Store → Prop} (hk : Keeps g s x P) (hx : Fails s x E)
    (hf : ∀ a s', s'.Sound g → P a s' → Fails s' (f a) E) : Fails s (x >>= f) E := by
  obtain ⟨hsound, -, hpost⟩ := hk
  intro e he
  -- The first search fails, or leaves a sound store to the second.
  cases hr : outcome x s with
  | mk r s' =>
    rw [hr] at hsound hpost
    cases r with
    | error e' =>
      rw [outcome_bind_error hr] at he
      refine hx e ?_
      rw [hr]
      exact congrArg Except.error (Except.error.inj he)
    | ok a =>
      rw [outcome_bind_ok hr] at he
      exact hf a s' hsound (hpost a rfl) e he

/-- A result from outside the search fails before the rest, or the rest goes on with it. -/
theorem Fails.lift_bind {r : Except CompileError α} (hr : ∀ e, r = .error e → E e)
    (h : ∀ a, r = .ok a → Fails s (f a) E) : Fails s ((liftM r : Finding α) >>= f) E := by
  cases r with
  | error e => exact fun _ he => Except.error.inj he ▸ hr e rfl
  | ok a => exact h a rfl

/-! ### Chains -/

variable (g) in
/-- The path to a dependency is a chain: all that is on it depends on what comes after it. -/
structure Chain (path : List PathNode) (k : Nat) (d : Dependency) : Prop where
  nodup : path.Nodup
  room : path.length + k = steps g
  above : ∀ node ∈ path, node ∈ allNodes g ∧
    ∃ a, Owned g a ∧ nodeOf a = node ∧ TransGen g.DependsOn a d

variable {path : List PathNode} {k : Nat}

/-- The search starts with an empty path and as many steps as it may need. -/
theorem Chain.start (d : Dependency) : Chain g [] (steps g) d := ⟨.nil, Nat.zero_add _, nofun⟩

/-- A chain of searches is a trail through the graph. -/
theorem Chain.trail (h : Chain g path k d) : Trail g path k d where
  nodup := h.nodup
  room := h.room
  above node hnode := by
    obtain ⟨hall, a, ha, heq, hdep⟩ := h.above node hnode
    exact ⟨hall, a, ha, heq, fun _ _ => hdep⟩

/-- **What is on the chain that leads to it depends on itself.** -/
theorem Chain.closes (h : Chain g path k d) (w : g.Wired) (hown : Owned g d)
    (hmem : nodeOf d ∈ path) : TransGen g.DependsOn d d := by
  obtain ⟨-, a, ha, heq, hdep⟩ := h.above _ hmem
  obtain rfl := eq_of_nodeOf_eq w ha hown heq
  exact hdep

/-- The chain to what is asked for next. -/
theorem Chain.extend {d' : Dependency} (h : Chain g path (k + 1) d) (hown : Owned g d)
    (hfresh : nodeOf d ∉ path) (hnode : nodeOf d ∈ allNodes g) (hdep : g.DependsOn d d') :
    Chain g (nodeOf d :: path) k d' := by
  refine ⟨List.nodup_cons.mpr ⟨hfresh, h.nodup⟩, ?_, ?_⟩
  · rw [List.length_cons, Nat.add_right_comm]
    exact h.room
  · intro node hmem
    rcases List.mem_cons.mp hmem with rfl | hmem
    · exact ⟨hnode, d, hown, rfl, .single hdep⟩
    · obtain ⟨hall, a, ha, heq, hd⟩ := h.above node hmem
      exact ⟨hall, a, ha, heq, hd.tail hdep⟩

/-! ### Reports of cycles -/

variable (g) in
/-- If the error reports a cycle, it does so at something that depends on itself, and that the
dependency depends on. -/
def Justified (d : Dependency) (e : CompileError) : Prop :=
  e.cause = .circularType → ∃ c, e = circular g c ∧ TransGen g.DependsOn c c ∧
    ReflTransGen g.DependsOn d c

/-- An error that reports no cycle needs no justification. -/
theorem Justified.of_ne {e : CompileError} (h : e.cause ≠ .circularType) : Justified g d e :=
  fun hc => absurd hc h

/-- An error that is justified further down is justified from above. -/
theorem Justified.head {d' : Dependency} {e : CompileError} (hdep : g.DependsOn d d')
    (h : Justified g d' e) : Justified g d e := fun hc => by
  obtain ⟨c, he, hcycle, hreach⟩ := h hc
  exact ⟨c, he, hcycle, hreach.head hdep⟩

/-- What justifies an error for a dependency justifies it for the node that has the dependency. -/
theorem Fails.head {d' : Dependency} (hdep : g.DependsOn d d')
    (h : Fails s x (Justified g d')) : Fails s x (Justified g d) := fun e he => (h e he).head hdep

/-- Dispatch never reports a cycle. -/
theorem cause_of_dispatch {targets : Table Nat Target} {receiver : Ty} {call start : Nat}
    {e : CompileError} (h : g.dispatch targets receiver call start = .error e) :
    e.cause ≠ .circularType := by
  unfold dispatch at h
  rcases error_of_bind_eq_error h with hchoose | ⟨choice, -, h⟩
  · rcases Index.cause_of_choose hchoose with ⟨name, hc⟩ | ⟨name, given, expected, hc⟩ <;> rw [hc] <;>
      exact nofun
  -- Only an instantiation can fail after the choice, for want of one class.
  · cases choice with
    | method n => cases h
    | operator => cases h
    | instantiate =>
      rcases error_of_bind_eq_error h with hname | ⟨name, -, h⟩
      · unfold className at hname
        split at hname
        · cases hname
        · cases hname
          exact nofun
      · cases h

/-- What is not written down is not typed from the start. -/
theorem given_eq_none (hs : s.Sound g) (hk : s.type? n = none) : (g.record n).given? = none :=
  Option.eq_none_iff_forall_ne_some.mpr fun t ht => by
    rw [hs.given ht] at hk
    cases hk

variable {typeOf : Dependency → Finding Ty}

/-- Looking for possible types fails if one of the dependencies does. -/
theorem fails_possibleTypes (hfinds : Finds g typeOf) :
    ∀ (ds : List Dependency) (found : List Possible) (s : Store), s.Sound g →
      (∀ d ∈ ds, Owned g d ∧ ∀ s, s.Sound g → Fails s (typeOf d) E) →
      Fails s (possibleTypes typeOf found ds) E := by
  intro ds
  -- On the dependencies, each searched in the store that the ones before have left.
  induction ds with
  | nil => exact fun found s _ _ => .pure _
  | cons d rest ih =>
    intro found s hs hds
    obtain ⟨hown, hd⟩ := hds d (.head _)
    rw [possibleTypes]
    exact (hd s hs).bind (hfinds d s hown hs) fun t s₁ hs₁ _ =>
      ih _ s₁ hs₁ fun c hc => hds c (.tail _ hc)

/-- The failures of an operator are those of its operands, or its own. -/
theorem justified_operatorType {site : CallSite} (hfinds : Finds g typeOf)
    (hd : ∀ d', g.DependsOn (.operator site) d' → Owned g d' →
      ∀ s, s.Sound g → Fails s (typeOf d') (Justified g (.operator site))) (hs : s.Sound g) :
    Fails s (operatorType g typeOf site) (Justified g (.operator site)) := by
  unfold operatorType
  refine (hd _ .operand trivial s hs).bind (hfinds _ s trivial hs) fun t s₁ hs₁ _ => ?_
  dsimp only
  -- The operator is unknown, or has one argument to ask for, or is refused for its number of
  -- arguments.
  split
  · exact .throw (.of_ne nofun)
  · split
    · next arg hargs =>
      refine (hd _ (.argument hargs) trivial s₁ hs₁).bind (hfinds _ s₁ trivial hs₁) fun u s₂ _ _ => ?_
      split
      · exact .pure _
      · exact .throw (.of_ne nofun)
    · exact .throw (.of_ne nofun)

/-- Looking for a target fails if the receiver does, or if the call is not dispatched. -/
theorem fails_target {site : CallSite} (hfinds : Finds g typeOf)
    (hd : ∀ s, s.Sound g → Fails s (typeOf (.record site.receiver)) E)
    (hdispatch : ∀ targets t e, g.dispatch targets t site.call site.receiver = .error e → E e)
    (hs : s.Sound g) : Fails s (target g typeOf site) E := by
  unfold target
  refine .get_bind ?_
  split
  · exact .pure _
  · refine (hd s hs).bind (hfinds _ s trivial hs) fun t s₁ _ _ =>
      .get_bind (.lift_bind (hdispatch _ _) fun found _ => ?_)
    exact fun e he => nomatch he

/-- **A search reports real cycles alone.** The proof goes by induction on the steps; that a node on
the path closes a cycle is what the chain says, and that steps are left is because it has no node
twice. -/
theorem justified_resolveWithin (w : g.Wired) :
    ∀ (k : Nat) (path : List PathNode) (d : Dependency) (s : Store), Owned g d →
      Chain g path k d → s.Sound g →
      Fails s (resolveWithin g k path d) (Justified g d) := by
  intro k
  induction k with
  | zero =>
    intro path d s _ hchain
    -- No chain is so long that no step is left.
    obtain ⟨j, hj⟩ := hchain.trail.exists_succ
    cases hj
  | succ k ih =>
    intro path d s hown hchain hs
    cases hk : s.known? d with
    | some t =>
      intro e he
      rw [resolveWithin_known hk] at he
      cases he
    | none =>
      by_cases hp : nodeOf d ∈ path
      · intro e he _
        rw [resolveWithin_of_mem hk hp] at he
        exact ⟨d, (Except.error.inj he).symm, hchain.closes w hown hp, .refl⟩
      · have hfinds := keeps_resolveWithin w k (nodeOf d :: path)
        -- Whatever the dependency depends on is asked for along the chain through it.
        have hnext : ∀ d', nodeOf d ∈ allNodes g → g.DependsOn d d' → Owned g d' →
            ∀ s, s.Sound g →
              Fails s (resolveWithin g k (nodeOf d :: path) d') (Justified g d) :=
          fun d' hnode hdep hown' s hs =>
            (ih _ d' s hown' (hchain.extend hown hp hnode hdep) hs).head hdep
        unfold Fails
        rw [outcome_resolveWithin hk hp]
        change Fails s _ _
        cases d with
        | record n =>
          have hgiven : (g.record n).given? = none := given_eq_none hs hk
          have howned : ∀ d ∈ (g.record n).dependencies, Owned g d := fun d hd => owned_of_mem w hd
          have hkeep := keeps_possibleTypes hfinds _ [] s howned hs
          refine (fails_possibleTypes hfinds _ _ s hs fun d' hd' => ?_).bind hkeep
            fun ps s₁ _ _ => ?_
          · have hnode : nodeOf (.record n) ∈ allNodes g := nodeOf_mem_allNodes hown fun m hm => by
              obtain rfl := Dependency.record.inj hm
              exact lt_size_of_mem hd'
            exact ⟨howned d' hd', hnext d' hnode (.edge hgiven hd') (howned d' hd')⟩
          · split
            · exact fun e he => nomatch he
            · exact .throw (.of_ne nofun)
        | operator site =>
          have hnode : nodeOf (.operator site) ∈ allNodes g := nodeOf_mem_allNodes hown nofun
          exact justified_operatorType hfinds (fun d' => hnext d' hnode) hs
        | send site =>
          have hnode : nodeOf (.send site) ∈ allNodes g := nodeOf_mem_allNodes hown nofun
          refine (fails_target hfinds (hnext _ hnode .receiver trivial)
            (fun _ _ _ he => .of_ne (cause_of_dispatch he)) hs).bind
              (keeps_target w hfinds hown hs) fun found s₁ hs₁ hp => ?_
          obtain ⟨hfound, -⟩ := hp
          cases found with
          | object name => exact .pure _
          | method n => exact hnext _ hnode (.method hfound) trivial s₁ hs₁
          | operator site' =>
            obtain rfl := site_of_hasTarget w hown hfound
            exact hnext _ hnode (.primitive hfound) (.inl hown) s₁ hs₁

/-! ### One set for the whole search -/

/-- Finds things out about a graph, with one set of nodes that all parts of the search share. -/
abbrev Marking := ExceptT CompileError (StateM (Store × Finset PathNode))

namespace Marked

/-- Does something with the store alone. -/
def onStore (x : Finding α) : Marking α := fun (s, seen) =>
  let (answer, s') := outcome x s
  (answer, s', seen)

/-- Enters a node, does something and leaves the node, also when that fails. A node that has been
entered and not left is an error. -/
def within (e : CompileError) (node : PathNode) (x : Marking α) : Marking α := do
  let (_, seen) ← get
  if node ∈ seen then throw e
  else
    modify fun (s, seen) => (s, insert node seen)
    try x
    finally modify fun (s, seen) => (s, seen.erase node)

/-- The different types of some dependencies, each with the first dependency that has it. -/
def possibleTypes (typeOf : Dependency → Marking Ty) :
    List Possible → List Dependency → Marking (List Possible)
  | found, [] => return found
  | found, d :: rest => do
    let type ← typeOf d
    possibleTypes typeOf
      (if found.any fun p => p.type = type then found else found ++ [⟨d, type⟩]) rest

/-- The type of an operator's result, if its argument fits. -/
def operatorType (g : Graph) (typeOf : Dependency → Marking Ty) (site : CallSite) : Marking Ty := do
  let receiverType ← typeOf (.record site.receiver)
  let i := (g.record site.call).instruction
  match i.op.name?.bind (Operator.find? receiverType) with
  | none => throw (.atOrigin i.origin (.undefinedOperation i.operandText receiverType))
  | some operator =>
    match site.args with
    | [arg] => do
      let argType ← typeOf (.record arg)
      if argType = operator.argType then return operator.resultType
      else
        throw (.atOrigin (g.origin arg)
          (.mismatchedArgument receiverType i.operandText operator.argType argType))
    | args =>
      throw (.atOrigin i.origin (.wrongArgumentCount i.operandText args.length 1))

/-- The target of a call, found by the type of its receiver and remembered. -/
def target (g : Graph) (typeOf : Dependency → Marking Ty) (site : CallSite) : Marking Target := do
  match (← onStore get).targets.get? site.call with
  | some found => return found
  | none => do
    let receiverType ← typeOf (.record site.receiver)
    onStore do
      let found ← g.dispatch (← get).targets receiverType site.call site.receiver
      modify (·.setTarget site.call found)
      return found

/-- The type of a dependency. -/
def resolve (g : Graph) : (steps : Nat) → Dependency → Marking Ty
  | 0, d => throw (circular g d)
  | steps + 1, d => do
    match (← onStore get).known? d with
    | some type => return type
    | none =>
      match d with
      | .record n =>
        match ← within (circular g d) (nodeOf d)
          (possibleTypes (resolve g steps) [] (g.record n).dependencies) with
        | [possible] => do
          onStore (modify (·.setType n possible.type))
          return possible.type
        | possibles =>
          throw
            { CompileError.atOrigin (g.origin n) .ambiguousType with
              candidates := possibles.map fun p => ⟨p.type, .ofPos (g.originOf p.source).pos⟩ }
      | .operator site =>
        within (circular g d) (nodeOf d) (operatorType g (resolve g steps) site)
      | .send site =>
        within (circular g d) (nodeOf d) do
          match ← target g (resolve g steps) site with
          | .object className => return .object className
          | .method n => resolve g steps (.record n)
          | .operator site => resolve g steps (.operator site)

end Marked

/-- The search with a set does what the search without it does, and leaves the set as it was. -/
def Mirrors (s : Store) (seen : Finset PathNode) (x : Marking α) (y : Finding α) : Prop :=
  x.run.run (s, seen) = ((outcome y s).1, (outcome y s).2, seen)

section Mirrors

variable {seen : Finset PathNode} {x : Marking α} {y : Finding α} {f : α → Marking β}
  {h : α → Finding β} {e : CompileError} {node : PathNode}

theorem Mirrors.pure (a : α) : Mirrors s seen (Pure.pure a) (Pure.pure a) := rfl

theorem Mirrors.throw (e : CompileError) :
    Mirrors s seen (MonadExcept.throw e : Marking α) (MonadExcept.throw e) := rfl

theorem Mirrors.onStore (y : Finding α) : Mirrors s seen (Marked.onStore y) y := rfl

/-- Marking mirrors two searches in turn when it mirrors each. -/
theorem Mirrors.bind (hx : Mirrors s seen x y) (hf : ∀ a s, Mirrors s seen (f a) (h a)) :
    Mirrors s seen (x >>= f) (y >>= h) := by
  unfold Mirrors at hx ⊢
  -- Both fail, with the set restored, or both go on.
  cases hr : outcome y s with
  | mk r s' =>
    rw [hr] at hx
    change (ExceptT.bindCont f (x.run.run (s, seen)).1).run (x.run.run (s, seen)).2 = _
    rw [hx]
    cases r with
    | error e =>
      rw [outcome_bind_error hr]
      rfl
    | ok a =>
      rw [outcome_bind_ok hr]
      exact hf a s'

/-- An error is the end. -/
theorem Mirrors.throw_bind (hx : Mirrors s seen x (MonadExcept.throw e)) :
    Mirrors s seen (x >>= f) (MonadExcept.throw e) := by
  unfold Mirrors at hx ⊢
  change (ExceptT.bindCont f (x.run.run (s, seen)).1).run (x.run.run (s, seen)).2 = _
  rw [hx]
  rfl

theorem Mirrors.get_bind {f : Store → Marking β} {h : Store → Finding β}
    (hf : Mirrors s seen (f s) (h s)) :
    Mirrors s seen (Marked.onStore get >>= f) (get >>= h) := hf

/-- What is done finally is done after an answer and after an error. -/
theorem run_tryFinally_modify {σ ε : Type} (x : ExceptT ε (StateM σ) α) (u : σ → σ) (s : σ) :
    (tryFinally x (modify u)).run.run s = ((x.run.run s).1, u (x.run.run s).2) := by
  -- How the body runs is named first, so that an answer and an error can be told apart.
  have hrun : ∀ r s', x.run.run s = (r, s') →
      (tryFinally x (modify u)).run.run s = (r, u s') := by
    intro r s' h
    have hx : (x s : Id _) = (r, s') := h
    simp only [tryFinally, tryFinally', ExceptT.run, StateT.run, ExceptT.mk, Functor.map,
      ExceptT.map, bind, StateT.bind, pure, hx]
    cases r <;> rfl
  exact hrun _ _ rfl

/-- **A node that is entered is left again**, whether what is done in between fails or not. -/
theorem Mirrors.within (hnode : node ∉ seen) (hx : Mirrors s (insert node seen) x y) :
    Mirrors s seen (Marked.within e node x) y := by
  unfold Mirrors at hx ⊢
  change (if node ∈ seen then _ else _ : Marking α).run.run (s, seen) = _
  rw [if_neg hnode]
  refine (run_tryFinally_modify x _ _).trans ?_
  rw [hx]
  exact congrArg (fun seen => (_, _, seen)) (Finset.erase_insert hnode)

/-- A node that is marked is refused, as one on the path is. -/
theorem Mirrors.within_of_mem (hnode : node ∈ seen) :
    Mirrors s seen (Marked.within e node x) (MonadExcept.throw e : Finding α) := by
  change (if node ∈ seen then _ else _ : Marking α).run.run (s, seen) = _
  rw [if_pos hnode]
  rfl

variable {typeOf : Dependency → Marking Ty} {typeOf' : Dependency → Finding Ty}

/-- Marking mirrors the search through the dependencies of a record. -/
theorem mirrors_possibleTypes (ht : ∀ d s, Mirrors s seen (typeOf d) (typeOf' d)) :
    ∀ (ds : List Dependency) (found : List Possible) (s : Store),
      Mirrors s seen (Marked.possibleTypes typeOf found ds) (possibleTypes typeOf' found ds) := by
  intro ds
  induction ds with
  | nil => exact fun found s => .pure found
  | cons d rest ih =>
    intro found s
    rw [Marked.possibleTypes, possibleTypes]
    exact (ht d s).bind fun t s => ih _ s

/-- Marking mirrors the search for the type of an operator. -/
theorem mirrors_operatorType (ht : ∀ d s, Mirrors s seen (typeOf d) (typeOf' d))
    (site : CallSite) :
    Mirrors s seen (Marked.operatorType g typeOf site) (operatorType g typeOf' site) := by
  unfold Marked.operatorType operatorType
  refine (ht _ s).bind fun t s => ?_
  dsimp only
  cases (g.record site.call).instruction.op.name?.bind (Operator.find? t) with
  | none => exact .throw _
  | some operator =>
    -- One argument is asked for, and every other number is refused on both sides.
    rcases site.args with _ | ⟨arg, _ | ⟨other, rest⟩⟩
    · exact .throw _
    · refine (ht _ s).bind fun u s => ?_
      by_cases hu : u = operator.argType
      · rw [if_pos hu, if_pos hu]
        exact .pure _
      · rw [if_neg hu, if_neg hu]
        exact .throw _
    · exact .throw _

/-- Marking mirrors the search for a target. -/
theorem mirrors_target (ht : ∀ d s, Mirrors s seen (typeOf d) (typeOf' d)) (site : CallSite) :
    Mirrors s seen (Marked.target g typeOf site) (target g typeOf' site) := by
  unfold Marked.target target
  refine .get_bind ?_
  cases s.targets.get? site.call with
  | some found => exact .pure found
  | none => exact (ht _ s).bind fun t s => .onStore _

/-- **The two searches are the same.** The path is what the set holds; the proof goes by induction on
the steps. -/
theorem mirrors_resolve : ∀ (k : Nat) (path : List PathNode) (seen : Finset PathNode)
    (d : Dependency) (s : Store), (∀ node, node ∈ seen ↔ node ∈ path) →
      Mirrors s seen (Marked.resolve g k d) (resolveWithin g k path d) := by
  intro k
  induction k with
  | zero => exact fun path seen d s _ => .throw _
  | succ k ih =>
    intro path seen d s hpath
    unfold Marked.resolve resolveWithin
    refine .get_bind ?_
    cases s.known? d with
    | some t => exact .pure t
    | none =>
      have hnext : ∀ d' s, Mirrors s (insert (nodeOf d) seen) (Marked.resolve g k d')
          (resolveWithin g k (nodeOf d :: path) d') := by
        refine fun d' s => ih _ _ d' s fun node => ?_
        rw [Finset.mem_insert, List.mem_cons, hpath]
      dsimp only
      -- The set and the path hold the same nodes: both searches enter the node, or both refuse it.
      by_cases hmem : nodeOf d ∈ seen
      · rw [if_pos (by simpa using (hpath _).mp hmem)]
        cases d with
        | record n =>
          exact Mirrors.throw_bind (.within_of_mem hmem)
        | operator site => exact .within_of_mem hmem
        | send site => exact .within_of_mem hmem
      · rw [if_neg (by simpa using mt (hpath _).mpr hmem)]
        cases d with
        | record n =>
          refine Mirrors.bind (.within hmem (mirrors_possibleTypes hnext _ _ _)) fun ps s => ?_
          rcases ps with _ | ⟨p, _ | ⟨q, rest⟩⟩
          · exact .throw _
          · exact Mirrors.bind (.onStore _) fun _ _ => .pure _
          · exact .throw _
        | operator site => exact .within hmem (mirrors_operatorType hnext site)
        | send site =>
          refine .within hmem ((mirrors_target hnext site).bind fun found s => ?_)
          cases found with
          | object name => exact .pure _
          | method n => exact hnext _ s
          | operator site => exact hnext _ s

end Mirrors

end Inference

open Inference

/-- **Reported cycles are real.** In every session on a graph that is built, if a record's type is
refused because of a cycle, the error is about something that depends on itself through one or more
dependencies, and that the record depends on. So what is only shared, and depends on itself nowhere,
is never reported.

The search that has one set of entered nodes for all its parts answers the same and finds the same
out; and every call of it leaves the set as it was, from whatever store it starts, whatever is in
the set, and whether there is an answer or an error. -/
theorem cycles_are_real (h : Graph.build code = .ok g) (asked : List Session.Question) :
    let s := ((Session.start g).askAll asked).store
    (∀ n e, (outcome (resolve g n) s).1 = .error e → e.cause = .circularType →
      ∃ d, e = circular g d ∧ TransGen g.DependsOn d d ∧
        ReflTransGen g.DependsOn (.record n) d) ∧
    (∀ n, (∀ d, ReflTransGen g.DependsOn (.record n) d → ¬ TransGen g.DependsOn d d) →
      ∀ e, (outcome (resolve g n) s).1 = .error e → e.cause ≠ .circularType) ∧
    (∀ n, (Marked.resolve g (steps g) (.record n)).run.run (s, ∅) =
      ((outcome (resolve g n) s).1, (outcome (resolve g n) s).2, ∅)) ∧
    ∀ k d s' seen, ((Marked.resolve g k d).run.run (s', seen)).2.2 = seen := by
  intro s
  have w := (Graph.built_of_build h).isWired
  have hs : s.Sound g := (Session.On.askAll w asked (Session.On.start w)).1.sound
  -- Every error from a sound store is justified by what the record depends on.
  have hreal : ∀ n e, (outcome (resolve g n) s).1 = .error e → Justified g (.record n) e :=
    fun n e he => justified_resolveWithin w _ [] (.record n) s trivial (.start _) hs e he
  refine ⟨fun n e he hc => hreal n e he hc, fun n hno e he hc => ?_, fun n => ?_,
    fun k d s' seen => ?_⟩
  · obtain ⟨d, -, hcycle, hreach⟩ := hreal n e he hc
    exact hno d hreach hcycle
  · exact mirrors_resolve _ [] ∅ (.record n) s fun node => by simp
  · -- Any set is what some path holds.
    rw [mirrors_resolve k seen.toList seen d s' fun node => Finset.mem_toList.symm]

/-- A method that calls itself: its type is refused because of a cycle, and it depends on itself. -/
theorem cycles_are_real_endless :
    let code : List Instruction := [.defStart "f", .pushNil, .send "f" (some 0), .defEnd "f",
      .pushNil, .send "f" (some 0)].map fun op => ⟨op, default⟩
    ∃ g e d, Graph.build code = .ok g ∧ (outcome (resolve g 5) (.ofGraph g)).1 = .error e ∧
      e.cause = .circularType ∧ e = circular g d ∧ TransGen g.DependsOn d d := by
  intro code
  -- The method calls itself, and one evaluation finds the cycle.
  have hcycle : ((Graph.build code).toOption.any fun g =>
      match (outcome (resolve g 5) (.ofGraph g)).1 with
      | .error e => e.cause = .circularType
      | .ok _ => false) = true := by decide +kernel
  cases hg : Graph.build code with
  | error e => rw [hg] at hcycle; cases hcycle
  | ok g =>
    rw [hg] at hcycle
    simp only [Except.toOption, Option.any_some] at hcycle
    cases he : (outcome (resolve g 5) (.ofGraph g)).1 with
    | ok t => rw [he] at hcycle; cases hcycle
    | error e =>
      rw [he] at hcycle
      have hcause : e.cause = .circularType := of_decide_eq_true hcycle
      obtain ⟨d, heq, hdepends, -⟩ := (cycles_are_real hg []).1 5 e he hcause
      exact ⟨g, e, d, rfl, he, hcause, heq, hdepends⟩

end Rubylet
