import Rubylet.Proofs.Typing.Exact
import Rubylet.Session

/-!
# Resolution without history

A session asks for types one after the other, and what one question found out is there for the next
one. None of it shows in an answer: a record has the type, or is refused with the error, that it
would have had in a session of its own.

Take two stores in which nothing wrong is written down. What has a type is found from both
(`HasType.found`). What has none is written down in neither, so both searches go the same way, step
by step, to the same error (`resolveWithin_steady`): memory never hides an error, for a node that
fails is never remembered. Only a call's target may be known to one store and not to the other, and
then it is the target that the other one finds (`target_alike`).

* `resolution_without_history`: for every graph that is built and any questions on it. The graph
  stays as it is, and what is written down is neither lost nor replaced.
-/

namespace Rubylet

open Rubylet.Graph

variable {g : Graph} {s s' : Store} {d : Dependency} {n : Nat} {α β : Type}

namespace Inference

/-! ### Two stores -/

variable (g) in
/-- From two stores a finding keeps them sound and answers the same; a property holds of the answer
with either store that it leaves. -/
structure Alike (s s' : Store) (x : Finding α) (P : α → Store → Prop) : Prop where
  answer : (outcome x s).1 = (outcome x s').1
  left : Keeps g s x P
  right : Keeps g s' x P

variable {x : Finding α} {f : α → Finding β} {P : α → Store → Prop}

/-- What goes on from the same answer, in sound stores, answers the same. -/
theorem Alike.answer_bind (h : Alike g s s' x P)
    (hf : ∀ a s₁ s₁', s₁.Sound g → s₁'.Sound g → P a s₁ → P a s₁' →
      (outcome (f a) s₁).1 = (outcome (f a) s₁').1) :
    (outcome (x >>= f) s).1 = (outcome (x >>= f) s').1 := by
  obtain ⟨hanswer, ⟨hsound, -, hpost⟩, ⟨hsound', -, hpost'⟩⟩ := h
  cases hr : outcome x s with
  | mk r s₁ =>
    cases hr' : outcome x s' with
    | mk r' s₁' =>
      rw [hr, hr'] at hanswer
      rw [hr] at hsound hpost
      rw [hr'] at hsound' hpost'
      obtain rfl : r = r' := hanswer
      -- The first answers are equal, so both stop or both go on.
      cases r with
      | error e => rw [outcome_bind_error hr, outcome_bind_error hr']
      | ok a =>
        rw [outcome_bind_ok hr, outcome_bind_ok hr']
        exact hf a s₁ s₁' hsound hsound' (hpost a rfl) (hpost' a rfl)

variable (g) in
/-- The type of a dependency is answered alike from any two sound stores. -/
def Steady (typeOf : Dependency → Finding Ty) (d : Dependency) : Prop :=
  ∀ s s', s.Sound g → s'.Sound g → (outcome (typeOf d) s).1 = (outcome (typeOf d) s').1

variable {typeOf : Dependency → Finding Ty}

theorem Steady.alike (h : Steady g typeOf d) (hf : Finds g typeOf) (hown : Owned g d)
    (hs : s.Sound g) (hs' : s'.Sound g) :
    Alike g s s' (typeOf d) fun t s₁ => g.HasType d t ∧ s₁.Settled d :=
  ⟨h s s' hs hs', hf d s hown hs, hf d s' hown hs'⟩

/-! ### The parts of a search -/

/-- The types found for a list of dependencies do not depend on what was asked before. -/
theorem possibleTypes_alike (hf : Finds g typeOf) :
    ∀ (ds : List Dependency) (found : List Possible) (s s' : Store),
      (∀ d ∈ ds, Owned g d ∧ Steady g typeOf d) → s.Sound g → s'.Sound g →
      (outcome (possibleTypes typeOf found ds) s).1 =
        (outcome (possibleTypes typeOf found ds) s').1 := by
  intro ds
  -- On the dependencies: both stores answer the first alike, and stay sound.
  induction ds with
  | nil => exact fun found s s' _ _ _ => rfl
  | cons d rest ih =>
    intro found s s' hds hs hs'
    obtain ⟨hown, hsteady⟩ := hds d (.head _)
    unfold possibleTypes
    refine (hsteady.alike hf hown hs hs').answer_bind fun t s₁ s₁' hs₁ hs₁' _ _ => ?_
    exact ih _ s₁ s₁' (fun d hd => hds d (.tail _ hd)) hs₁ hs₁'

/-- The type of an operator does not depend on what was asked before. -/
theorem operatorType_alike (hf : Finds g typeOf) {site : CallSite}
    (hr : Steady g typeOf (.record site.receiver))
    (ha : ∀ arg, site.args = [arg] → Steady g typeOf (.record arg)) (hs : s.Sound g)
    (hs' : s'.Sound g) :
    (outcome (operatorType g typeOf site) s).1 = (outcome (operatorType g typeOf site) s').1 := by
  unfold operatorType
  refine (hr.alike hf trivial hs hs').answer_bind fun t s₁ s₁' hs₁ hs₁' _ _ => ?_
  dsimp only
  -- The operator depends on the type of the receiver only, and its type on that of the argument.
  split
  · rfl
  · split
    · next arg harg =>
      refine ((ha arg harg).alike hf trivial hs₁ hs₁').answer_bind fun u s₂ s₂' _ _ _ _ => ?_
      split <;> rfl
    · rfl

/-- The two stores may know the target, or find it: whatever they know is right, and where neither
knows it, both ask with tables that lead the same way. -/
theorem target_alike (hf : Finds g typeOf) {site : CallSite}
    (hsite : .send site ∈ (g.record site.call).dependencies)
    (hr : Steady g typeOf (.record site.receiver))
    (hfound : ∀ found, g.HasTarget site found →
      ∀ s, s.Sound g → (outcome (target g typeOf site) s).1 = .ok found)
    (hs : s.Sound g) (hs' : s'.Sound g) :
    (outcome (target g typeOf site) s).1 = (outcome (target g typeOf site) s').1 := by
  by_cases ht : ∃ found, g.HasTarget site found
  · obtain ⟨found, ht⟩ := ht
    rw [hfound found ht s hs, hfound found ht s' hs']
  -- What a sound store knows is right, so a call without a target has none written down.
  · have hnone : ∀ {s : Store}, s.Sound g → s.targets.get? site.call = none := fun hs =>
      Option.eq_none_iff_forall_ne_some.mpr fun found hget => ht ⟨found, hs.targeted hsite hget⟩
    unfold target
    rw [outcome_get_bind, outcome_get_bind, hnone hs, hnone hs']
    refine (hr.alike hf trivial hs hs').answer_bind fun t s₁ s₁' hs₁ hs₁' hp hp' => ?_
    have hdispatch : g.dispatch s₁.targets t site.call site.receiver =
        g.dispatch s₁'.targets t site.call site.receiver :=
      dispatch_eq (hs₁.covers hp.2) (hs₁'.covers hp'.2) fun n other found found' hm h h' =>
        (hs₁.targeted hm h).unique (hs₁'.targeted hm h')
    rw [outcome_get_bind, outcome_get_bind, hdispatch]
    cases g.dispatch s₁'.targets t site.call site.receiver <;> rfl

/-! ### The search -/

/-- A node on the path is a cycle, whatever the store knows. -/
theorem resolveWithin_of_mem {path : List PathNode} {k : Nat} (hk : s.known? d = none)
    (hp : nodeOf d ∈ path) :
    (outcome (resolveWithin g (k + 1) path d) s).1 = .error (circular g d) := by
  have hmem : path.contains (nodeOf d) = true := by simpa using hp
  rw [resolveWithin, outcome_get_bind, hk]
  exact congrArg (fun x => (outcome x s).1) (if_pos hmem)

/-- What has no type is written down in no sound store. -/
theorem known?_of_underivable (hs : s.Sound g) (hno : ∀ t, ¬ g.HasType d t) :
    s.known? d = none := by
  cases d with
  | record n => exact Option.eq_none_iff_forall_ne_some.mpr fun t ht => hno t (hs.typed ht)
  | operator _ => rfl
  | send _ => rfl

/-- **A search answers the same from any two sound stores.** What has a type is found from both. What
has none is searched for from both, for it is written down in neither; the proof goes by induction
on the steps, along the two searches at once. -/
theorem resolveWithin_steady (w : g.Wired) :
    ∀ (k : Nat) (path : List PathNode) (d : Dependency), Owned g d → Trail g path k d →
      Steady g (resolveWithin g k path) d := by
  intro k
  induction k with
  | zero => exact fun path d _ _ s s' _ _ => rfl
  | succ k ih =>
    intro path d hown htrail s s' hs hs'
    by_cases ht : ∃ t, g.HasType d t
    · obtain ⟨t, ht⟩ := ht
      rw [HasType.found w ht hown htrail s hs, HasType.found w ht hown htrail s' hs']
    · have hno : ∀ t, ¬ g.HasType d t := fun t h => ht ⟨t, h⟩
      have hk := known?_of_underivable hs hno
      have hk' := known?_of_underivable hs' hno
      by_cases hp : nodeOf d ∈ path
      · rw [resolveWithin_of_mem hk hp, resolveWithin_of_mem hk' hp]
      · rw [outcome_resolveWithin hk hp, outcome_resolveWithin hk' hp]
        -- Whatever is asked for next is asked for along a longer path, and answered alike.
        have hfinds := keeps_resolveWithin w k (nodeOf d :: path)
        have hnext : nodeOf d ∈ allNodes g → ∀ d', Trail g (nodeOf d :: path) k d' :=
          fun hnode d' => htrail.extend hown hp hnode fun t h => absurd h (hno t)
        cases d with
        | record n =>
          have hdeps : ∀ d ∈ (g.record n).dependencies, Owned g d ∧
              Steady g (resolveWithin g k (nodeOf (.record n) :: path)) d := by
            intro d hd
            refine ⟨owned_of_mem w hd, ih _ d (owned_of_mem w hd) (hnext ?_ d)⟩
            refine nodeOf_mem_allNodes hown fun m hm => ?_
            obtain rfl := Dependency.record.inj hm
            exact lt_size_of_mem hd
          have howned : ∀ d ∈ (g.record n).dependencies, Owned g d := fun d hd => (hdeps d hd).1
          have hboth : Alike g s s' (possibleTypes
              (resolveWithin g k (nodeOf (.record n) :: path)) [] (g.record n).dependencies) _ :=
            ⟨possibleTypes_alike hfinds _ _ _ _ hdeps hs hs',
              keeps_possibleTypes hfinds _ _ _ howned hs,
              keeps_possibleTypes hfinds _ _ _ howned hs'⟩
          refine hboth.answer_bind fun possibles s₁ s₁' _ _ _ _ => ?_
          rcases possibles with _ | ⟨p, _ | ⟨q, rest⟩⟩ <;> rfl
        | operator site =>
          have hnode : nodeOf (.operator site) ∈ allNodes g := nodeOf_mem_allNodes hown nofun
          exact operatorType_alike hfinds (ih _ _ trivial (hnext hnode _))
            (fun arg _ => ih _ _ trivial (hnext hnode _)) hs hs'
        | send site =>
          have hnode : nodeOf (.send site) ∈ allNodes g := nodeOf_mem_allNodes hown nofun
          have htarget := target_alike hfinds hown (ih _ _ trivial (hnext hnode _))
            (fun found h => HasTarget.found w h hown (hnext hnode _)) hs hs'
          have hboth : Alike g s s' (target g (resolveWithin g k (nodeOf (.send site) :: path)) site)
              _ := ⟨htarget, keeps_target w hfinds hown hs, keeps_target w hfinds hown hs'⟩
          refine hboth.answer_bind fun found s₁ s₁' hs₁ hs₁' hfound _ => ?_
          cases found with
          | object name => rfl
          | method n => exact ih _ (.record n) trivial (hnext hnode _) s₁ s₁' hs₁ hs₁'
          | operator site' =>
            obtain rfl := site_of_hasTarget w hown hfound.1
            exact ih _ (.operator _) (.inl hown) (hnext hnode _) s₁ s₁' hs₁ hs₁'

end Inference

open Inference

/-! ### Sessions -/

namespace Session

/-- A question for types. -/
inductive Question where
  | resolve (n : Nat)
  | resolveDependency (n : Nat) (index : Int)
  | resolveAll
  deriving Repr, DecidableEq, Inhabited

/-- The session after a question, whether it was answered or refused. -/
def ask (s : Session) : Question → Session
  | .resolve n => ((Session.resolve n).run.run s).2
  | .resolveDependency n index => ((Session.resolveDependency n index).run.run s).2
  | .resolveAll => (Session.resolveAll.run.run s).2

/-- The session after several questions. -/
def askAll (s : Session) (questions : List Question) : Session := questions.foldl ask s

theorem get_bind_run (f : Session → Asking α) (s : Session) :
    (get >>= f).run.run s = (f s).run.run s := rfl

/-- To find something out is to ask the graph from the store, and to keep what the store becomes. -/
theorem find_run (question : Graph → Finding α) (s : Session) :
    (find question).run.run s =
      ((outcome (question s.graph) s.store).1.mapError .compile,
        { s with store := (outcome (question s.graph) s.store).2 }) := by
  unfold Session.find
  rw [get_bind_run]
  unfold outcome
  rcases (question s.graph).run.run s.store with ⟨_ | _, _⟩ <;> rfl

variable (g) in
/-- A session on a graph, in which nothing wrong is written down. -/
structure On (s : Session) : Prop where
  graph : s.graph = g
  sound : s.store.Sound g

theorem mem_of_elementAt? {xs : List α} {index : Int} {x : α} (h : elementAt? xs index = some x) :
    x ∈ xs := by
  unfold elementAt? at h
  split at h
  · exact List.mem_of_getElem? h
  · split at h
    · exact List.mem_of_getElem? h
    · cases h

theorem On.start (w : g.Wired) : On g (Session.start g) := ⟨rfl, Store.sound_ofGraph w⟩

/-- A question that keeps the store sound and loses nothing. -/
theorem On.find {question : Graph → Finding α} {P : α → Store → Prop} {s : Session} (h : On g s)
    (hk : Keeps g s.store (question g) P) :
    On g ((Session.find question).run.run s).2 ∧
      s.store.Grows ((Session.find question).run.run s).2.store := by
  obtain ⟨rfl, -⟩ := h
  rw [find_run]
  exact ⟨⟨rfl, hk.sound⟩, hk.grows⟩

/-- A sweep keeps a store sound. -/
theorem keeps_resolveAll (w : g.Wired) :
    ∀ (ns : List Nat) (s : Store), s.Sound g →
      Keeps g s (ns.mapM (Inference.resolve g)) fun _ _ => True := by
  intro ns
  induction ns with
  | nil => exact fun s hs => .pure hs trivial
  | cons n ns ih =>
    intro s hs
    rw [List.mapM_cons]
    refine (keeps_resolveWithin w _ [] (.record n) s trivial hs).bind fun _ s₁ hs₁ _ _ => ?_
    exact (ih s₁ hs₁).bind fun _ s₂ hs₂ _ _ => .pure hs₂ trivial

/-- **What one question does to a session**: the graph stays, what is written down stays right, and
nothing that was written down is lost or replaced. -/
theorem On.ask (w : g.Wired) {s : Session} (h : On g s) (q : Question) :
    On g (s.ask q) ∧ s.store.Grows (s.ask q).store := by
  -- A question asks for one record, for all of them, or for one dependency that may be missing.
  cases q with
  | resolve n => exact h.find (keeps_resolveWithin w _ [] (.record n) _ trivial h.sound)
  | resolveAll => exact h.find (keeps_resolveAll w _ _ h.sound)
  | resolveDependency n index =>
    unfold Session.ask Session.resolveDependency
    dsimp only
    rw [get_bind_run]
    cases hd : elementAt? (s.graph.record n).dependencies index with
    | none => exact ⟨h, .refl _⟩
    | some d =>
      have hmem : d ∈ (g.record n).dependencies := h.graph ▸ mem_of_elementAt? hd
      exact h.find (keeps_resolveWithin w _ [] d _ (owned_of_mem w hmem) h.sound)

/-- What several questions do to a session. -/
theorem On.askAll (w : g.Wired) (questions : List Question) :
    ∀ {s : Session}, On g s → On g (s.askAll questions) ∧ s.store.Grows (s.askAll questions).store := by
  induction questions with
  | nil => exact fun h => ⟨h, .refl _⟩
  | cons q questions ih =>
    intro s h
    obtain ⟨hq, hgrow⟩ := h.ask w q
    obtain ⟨hrest, hgrow'⟩ := ih hq
    exact ⟨hrest, hgrow.trans hgrow'⟩

/-- In any two sessions on a graph a record has the same type, or the same error. -/
theorem On.resolve_eq (w : g.Wired) {s s' : Session} (h : On g s) (h' : On g s') (n : Nat) :
    ((Session.resolve n).run.run s).1 = ((Session.resolve n).run.run s').1 := by
  obtain ⟨hg, hs⟩ := h
  obtain ⟨hg', hs'⟩ := h'
  unfold Session.resolve
  rw [find_run, find_run, hg, hg']
  exact congrArg (Except.mapError SessionError.compile)
    (resolveWithin_steady w _ [] (.record n) trivial (.start _) _ _ hs hs')

end Session

open Session

/-- **What was asked before makes no difference.** After any questions, answered or refused, a record
has the type that it has in a session of its own, or is refused with the same error. The graph stays
as it was built; and whatever is asked later, no type that is written down changes, and no target of
a call. -/
theorem resolution_without_history {code : List Instruction} (h : Graph.build code = .ok g)
    (asked : List Question) :
    let s := (Session.start g).askAll asked
    (∀ n, ((Session.resolve n).run.run s).1 =
      ((Session.resolve n).run.run (Session.start g)).1) ∧
    s.graph = g ∧
    ∀ later : List Question,
      (∀ n t, s.store.type? n = some t → (s.askAll later).store.type? n = some t) ∧
      ∀ call found, s.store.targets.get? call = some found →
        (s.askAll later).store.targets.get? call = some found := by
  intro s
  have w := (Graph.built_of_build h).isWired
  have hstart := On.start w
  obtain ⟨hs, -⟩ := hstart.askAll w asked
  refine ⟨fun n => hs.resolve_eq w hstart n, hs.graph, fun later => ?_⟩
  -- Later questions add to the store and change nothing.
  have hgrow := (hs.askAll w later).2
  exact ⟨fun n t => hgrow.types, fun call found => hgrow.targets⟩

/-- A number is added to a text. The error is the same after all records have been asked for, which
fails as well. -/
theorem resolution_without_history_mismatch :
    let code : List Instruction :=
      [.pushInt 1, .pushStr "a", .send "+" (some 1)].map fun op => ⟨op, default⟩
    ∃ g, Graph.build code = .ok g ∧
      ((Session.resolve 2).run.run ((Session.start g).askAll [.resolveAll, .resolve 2])).1 =
        ((Session.resolve 2).run.run (Session.start g)).1 := by
  intro code
  have hbuild : (Graph.build code).isOk = true := by decide +kernel
  cases hg : Graph.build code with
  | error e => rw [hg] at hbuild; cases hbuild
  | ok g => exact ⟨g, rfl, (resolution_without_history hg _).1 2⟩

end Rubylet
