import Mathlib.Data.List.Perm.Subperm
import Rubylet.Proofs.Typing.Sound

/-!
# Inference finds every type that can be derived

The search for a type follows the derivation of it. Two things could stop it on the way: a node that
is already on the path, and the end of the steps it is given. `Trail` rules out both. Whatever on
a path has a type depends on what is asked for; nothing that has a type depends on itself
(`HasType.not_transGen`), so what is asked for is not on the path if it has a type (`Trail.fresh`).
No node is on a path twice, so the path is no longer than there are nodes (`Trail.exists_succ`).

The search then answers the type from every sound store (`HasType.found`), and the target of a call
likewise (`HasTarget.found`). Both go by recursion on the derivation.
-/

namespace Rubylet

open Rubylet.Graph

variable {g : Graph} {s s' : Store} {d : Dependency} {n : Nat} {t : Ty} {α β : Type}

namespace Inference

/-! ### Paths -/

variable (g) in
/-- The nodes of a graph. -/
def allNodes : List PathNode :=
  (List.range g.records.size).map .record ++ (List.range g.records.size).map .operator ++
    (List.range g.records.size).map .send

/-- A graph has three nodes for each record, at most. -/
theorem length_allNodes (g : Graph) : (allNodes g).length = 3 * g.records.size := by
  simp only [allNodes, List.length_append, List.length_map, List.length_range]
  omega

/-- Only a record of the graph has dependencies. -/
theorem lt_size_of_mem (hd : d ∈ (g.record n).dependencies) : n < g.records.size := by
  refine Decidable.byContradiction fun hn => ?_
  rw [record_eq_default (Nat.le_of_not_lt hn)] at hd
  cases hd

/-- What a graph has is one of its nodes, if it is a record that exists. -/
theorem nodeOf_mem_allNodes (hown : Owned g d) (hlt : ∀ n, d = .record n → n < g.records.size) :
    nodeOf d ∈ allNodes g := by
  cases d with
  | record n => simp [allNodes, nodeOf, hlt n rfl]
  | operator site => simp [allNodes, nodeOf, hown.elim lt_size_of_mem lt_size_of_mem]
  | send site => simp [allNodes, nodeOf, lt_size_of_mem hown]

/-- What a graph has is known by its node. -/
theorem eq_of_nodeOf_eq (w : g.Wired) {d' : Dependency} (h : Owned g d) (h' : Owned g d')
    (heq : nodeOf d = nodeOf d') : d = d' := by
  cases d <;> cases d' <;> simp only [nodeOf, PathNode.record.injEq, PathNode.operator.injEq,
    PathNode.send.injEq, reduceCtorEq] at heq
  · rw [heq]
  · next site site' =>
    rw [Owned, ← heq] at h'
    rw [w.site_unique h h']
  · next site site' =>
    rw [Owned, ← heq] at h'
    rw [w.site_unique (.inl h) (.inl h')]

variable (g) in
/-- A path to a dependency, and the steps that are left. The nodes on the path that have a type have
it through the dependency. -/
structure Trail (path : List PathNode) (steps : Nat) (d : Dependency) : Prop where
  nodup : path.Nodup
  room : path.length + steps = Inference.steps g
  above : ∀ node ∈ path, node ∈ allNodes g ∧ ∃ a, Owned g a ∧ nodeOf a = node ∧
    ∀ t, g.HasType a t → Relation.TransGen g.DependsOn a d

variable {path : List PathNode} {k : Nat}

theorem Trail.start (d : Dependency) : Trail g [] (Inference.steps g) d :=
  ⟨.nil, Nat.zero_add _, nofun⟩

/-- **What has a type is not on the path to it.** -/
theorem Trail.fresh (h : Trail g path k d) (w : g.Wired) (hown : Owned g d) (ht : g.HasType d t) :
    nodeOf d ∉ path := by
  intro hmem
  obtain ⟨-, a, ha, heq, hdep⟩ := h.above _ hmem
  obtain rfl := eq_of_nodeOf_eq w ha hown heq
  exact ht.not_transGen (hdep t ht)

/-- There is always a step left. -/
theorem Trail.exists_succ (h : Trail g path k d) : ∃ j, k = j + 1 := by
  have hsub : path ⊆ allNodes g := fun node hnode => (h.above node hnode).1
  have hlen := (List.subperm_of_subset h.nodup hsub).length_le
  have hroom := h.room
  rw [length_allNodes] at hlen
  unfold Inference.steps at hroom
  exact Nat.exists_eq_add_one.mpr (by omega)

/-- The path to what is asked for next, from a node that is not on it. -/
theorem Trail.extend {d' : Dependency} (h : Trail g path (k + 1) d) (hown : Owned g d)
    (hfresh : nodeOf d ∉ path) (hnode : nodeOf d ∈ allNodes g)
    (hdep : ∀ t, g.HasType d t → g.DependsOn d d') : Trail g (nodeOf d :: path) k d' := by
  refine ⟨List.nodup_cons.mpr ⟨hfresh, h.nodup⟩, ?_, ?_⟩
  · rw [List.length_cons, Nat.add_right_comm]
    exact h.room
  · intro node hmem
    rcases List.mem_cons.mp hmem with rfl | hmem
    · exact ⟨hnode, d, hown, rfl, fun t ht => .single (hdep t ht)⟩
    · obtain ⟨hall, a, ha, heq, hd⟩ := h.above node hmem
      refine ⟨hall, a, ha, heq, fun t ht => ?_⟩
      -- What a typed node depends on is typed, so the last step of the path is one of its type.
      obtain ⟨u, hu⟩ := ht.of_transGen (hd t ht)
      exact (hd t ht).tail (hdep u hu)

/-- The path to what is asked for next, from something that has a type. -/
theorem Trail.push {d' : Dependency} (h : Trail g path (k + 1) d) (w : g.Wired)
    (hown : Owned g d) (ht : g.HasType d t) (hdep : g.DependsOn d d') :
    Trail g (nodeOf d :: path) k d' := by
  refine h.extend hown (h.fresh w hown ht) (nodeOf_mem_allNodes hown ?_) fun _ _ => hdep
  rintro n rfl
  exact Store.lt_size_of_hasType ht

/-! ### Asking for types that can be derived -/

variable (g) in
/-- From every sound store the type of a dependency is answered. -/
def Answers (typeOf : Dependency → Finding Ty) (d : Dependency) (t : Ty) : Prop :=
  ∀ s, s.Sound g → (outcome (typeOf d) s).1 = .ok t

variable {typeOf : Dependency → Finding Ty}

/-- A dependency that answers is answered with its type, and the rest goes on from there. -/
theorem Answers.bind {f : Ty → Finding β} (ha : Answers g typeOf d t) (hf : Finds g typeOf)
    (hown : Owned g d) (hs : s.Sound g) :
    ∃ s', s'.Sound g ∧ s'.Settled d ∧ outcome (typeOf d >>= f) s = outcome (f t) s' := by
  obtain ⟨hsound, -, hpost⟩ := hf d s hown hs
  have hok := ha s hs
  refine ⟨_, hsound, (hpost t hok).2, outcome_bind_ok ?_⟩
  exact Prod.ext hok rfl

/-- Dependencies that all have one type have no other possible type. -/
theorem possibleTypes_agree (hf : Finds g typeOf) (t : Ty) :
    ∀ (ds : List Dependency) (found : List Possible) (s : Store),
      (∀ d ∈ ds, Owned g d ∧ Answers g typeOf d t) → found ++ ds.map (fun d => ⟨d, t⟩) ≠ [] →
      (found = [] ∨ ∃ source, found = [⟨source, t⟩]) → s.Sound g →
      ∃ source s', s'.Sound g ∧
        outcome (possibleTypes typeOf found ds) s = (.ok [⟨source, t⟩], s') := by
  intro ds
  induction ds with
  | nil =>
    intro found s _ hne hfound hs
    rcases hfound with rfl | ⟨source, rfl⟩
    · exact absurd rfl hne
    · exact ⟨source, s, hs, rfl⟩
  | cons d rest ih =>
    intro found s hds _ hfound hs
    obtain ⟨hown, ha⟩ := hds d (.head _)
    obtain ⟨s₁, hs₁, -, heq⟩ := ha.bind (f := fun u => possibleTypes typeOf
      (if found.any fun p => p.type = u then found else found ++ [⟨d, u⟩]) rest) hf hown hs
    -- All dependencies have the same type, so the list of types stays one long.
    obtain ⟨source, hsource⟩ : ∃ source,
        (if found.any fun p => p.type = t then found else found ++ [⟨d, t⟩]) = [⟨source, t⟩] := by
      rcases hfound with rfl | ⟨source, rfl⟩
      · exact ⟨d, rfl⟩
      · exact ⟨source, by simp⟩
    rw [possibleTypes, heq, hsource]
    exact ih _ s₁ (fun d hd => hds d (.tail _ hd)) (by simp) (.inr ⟨source, rfl⟩) hs₁

/-- An operator whose operands are typed has its type found. -/
theorem operatorType_found {site : CallSite} {receiver : Ty} {o : Operator} {arg : Nat}
    (hf : Finds g typeOf) (hr : Answers g typeOf (.record site.receiver) receiver)
    (ho : ((g.record site.call).instruction.op.name?.bind (Operator.find? receiver)) = some o)
    (hargs : site.args = [arg]) (ha : Answers g typeOf (.record arg) o.argType)
    (hs : s.Sound g) : (outcome (operatorType g typeOf site) s).1 = .ok o.resultType := by
  unfold operatorType
  obtain ⟨s₁, hs₁, -, heq⟩ := hr.bind hf trivial hs
  rw [heq]
  simp only [ho, hargs]
  obtain ⟨s₂, -, -, heq⟩ := ha.bind hf trivial hs₁
  rw [heq, if_pos rfl, outcome_pure]

/-- A call whose receiver is typed has its target found. -/
theorem target_found {site : CallSite} {found : Target} {receiver : Ty}
    (hf : Finds g typeOf) (hsite : .send site ∈ (g.record site.call).dependencies)
    (hr : g.HasType (.record site.receiver) receiver)
    (ha : Answers g typeOf (.record site.receiver) receiver)
    (ht : g.HasTarget site found) (hs : s.Sound g) :
    (outcome (target g typeOf site) s).1 = .ok found := by
  unfold target
  rw [outcome_get_bind]
  cases hget : s.targets.get? site.call with
  -- What is written down is right, and there is one target only.
  | some other =>
    obtain rfl := ht.unique (hs.targeted hsite hget)
    rfl
  | none =>
    obtain ⟨s₁, hs₁, hset, heq⟩ := ha.bind hf trivial hs
    dsimp only
    rw [heq, outcome_get_bind]
    -- The table of the store covers the search, so it leads to the class of the derivation.
    have hcov := hs₁.covers hset
    obtain ⟨hr', right, hcov', hd⟩ := ht
    obtain rfl := hr.unique hr'
    rw [dispatch_eq hcov' hcov fun n other t t' hm h h' =>
      (right n other t hm h).unique (hs₁.targeted hm h')] at hd
    rw [hd]
    rfl

/-! ### The search follows the derivation -/

/-- What is written down is answered. -/
theorem resolveWithin_known (hk : s.known? d = some t) :
    (outcome (resolveWithin g (k + 1) path d) s).1 = .ok t := by
  rw [resolveWithin, outcome_get_bind, hk]
  rfl

/-- What is not on the path and not written down is searched for. -/
theorem outcome_resolveWithin (hk : s.known? d = none) (hp : nodeOf d ∉ path) :
    outcome (resolveWithin g (k + 1) path d) s =
      outcome (match d with
        | .record n => do
          match ← possibleTypes (resolveWithin g k (nodeOf d :: path)) []
              (g.record n).dependencies with
          | [possible] => do
            modify (·.setType n possible.type)
            return possible.type
          | possibles =>
            throw
              { CompileError.atOrigin (g.origin n) .ambiguousType with
                candidates := possibles.map fun p => ⟨p.type, .ofPos (g.originOf p.source).pos⟩ }
        | .operator site => operatorType g (resolveWithin g k (nodeOf d :: path)) site
        | .send site => do
          match ← target g (resolveWithin g k (nodeOf d :: path)) site with
          | .object className => return .object className
          | .method n => resolveWithin g k (nodeOf d :: path) (.record n)
          | .operator site => resolveWithin g k (nodeOf d :: path) (.operator site)) s := by
  -- The node is not on the path, so the search enters it.
  have hfresh : ¬path.contains (nodeOf d) = true := by simpa using hp
  rw [resolveWithin, outcome_get_bind, hk]
  cases d <;> exact congrArg (fun x => outcome x s) (if_neg hfresh)

mutual

/-- **What has a type is found.** -/
theorem HasType.found (w : g.Wired) {d : Dependency} {t : Ty} :
    g.HasType d t → ∀ {path : List PathNode} {k : Nat}, Owned g d → Trail g path k d →
      Answers g (resolveWithin g k path) d t
  | .given h, path, k, hown, htrail => by
    intro s hs
    obtain ⟨k, rfl⟩ := htrail.exists_succ
    exact resolveWithin_known (d := .record _) (hs.given h)
  | .agreed (n := n) hgiven hne h, path, k, hown, htrail => by
    intro s hs
    have ht : g.HasType (.record n) t := .agreed hgiven hne h
    obtain ⟨k, rfl⟩ := htrail.exists_succ
    cases hk : s.type? n with
    | some u =>
      obtain rfl := ht.unique (hs.typed hk)
      exact resolveWithin_known (d := .record n) hk
    | none =>
      have hknown : s.known? (.record n) = none := hk
      rw [outcome_resolveWithin hknown (htrail.fresh w hown ht)]
      dsimp only
      -- All dependencies have the type, so it is the only possible one.
      obtain ⟨source, s₁, -, heq⟩ := possibleTypes_agree
        (keeps_resolveWithin w k (nodeOf (.record n) :: path)) t
        (g.record n).dependencies [] s
        (fun d hd => ⟨owned_of_mem w hd,
          HasType.found w (h d hd) (owned_of_mem w hd) (htrail.push w hown ht (.edge hgiven hd))⟩)
        (by simpa using hne) (.inl rfl) hs
      rw [outcome_bind_ok heq]
      rfl
  | @HasType.operator _ site _ _ _ hr ho hargs ha, path, k, hown, htrail => by
    intro s hs
    have ht : g.HasType (.operator site) _ := .operator hr ho hargs ha
    obtain ⟨k, rfl⟩ := htrail.exists_succ
    rw [outcome_resolveWithin rfl (htrail.fresh w hown ht)]
    exact operatorType_found (keeps_resolveWithin w k _)
      (HasType.found w hr trivial (htrail.push w hown ht .operand)) ho hargs
      (HasType.found w ha trivial (htrail.push w hown ht (.argument hargs))) hs
  | @HasType.method _ site n _ htarget hn, path, k, hown, htrail => by
    intro s hs
    have ht : g.HasType (.send site) t := .method htarget hn
    obtain ⟨k, rfl⟩ := htrail.exists_succ
    rw [outcome_resolveWithin rfl (htrail.fresh w hown ht)]
    have hfound := HasTarget.found w htarget hown (htrail.push w hown ht .receiver) s hs
    have hkeep := keeps_target w (keeps_resolveWithin w k (nodeOf (.send site) :: path)) hown hs
    dsimp only
    rw [outcome_bind_ok (Prod.ext hfound rfl)]
    exact HasType.found w hn trivial (htrail.push w hown ht (.method htarget)) _ hkeep.sound
  | @HasType.primitive _ site site' _ htarget ho, path, k, hown, htrail => by
    intro s hs
    have ht : g.HasType (.send site) t := .primitive htarget ho
    obtain ⟨k, rfl⟩ := htrail.exists_succ
    rw [outcome_resolveWithin rfl (htrail.fresh w hown ht)]
    have hfound := HasTarget.found w htarget hown (htrail.push w hown ht .receiver) s hs
    have hkeep := keeps_target w (keeps_resolveWithin w k (nodeOf (.send site) :: path)) hown hs
    have hown' : Owned g (.operator site') := by
      rw [site_of_hasTarget w hown htarget]
      exact .inl hown
    dsimp only
    rw [outcome_bind_ok (Prod.ext hfound rfl)]
    exact HasType.found w ho hown' (htrail.push w hown ht (.primitive htarget)) _ hkeep.sound
  | @HasType.object _ site _ htarget, path, k, hown, htrail => by
    intro s hs
    have ht : g.HasType (.send site) _ := .object htarget
    obtain ⟨k, rfl⟩ := htrail.exists_succ
    rw [outcome_resolveWithin rfl (htrail.fresh w hown ht)]
    have hfound := HasTarget.found w htarget hown (htrail.push w hown ht .receiver) s hs
    dsimp only
    rw [outcome_bind_ok (Prod.ext hfound rfl), outcome_pure]

/-- **What has a target is dispatched to it.** -/
theorem HasTarget.found (w : g.Wired) {site : CallSite} {found : Target} :
    g.HasTarget site found → ∀ {path : List PathNode} {k : Nat},
      .send site ∈ (g.record site.call).dependencies → Trail g path k (.record site.receiver) →
      ∀ s, s.Sound g → (outcome (target g (resolveWithin g k path) site) s).1 = .ok found
  | .dispatched hr right hcov hd, path, k, hsite, htrail => by
    intro s hs
    exact target_found (keeps_resolveWithin w k path) hsite hr
      (HasType.found w hr trivial htrail) (.dispatched hr right hcov hd) hs

end

end Inference

end Rubylet
