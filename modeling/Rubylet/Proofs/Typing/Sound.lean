import Rubylet.Proofs.Graph.Edges
import Rubylet.Proofs.Typing.Relation

/-!
# Inference finds only types that can be derived

A finding takes a store to a later one, whether it fails or not. `Store.Sound g s` is the invariant
of the stores: whatever is written down is derivable, and a record that inference typed has all
its dependencies written down too (`Settled`). The second half is what makes the search for class
names right: when `new` is sent to a record that has a type, every call on the way of the search
already has its target (`Sound.covers`).

* `sound_ofGraph`: the store without any findings is sound.
* `keeps_resolveWithin`: finding the type of a dependency keeps a store sound, loses nothing, and
  answers a type that can be derived.
-/

namespace Rubylet

open Rubylet.Graph

variable {g : Graph} {s s' : Store} {d : Dependency} {n : Nat} {t : Ty} {α β : Type}

/-! ### Sound stores -/

namespace Store

/-- All that the type of a dependency is found through is written down. -/
def Settled (s : Store) : Dependency → Prop
  | .record n => (s.type? n).isSome
  | .operator _ => True
  | .send site => ∃ found, s.targets.get? site.call = some found ∧
      ∀ n, found = .method n → (s.type? n).isSome

/-- A later store knows what an earlier one knows. -/
structure Grows (s s' : Store) : Prop where
  types : ∀ {n t}, s.type? n = some t → s'.type? n = some t
  targets : ∀ {call found}, s.targets.get? call = some found → s'.targets.get? call = some found

theorem Grows.refl (s : Store) : s.Grows s := ⟨id, id⟩

theorem Grows.trans {s'' : Store} (h : s.Grows s') (h' : s'.Grows s'') : s.Grows s'' :=
  ⟨fun ht => h'.types (h.types ht), fun ht => h'.targets (h.targets ht)⟩

/-- What is settled stays settled. -/
theorem Settled.grow (h : s.Settled d) (hg : s.Grows s') : s'.Settled d := by
  have typed : ∀ n, (s.type? n).isSome → (s'.type? n).isSome := by
    intro n hn
    obtain ⟨t, ht⟩ := Option.isSome_iff_exists.mp hn
    rw [hg.types ht]
    rfl
  -- By node: a record keeps its type, and a call its target.
  cases d with
  | record n => exact typed n h
  | operator site => trivial
  | send site =>
    obtain ⟨found, hf, hm⟩ := h
    exact ⟨found, hg.targets hf, fun n hn => typed n (hm n hn)⟩

variable (g) in
/-- The invariant of the stores that inference goes through. -/
structure Sound (s : Store) : Prop where
  size : s.types.size = g.records.size
  given : ∀ {n t}, (g.record n).given? = some t → s.type? n = some t
  typed : ∀ {n t}, s.type? n = some t → g.HasType (.record n) t
  targeted : ∀ {n site found}, .send site ∈ (g.record n).dependencies →
    s.targets.get? site.call = some found → g.HasTarget site found
  settled : ∀ {n}, (s.type? n).isSome → ∀ d ∈ (g.record n).dependencies, s.Settled d

/-- **A record with a type has all targets on the way to its class.** -/
theorem Sound.covers (h : s.Sound g) (hn : (s.type? n).isSome) : g.Covers s.targets n := by
  -- The search never leaves the records that have a type.
  have typed : ∀ m, g.Stands s.targets n m → (s.type? m).isSome := by
    intro m hm
    induction hm with
    | start => exact hn
    | @follow k m d _ _ hd hm ih =>
      have hset := h.settled ih d hd
      cases d with
      | record _ =>
        obtain rfl := List.mem_singleton.mp hm
        exact hset
      | operator _ => cases hm
      | send site =>
        obtain ⟨found, hf, hfound⟩ := hset
        simp only [leadsTo, hf] at hm
        cases found with
        | method k =>
          obtain rfl := List.mem_singleton.mp hm
          exact hfound _ rfl
        | operator _ => cases hm
        | object _ => cases hm
  intro m hm _ site hsite
  obtain ⟨found, hf, -⟩ := h.settled (typed m hm) _ hsite
  rw [hf]
  rfl

theorem type?_ofGraph (g : Graph) (n : Nat) : (ofGraph g).type? n = (g.record n).given? := by
  simp only [type?, ofGraph, record, Array.getElem?_map, Array.getD_eq_getD_getElem?]
  cases g.records[n]? <;> rfl

/-- **Nothing that the first store knows is wrong.** -/
theorem sound_ofGraph (w : g.Wired) : (ofGraph g).Sound g := by
  refine ⟨Array.size_map, ?_, ?_, ?_, ?_⟩
  · intro n t ht
    rw [type?_ofGraph, ht]
  · intro n t ht
    rw [type?_ofGraph] at ht
    exact .given ht
  · intro n site found _ hf
    cases hf
  -- At the start only the literals and the like are typed, and they have no dependencies.
  · intro n hn d hd
    rw [type?_ofGraph] at hn
    obtain ⟨t, ht⟩ := Option.isSome_iff_exists.mp hn
    rw [w.leaf ht] at hd
    cases hd

/-! ### Writing something down -/

theorem type?_setType (h : n < s.types.size) (t : Ty) (m : Nat) :
    (s.setType n t).type? m = if n = m then some t else s.type? m := by
  simp only [type?, setType, Array.getElem?_setIfInBounds]
  split
  · next heq => subst heq; simp
  · rfl

/-- Only a record of the graph has a type. -/
theorem lt_size_of_hasType (h : g.HasType (.record n) t) : n < g.records.size := by
  refine Decidable.byContradiction fun hn => ?_
  have hdefault : g.record n = default := record_eq_default (Nat.le_of_not_lt hn)
  cases h with
  | given hg => rw [hdefault] at hg; cases hg
  | agreed _ hne _ => exact hne (by rw [hdefault]; rfl)

/-- A record is given a type. It may have got it in between, but then it is the same one. -/
theorem Sound.setType (h : s.Sound g) (ht : g.HasType (.record n) t)
    (hset : ∀ d ∈ (g.record n).dependencies, s.Settled d) :
    (s.setType n t).Sound g ∧ s.Grows (s.setType n t) := by
  have hn : n < s.types.size := by
    rw [h.size]
    exact lt_size_of_hasType ht
  -- Types are unique, so whatever the record had before it keeps.
  have hgrow : s.Grows (s.setType n t) := by
    refine ⟨fun {m u} hm => ?_, id⟩
    rw [type?_setType hn]
    split
    · next heq =>
      subst heq
      rw [ht.unique (h.typed hm)]
    · exact hm
  refine ⟨⟨?_, ?_, ?_, ?_, ?_⟩, hgrow⟩
  · exact Array.size_setIfInBounds.trans h.size
  · exact fun hg => hgrow.types (h.given hg)
  · intro m u hm
    rw [type?_setType hn] at hm
    split at hm
    · next heq =>
      subst heq
      obtain rfl := Option.some.inj hm
      exact ht
    · exact h.typed hm
  · exact h.targeted
  · intro m hm d hd
    rw [type?_setType hn] at hm
    split at hm
    · next heq =>
      subst heq
      exact (hset d hd).grow hgrow
    · exact (h.settled hm d hd).grow hgrow

/-- A call is given its target. It may have got it in between, but then it is the same one. -/
theorem Sound.setTarget (w : g.Wired) (h : s.Sound g) {site : CallSite} {found : Target}
    (hsite : .send site ∈ (g.record n).dependencies) (hf : g.HasTarget site found) :
    (s.setTarget site.call found).Sound g ∧ s.Grows (s.setTarget site.call found) := by
  have hget : ∀ call, (s.setTarget site.call found).targets.get? call =
      if site.call = call then some found else s.targets.get? call :=
    fun call => Table.get?_set _ _ _ _
  have hgrow : s.Grows (s.setTarget site.call found) := by
    refine ⟨id, fun {call other} ho => ?_⟩
    rw [hget]
    split
    · next heq =>
      subst heq
      rw [hf.unique (h.targeted hsite ho)]
    · exact ho
  refine ⟨⟨h.size, h.given, h.typed, ?_, ?_⟩, hgrow⟩
  · intro m site' other hm ho
    rw [hget] at ho
    split at ho
    · next heq =>
      -- A site belongs to one call, so it is the same site that gets the target.
      have hnm : n = m := by
        rw [← w.site_call (.inl hsite), ← w.site_call (.inl hm), heq]
      subst hnm
      obtain rfl := w.site_unique (.inl hsite) (.inl hm)
      obtain rfl := Option.some.inj ho
      exact hf
    · exact h.targeted hm ho
  · exact fun hm d hd => (h.settled hm d hd).grow hgrow

end Store

/-! ### What findings keep -/

namespace Inference

/-- What a finding answers from a store, and the store it leaves. -/
def outcome (x : Finding α) (s : Store) : Except CompileError α × Store := x.run.run s

variable {x : Finding α} {f : α → Finding β} {P : α → Store → Prop} {Q : β → Store → Prop}

theorem outcome_pure (a : α) (s : Store) : outcome (pure a) s = (.ok a, s) := rfl

theorem outcome_get_bind (f : Store → Finding β) (s : Store) :
    outcome (get >>= f) s = outcome (f s) s := rfl

/-- A search that succeeds hands its store to the next. -/
theorem outcome_bind_ok {a : α} (h : outcome x s = (.ok a, s')) :
    outcome (x >>= f) s = outcome (f a) s' := by
  change (ExceptT.bindCont f (outcome x s).1).run (outcome x s).2 = _
  rw [h]
  rfl

/-- A search that fails is not followed by another. -/
theorem outcome_bind_error {e : CompileError} (h : outcome x s = (.error e, s')) :
    outcome (x >>= f) s = (.error e, s') := by
  change (ExceptT.bindCont f (outcome x s).1).run (outcome x s).2 = _
  rw [h]
  rfl

variable (g) in
/-- A finding keeps a store sound and loses nothing, and what it answers has a property. -/
structure Keeps (s : Store) (x : Finding α) (P : α → Store → Prop) : Prop where
  sound : (outcome x s).2.Sound g
  grows : s.Grows (outcome x s).2
  post : ∀ a, (outcome x s).1 = .ok a → P a (outcome x s).2

theorem Keeps.pure {a : α} (hs : s.Sound g) (h : P a s) : Keeps g s (Pure.pure a) P :=
  ⟨hs, .refl s, fun _ ha => Except.ok.inj ha ▸ h⟩

theorem Keeps.throw {e : CompileError} (hs : s.Sound g) : Keeps g s (MonadExcept.throw e) P :=
  ⟨hs, .refl s, fun _ ha => nomatch ha⟩

/-- Searches that keep the store sound keep it sound in turn. -/
theorem Keeps.bind (hx : Keeps g s x P)
    (hf : ∀ a s', s'.Sound g → s.Grows s' → P a s' → Keeps g s' (f a) Q) :
    Keeps g s (x >>= f) Q := by
  obtain ⟨hsound, hgrows, hpost⟩ := hx
  cases hr : outcome x s with
  | mk r s' =>
    simp only [hr] at hsound hgrows hpost
    cases r with
    -- After a failure the store is the one that the first part left.
    | error e =>
      have heq := outcome_bind_error (f := f) hr
      refine ⟨by rw [heq]; exact hsound, by rw [heq]; exact hgrows, fun b hb => ?_⟩
      rw [heq] at hb
      cases hb
    | ok a =>
      have heq := outcome_bind_ok (f := f) hr
      obtain ⟨hsound', hgrows', hpost'⟩ := hf a s' hsound hgrows (hpost a rfl)
      exact ⟨by rw [heq]; exact hsound', by rw [heq]; exact hgrows.trans hgrows',
        by rw [heq]; exact hpost'⟩

theorem Keeps.get_bind {f : Store → Finding β} (h : Keeps g s (f s) Q) :
    Keeps g s (get >>= f) Q := ⟨h.sound, h.grows, h.post⟩

theorem Keeps.modify_bind {u : Store → Store} {f : Unit → Finding β} (hu : s.Grows (u s))
    (h : Keeps g (u s) (f ()) Q) : Keeps g s (modify u >>= f) Q :=
  ⟨h.sound, hu.trans h.grows, h.post⟩

theorem Keeps.lift_bind {r : Except CompileError α} (hs : s.Sound g)
    (h : ∀ a, r = .ok a → Keeps g s (f a) Q) : Keeps g s ((liftM r : Finding α) >>= f) Q := by
  cases r with
  | error e => exact ⟨hs, .refl s, fun _ ha => nomatch ha⟩
  | ok a => exact ⟨(h a rfl).sound, (h a rfl).grows, (h a rfl).post⟩

/-! ### Searching -/

variable (g) in
/-- A dependency that a graph has, of a record or of a call. -/
def Owned : Dependency → Prop
  | .record _ => True
  | .operator site => g.IsSite site.call site
  | .send site => .send site ∈ (g.record site.call).dependencies

/-- The edges of a graph lead to dependencies that it has. -/
theorem owned_of_mem (w : g.Wired) (hd : d ∈ (g.record n).dependencies) : Owned g d := by
  cases d with
  | record _ => trivial
  | operator site =>
    have h : g.IsSite n site := .inr hd
    rwa [← w.site_call h] at h
  | send site =>
    have h := w.site_call (.inl hd)
    rw [← h] at hd
    exact hd

variable (g) in
/-- What is asked for the types of others: it keeps sound stores, and answers derivable types of
dependencies that it has settled. -/
def Finds (typeOf : Dependency → Finding Ty) : Prop :=
  ∀ d s, Owned g d → s.Sound g →
    Keeps g s (typeOf d) fun t s' => g.HasType d t ∧ s'.Settled d

variable {typeOf : Dependency → Finding Ty}

/-- The types that dependencies may have are the ones they can be derived to have. -/
theorem keeps_possibleTypes (ht : Finds g typeOf) :
    ∀ (ds : List Dependency) (found : List Possible) (s : Store), (∀ d ∈ ds, Owned g d) →
      s.Sound g → Keeps g s (possibleTypes typeOf found ds) fun ps s' =>
        (∀ p ∈ found, p ∈ ps) ∧
        (∀ d ∈ ds, s'.Settled d ∧ ∃ p ∈ ps, g.HasType d p.type) ∧
        (ds = [] → ps = found) := by
  intro ds
  induction ds with
  | nil =>
    intro found s _ hs
    exact .pure hs ⟨fun _ hp => hp, nofun, fun _ => rfl⟩
  | cons d rest ih =>
    intro found s hown hs
    rw [possibleTypes]
    refine (ht d s (hown d (.head _)) hs).bind fun t s₁ hs₁ _ ⟨htype, hset⟩ => ?_
    have htail := ih (if found.any fun p => p.type = t then found else found ++ [⟨d, t⟩]) s₁
      (fun d hd => hown d (.tail _ hd)) hs₁
    refine ⟨htail.sound, htail.grows, fun ps hps => ?_⟩
    obtain ⟨hfound, hrest, -⟩ := htail.post ps hps
    refine ⟨fun p hp => hfound p ?_, ?_, nofun⟩
    · split
      · exact hp
      · exact List.mem_append_left _ hp
    · intro d' hd'
      rcases List.mem_cons.mp hd' with rfl | hd'
      · refine ⟨hset.grow htail.grows, ?_⟩
        split at hfound
        -- A type that another dependency has too is listed once.
        · next hany =>
          obtain ⟨p, hp, heq⟩ := List.any_eq_true.mp hany
          exact ⟨p, hfound p hp, of_decide_eq_true heq ▸ htype⟩
        · exact ⟨_, hfound _ (List.mem_append_right _ (.head _)), htype⟩
      · exact hrest d' hd'

/-- The search for the type of an operator keeps the store sound, and what it finds is derivable. -/
theorem keeps_operatorType (ht : Finds g typeOf) {site : CallSite} (hs : s.Sound g) :
    Keeps g s (operatorType g typeOf site) fun t s' =>
      g.HasType (.operator site) t ∧ s'.Settled (.operator site) := by
  unfold operatorType
  refine (ht (.record site.receiver) s trivial hs).bind fun r s₁ hs₁ _ ⟨hr, _⟩ => ?_
  dsimp only
  split
  · exact .throw hs₁
  · next o ho =>
    split
    · next arg harg =>
      refine (ht (.record arg) s₁ trivial hs₁).bind fun a s₂ hs₂ _ ⟨ha, _⟩ => ?_
      split
      · next heq =>
        -- The argument has the type that the operator takes.
        subst heq
        exact .pure hs₂ ⟨.operator hr ho harg ha, trivial⟩
      · exact .throw hs₂
    · exact .throw hs₁

/-- The search for a target keeps the store sound, and what it finds is derivable. -/
theorem keeps_target (w : g.Wired) (ht : Finds g typeOf) {site : CallSite}
    (hsite : .send site ∈ (g.record site.call).dependencies) (hs : s.Sound g) :
    Keeps g s (target g typeOf site) fun found s' =>
      g.HasTarget site found ∧ s'.targets.get? site.call = some found := by
  unfold target
  refine .get_bind ?_
  split
  · next found hf => exact .pure hs ⟨hs.targeted hsite hf, hf⟩
  · refine (ht (.record site.receiver) s trivial hs).bind fun r s₁ hs₁ _ hp => ?_
    obtain ⟨hr, hset⟩ := hp
    refine .get_bind (.lift_bind hs₁ fun found hd => ?_)
    -- The receiver has a type now, so every call on the way to its class has a target.
    have hfound : g.HasTarget site found :=
      .dispatched hr (fun _ _ _ hm ho => hs₁.targeted hm ho) (hs₁.covers hset) hd
    obtain ⟨hs₂, hgrow⟩ := hs₁.setTarget w hsite hfound
    refine Keeps.modify_bind (u := (·.setTarget site.call found)) hgrow (.pure hs₂ ?_)
    exact ⟨hfound, Table.get?_set_self _ _ _⟩

/-- What a primitive operator of a call's target depends on is the call's own site. -/
theorem site_of_hasTarget (w : g.Wired) {site site' : CallSite}
    (hsite : .send site ∈ (g.record site.call).dependencies)
    (h : g.HasTarget site (.operator site')) : site' = site := by
  obtain ⟨-, -, -, hd⟩ := h
  obtain ⟨choice, -, hfound⟩ := dispatch_cases hd
  -- An operator is the target of the call it was dispatched from.
  cases choice with
  | method n => cases hfound
  | operator =>
    rw [Target.operator.inj hfound, ← w.site_args (.inl hsite)]
  | instantiate =>
    obtain ⟨name, -, hname⟩ := hfound
    cases hname

/-- **A search keeps a store sound and answers only types that can be derived.** -/
theorem keeps_resolveWithin (w : g.Wired) :
    ∀ (steps : Nat) (path : List PathNode), Finds g (resolveWithin g steps path) := by
  intro steps
  induction steps with
  | zero => exact fun path d s _ hs => .throw hs
  | succ steps ih =>
    intro path d s hown hs
    rw [resolveWithin]
    refine .get_bind ?_
    split
    · next t hk =>
      cases d with
      | record n => exact .pure hs ⟨hs.typed hk, Option.isSome_of_eq_some hk⟩
      | operator _ => cases hk
      | send _ => cases hk
    · next hk =>
      split
      · exact .throw hs
      -- All that is asked for from here has the node on its path, and one step less.
      · have hfinds := ih (nodeOf d :: path)
        cases d with
        | record n =>
          have howned : ∀ d ∈ (g.record n).dependencies, Owned g d := fun d hd => owned_of_mem w hd
          refine (keeps_possibleTypes hfinds _ _ s howned hs).bind fun ps s₁ hs₁ hgrow hps => ?_
          obtain ⟨-, hall, hnil⟩ := hps
          split
          · next p =>
            -- One type was found, so there is something to take it from, and all agree on it.
            have hne : (g.record n).dependencies ≠ [] := fun h => List.cons_ne_nil _ _ (hnil h)
            have hgiven : (g.record n).given? = none :=
              Option.eq_none_iff_forall_ne_some.mpr fun _ hg => hne (w.leaf hg)
            have htype : g.HasType (.record n) p.type := by
              refine .agreed hgiven hne fun d hd => ?_
              obtain ⟨-, q, hq, hd⟩ := hall d hd
              obtain rfl := List.mem_singleton.mp hq
              exact hd
            obtain ⟨hs₂, hgrow₂⟩ := hs₁.setType htype fun d hd => (hall d hd).1
            refine .modify_bind hgrow₂ (.pure hs₂ ⟨htype, ?_⟩)
            rw [Store.Settled, Store.type?_setType (hs₁.size ▸ Store.lt_size_of_hasType htype),
              if_pos rfl]
            rfl
          · exact .throw hs₁
        | operator site => exact keeps_operatorType hfinds hs
        | send site =>
          refine (keeps_target w hfinds hown hs).bind fun found s₁ hs₁ _ hp => ?_
          obtain ⟨hf, hget⟩ := hp
          cases found with
          | object name =>
            exact .pure hs₁ ⟨.object hf, _, hget, fun _ h => by cases h⟩
          | method n =>
            have h := hfinds (.record n) s₁ trivial hs₁
            refine ⟨h.sound, h.grows, fun t ht => ?_⟩
            obtain ⟨hn, hset⟩ := h.post t ht
            exact ⟨.method hf hn, _, h.grows.targets hget, fun m hm => by cases hm; exact hset⟩
          | operator site' =>
            -- The operator is asked for at the site of the call itself.
            obtain rfl := site_of_hasTarget w hown hf
            have h := hfinds (.operator site') s₁ (.inl hown) hs₁
            refine ⟨h.sound, h.grows, fun t ht => ?_⟩
            exact ⟨.primitive hf (h.post t ht).1, _, h.grows.targets hget, fun _ h => by cases h⟩

end Inference

end Rubylet
