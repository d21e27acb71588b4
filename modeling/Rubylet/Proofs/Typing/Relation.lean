import Mathlib.Logic.Relation
import Rubylet.Inference

/-!
# The typing relation of a graph

`Graph.HasType g d t` says, without any search, that a dependency has a type: it is the least
relation in which

* a record has the type it was given;
* a record without one has the type that all its dependencies have, if it has any;
* an operator has the type of its result, if its receiver and its one argument have the types that
  the table of operators asks for;
* a call has the type of its target.

`Graph.HasTarget` says what the target of a call is: what `Graph.dispatch` picks for the type of the
receiver. To find the class that `new` instantiates, `dispatch` follows edges and targets. It is
asked with a table of targets that is right, and that has a target for every call on the way
(`Graph.Covers`); which table that is makes no difference (`dispatch_eq`).

* `HasType.unique`, `HasTarget.unique`: types and targets are unique.
* `HasType.accessible`: nothing that has a type depends on itself.
-/

namespace Rubylet.Graph

variable (g : Graph)

/-! ### Following class values -/

/-- The records whose class names `Graph.className` looks for when it is asked for one record. -/
inductive Stands (targets : Table Nat Target) (start : Nat) : Nat → Prop
  | start : Stands targets start start
  | follow {n m : Nat} {d : Dependency} : Stands targets start n → g.classNamed? n = none →
      d ∈ (g.record n).dependencies → m ∈ leadsTo targets d → Stands targets start m

/-- Every call on the way of a search for class names has a target. -/
def Covers (targets : Table Nat Target) (start : Nat) : Prop :=
  ∀ n, g.Stands targets start n → g.classNamed? n = none →
    ∀ site, .send site ∈ (g.record n).dependencies → (targets.get? site.call).isSome

/-! ### Types and targets -/

mutual

/-- A dependency has a type. -/
inductive HasType : Dependency → Ty → Prop
  | given {n : Nat} {t : Ty} : (g.record n).given? = some t → HasType (.record n) t
  | agreed {n : Nat} {t : Ty} : (g.record n).given? = none → (g.record n).dependencies ≠ [] →
      (∀ d ∈ (g.record n).dependencies, HasType d t) → HasType (.record n) t
  | operator {site : CallSite} {receiver : Ty} {o : Operator} {arg : Nat} :
      HasType (.record site.receiver) receiver →
      ((g.record site.call).instruction.op.name?.bind (Operator.find? receiver)) = some o →
      site.args = [arg] → HasType (.record arg) o.argType →
      HasType (.operator site) o.resultType
  | method {site : CallSite} {n : Nat} {t : Ty} : HasTarget site (.method n) →
      HasType (.record n) t → HasType (.send site) t
  | primitive {site site' : CallSite} {t : Ty} : HasTarget site (.operator site') →
      HasType (.operator site') t → HasType (.send site) t
  | object {site : CallSite} {className : String} : HasTarget site (.object className) →
      HasType (.send site) (.object className)

/-- A call has a target. -/
inductive HasTarget : CallSite → Target → Prop
  | dispatched {site : CallSite} {receiver : Ty} {targets : Table Nat Target} {found : Target} :
      HasType (.record site.receiver) receiver →
      (∀ n other t, .send other ∈ (g.record n).dependencies →
        targets.get? other.call = some t → HasTarget other t) →
      g.Covers targets site.receiver →
      g.dispatch targets receiver site.call site.receiver = .ok found →
      HasTarget site found

end

variable {g} {d : Dependency} {t t' : Ty} {site : CallSite} {n : Nat}

/-! ### Searches that agree -/

/-- Two tables that lead the same way from every record on a search find the same names. -/
theorem collectClasses_congr {targets others : Table Nat Target} {start : Nat}
    (h : ∀ n, g.Stands targets start n → g.classNamed? n = none →
      ∀ d ∈ (g.record n).dependencies, leadsTo targets d = leadsTo others d) :
    ∀ (steps : Nat) (work seen : List Nat) (names : List String),
      (∀ n ∈ work, g.Stands targets start n) →
      g.collectClasses targets steps work seen names =
        g.collectClasses others steps work seen names := by
  intro steps
  induction steps with
  | zero => intro work seen names _; rfl
  | succ steps ih =>
    intro work seen names hwork
    cases work with
    | nil => rfl
    | cons n work =>
      have hrest : ∀ m ∈ work, g.Stands targets start m := fun m hm => hwork m (.tail _ hm)
      have hn : g.Stands targets start n := hwork n (.head _)
      rw [collectClasses, collectClasses]
      cases hc : g.classNamed? n with
      | some name => exact ih _ _ _ hrest
      | none =>
        -- What is put on the list is led to from a record on it, so the search stays where both
        -- agree.
        by_cases hseen : seen.contains n
        · simp only [hseen, if_true]
          exact ih _ _ _ hrest
        · have hflat : (g.record n).dependencies.flatMap (leadsTo targets) =
              (g.record n).dependencies.flatMap (leadsTo others) := by
            rw [List.flatMap_def, List.flatMap_def, List.map_congr_left (h n hn hc)]
          simp only [hseen, Bool.false_eq_true, if_false, ← hflat]
          refine ih _ _ _ fun m hm => ?_
          rcases List.mem_append.mp hm with hm | hm
          · obtain ⟨d, hd, hm⟩ := List.mem_flatMap.mp hm
            exact .follow hn hc hd hm
          · exact hrest m hm

/-- Two tables that cover a search, and agree wherever both have a target, find the same class. -/
theorem className_congr {targets others : Table Nat Target} {start : Nat}
    (hcov : g.Covers targets start) (hcov' : g.Covers others start)
    (agree : ∀ n site found found', .send site ∈ (g.record n).dependencies →
      targets.get? site.call = some found → others.get? site.call = some found' →
      found = found') :
    g.className targets start = g.className others start := by
  have lead : ∀ n, g.Stands targets start n → g.Stands others start n →
      g.classNamed? n = none → ∀ d ∈ (g.record n).dependencies,
      leadsTo targets d = leadsTo others d := by
    intro n hn hn' hc d hd
    cases d with
    | record m => rfl
    | operator site => rfl
    | send site =>
      obtain ⟨found, hf⟩ := Option.isSome_iff_exists.mp (hcov n hn hc site hd)
      obtain ⟨found', hf'⟩ := Option.isSome_iff_exists.mp (hcov' n hn' hc site hd)
      obtain rfl := agree n site found found' hd hf hf'
      simp only [leadsTo, hf, hf']
  -- Hence the two searches see the same records.
  have both : ∀ n, g.Stands targets start n → g.Stands others start n := by
    intro n hn
    induction hn with
    | start => exact .start
    | follow hn hc hd hm ih => exact .follow ih hc hd (lead _ hn ih hc _ hd ▸ hm)
  have names : g.classNames targets start = g.classNames others start := by
    unfold classNames
    rw [collectClasses_congr (fun n hn hc => lead n hn (both n hn) hc)]
    rintro n hn
    obtain rfl := List.mem_singleton.mp hn
    exact .start
  unfold className
  rw [names]

/-- **Which right table `dispatch` is asked with makes no difference.** -/
theorem dispatch_eq {targets others : Table Nat Target} {receiver : Ty} {call start : Nat}
    (hcov : g.Covers targets start) (hcov' : g.Covers others start)
    (agree : ∀ n site found found', .send site ∈ (g.record n).dependencies →
      targets.get? site.call = some found → others.get? site.call = some found' →
      found = found') :
    g.dispatch targets receiver call start = g.dispatch others receiver call start := by
  unfold dispatch
  simp only [className_congr hcov hcov' agree]

/-- What `dispatch` picks, by the choice of the index. -/
theorem dispatch_cases {targets : Table Nat Target} {receiver : Ty} {call start : Nat}
    {found : Target} (h : g.dispatch targets receiver call start = .ok found) :
    ∃ choice, g.index.choose receiver (g.record call).instruction (g.callInfo call) = .ok choice ∧
      match choice with
      | .method n => found = .method n
      | .operator => found = .operator ⟨start, call, (g.callInfo call).args⟩
      | .instantiate => ∃ name, g.className targets start = .ok name ∧ found = .object name := by
  unfold dispatch at h
  obtain ⟨choice, hc, h⟩ := exists_of_bind_eq_ok h
  refine ⟨choice, hc, ?_⟩
  -- A method and an operator are targets as they are; an object takes its class from the names.
  cases choice with
  | method n => exact (Except.ok.inj h).symm
  | operator => exact (Except.ok.inj h).symm
  | instantiate =>
    obtain ⟨name, hname, h⟩ := exists_of_bind_eq_ok h
    exact ⟨name, hname, (Except.ok.inj h).symm⟩

/-! ### Types and targets are unique -/

mutual

/-- A node has one type at most. -/
theorem HasType.unique {d : Dependency} {t t' : Ty} :
    g.HasType d t → g.HasType d t' → t = t'
  -- A call has one target, so it is typed in one way only.
  | .given h, .given h' => Option.some.inj (h.symm.trans h')
  | .given h, .agreed h' _ _ => by rw [h] at h'; cases h'
  | .agreed h _ _, .given h' => by rw [h] at h'; cases h'
  | .agreed _ hne h, .agreed _ _ h' => by
    obtain ⟨d, hd⟩ := List.exists_mem_of_ne_nil _ hne
    exact HasType.unique (h d hd) (h' d hd)
  | .operator hr ho _ _, .operator hr' ho' _ _ => by
    obtain rfl := HasType.unique hr hr'
    obtain rfl := Option.some.inj (ho.symm.trans ho')
    rfl
  | .method ht h, .method ht' h' => by
    obtain rfl := Target.method.inj (HasTarget.unique ht ht')
    exact HasType.unique h h'
  | .method ht _, .primitive ht' _ => nomatch HasTarget.unique ht ht'
  | .method ht _, .object ht' => nomatch HasTarget.unique ht ht'
  | .primitive ht _, .method ht' _ => nomatch HasTarget.unique ht ht'
  | .primitive ht h, .primitive ht' h' => by
    obtain rfl := Target.operator.inj (HasTarget.unique ht ht')
    exact HasType.unique h h'
  | .primitive ht _, .object ht' => nomatch HasTarget.unique ht ht'
  | .object ht, .method ht' _ => nomatch HasTarget.unique ht ht'
  | .object ht, .primitive ht' _ => nomatch HasTarget.unique ht ht'
  | .object ht, .object ht' => by
    obtain rfl := Target.object.inj (HasTarget.unique ht ht')
    rfl

/-- A call has one target at most. -/
theorem HasTarget.unique {site : CallSite} {found found' : Target} :
    g.HasTarget site found → g.HasTarget site found' → found = found'
  | .dispatched hr right hcov hd, .dispatched hr' right' hcov' hd' => by
    obtain rfl := HasType.unique hr hr'
    have agree : ∀ n other t t', .send other ∈ (g.record n).dependencies → _ → _ → t = t' :=
      fun n other t t' hm ht ht' => HasTarget.unique (right n other t hm ht) (right' n other t' hm ht')
    rw [dispatch_eq hcov hcov' agree, hd'] at hd
    exact (Except.ok.inj hd).symm

end

/-! ### Nothing that has a type depends on itself -/

variable (g) in
/-- What the type of a dependency is taken from. -/
inductive DependsOn : Dependency → Dependency → Prop
  | edge {n : Nat} {d : Dependency} : (g.record n).given? = none →
      d ∈ (g.record n).dependencies → DependsOn (.record n) d
  | operand {site : CallSite} : DependsOn (.operator site) (.record site.receiver)
  | argument {site : CallSite} {arg : Nat} : site.args = [arg] →
      DependsOn (.operator site) (.record arg)
  | receiver {site : CallSite} : DependsOn (.send site) (.record site.receiver)
  | method {site : CallSite} {n : Nat} : g.HasTarget site (.method n) →
      DependsOn (.send site) (.record n)
  | primitive {site site' : CallSite} : g.HasTarget site (.operator site') →
      DependsOn (.send site) (.operator site')

mutual

/-- What has a type depends on nothing without end. -/
theorem HasType.accessible {d : Dependency} {t : Ty} :
    g.HasType d t → Acc (fun a b => g.DependsOn b a) d
  -- Every dependency of what has a type is a premise of that typing, or has a target that is
  -- unique.
  | .given h => .intro _ fun _ hd => by
    cases hd with
    | edge h' _ => rw [h] at h'; cases h'
  | .agreed _ _ h => .intro _ fun d hd => by
    cases hd with
    | edge _ hd => exact HasType.accessible (h d hd)
  | .operator hr _ ha harg => .intro _ fun d hd => by
    cases hd with
    | operand => exact HasType.accessible hr
    | argument ha' =>
      obtain rfl := List.cons.inj (ha.symm.trans ha') |>.1
      exact HasType.accessible harg
  | .method ht h => .intro _ fun d hd => by
    cases hd with
    | receiver => exact HasTarget.accessible ht
    | method ht' =>
      obtain rfl := Target.method.inj (ht.unique ht')
      exact HasType.accessible h
    | primitive ht' => exact nomatch ht.unique ht'
  | .primitive ht h => .intro _ fun d hd => by
    cases hd with
    | receiver => exact HasTarget.accessible ht
    | method ht' => exact nomatch ht.unique ht'
    | primitive ht' =>
      obtain rfl := Target.operator.inj (ht.unique ht')
      exact HasType.accessible h
  | .object ht => .intro _ fun d hd => by
    cases hd with
    | receiver => exact HasTarget.accessible ht
    | method ht' => exact nomatch ht.unique ht'
    | primitive ht' => exact nomatch ht.unique ht'

theorem HasTarget.accessible {site : CallSite} {found : Target} :
    g.HasTarget site found → Acc (fun a b => g.DependsOn b a) (.record site.receiver)
  | .dispatched hr _ _ _ => HasType.accessible hr

end

/-- **Nothing that has a type depends on itself**, not even through others. -/
theorem HasType.not_transGen {d : Dependency} {t : Ty} (h : g.HasType d t) :
    ¬ Relation.TransGen g.DependsOn d d := by
  have hacc : Acc (Relation.TransGen fun a b => g.DependsOn b a) d := h.accessible.transGen
  clear h
  induction hacc with
  | intro d _ ih => exact fun hd => ih d (Relation.transGen_swap.mp hd) hd

/-! ### What has a type depends only on what has one -/

/-- A call with a target has a receiver with a type. -/
theorem HasTarget.receiver_typed {site : CallSite} {found : Target} :
    g.HasTarget site found → ∃ u, g.HasType (.record site.receiver) u
  | .dispatched hr _ _ _ => ⟨_, hr⟩

/-- What a typed node depends on is typed. -/
theorem HasType.of_dependsOn {d d' : Dependency} {t : Ty} (h : g.HasType d t)
    (hd : g.DependsOn d d') : ∃ u, g.HasType d' u := by
  -- By the dependency: each is a premise of the typing, or belongs to the one target the call has.
  cases hd with
  | edge hgiven hmem =>
    cases h with
    | given h' => rw [hgiven] at h'; cases h'
    | agreed _ _ hall => exact ⟨t, hall _ hmem⟩
  | operand =>
    cases h with
    | operator hr _ _ _ => exact ⟨_, hr⟩
  | argument hargs =>
    cases h with
    | operator _ _ hargs' harg =>
      obtain rfl := (List.cons.inj (hargs.symm.trans hargs')).1
      exact ⟨_, harg⟩
  | receiver =>
    cases h with
    | method ht _ => exact ht.receiver_typed
    | primitive ht _ => exact ht.receiver_typed
    | object ht => exact ht.receiver_typed
  | method ht =>
    cases h with
    | method ht' hn =>
      obtain rfl := Target.method.inj (ht.unique ht')
      exact ⟨t, hn⟩
    | primitive ht' _ => exact nomatch ht.unique ht'
    | object ht' => exact nomatch ht.unique ht'
  | primitive ht =>
    cases h with
    | method ht' _ => exact nomatch ht.unique ht'
    | primitive ht' ho =>
      obtain rfl := Target.operator.inj (ht.unique ht')
      exact ⟨t, ho⟩
    | object ht' => exact nomatch ht.unique ht'

theorem HasType.of_transGen {d d' : Dependency} {t : Ty} (h : g.HasType d t)
    (hd : Relation.TransGen g.DependsOn d d') : ∃ u, g.HasType d' u := by
  induction hd with
  | single hd => exact h.of_dependsOn hd
  | tail _ hd ih =>
    obtain ⟨u, hu⟩ := ih
    exact hu.of_dependsOn hd

end Rubylet.Graph
