import Rubylet.Proofs.Reorder.Graphs
import Rubylet.Proofs.Typing.Exact

/-!
# Types in another order

The typing relation looks at no number and at no order of edges, so what has a type has it in the
graph of reordered statements, too (`HasType.renumber`); and inference is that relation. So it goes
through for both orders or for neither, with the same types (`Reorders.infer`).

Two things are not the same and make no difference. A constant may depend on another record that
opens the class, which is a class as well. And `new` is answered from a table of targets that the
search has filled so far; under the other numbers that table is as good.
-/

namespace Rubylet

open Direct

/-! ### Targets under other numbers -/

def Target.renumber (π : Nat → Nat) : Target → Target
  | .method n => .method (π n)
  | .operator site => .operator (site.renumber π)
  | .object className => .object className

namespace Graph

/-- The targets of calls under other numbers. -/
def renumberTargets (π : Nat → Nat) (targets : Table Nat Target) : Table Nat Target :=
  ⟨targets.entries.map fun (call, found) => (π call, found.renumber π)⟩

variable {g g' : Graph} {π : Equiv.Perm Nat} {n m start : Nat} {d : Dependency} {t : Ty}
  {site : CallSite} {found : Target} {targets : Table Nat Target}

theorem get?_renumberTargets (call : Nat) : (renumberTargets π targets).get? (π call) =
    (targets.get? call).map (Target.renumber π) := by
  obtain ⟨entries⟩ := targets
  unfold renumberTargets Table.get?
  induction entries with
  | nil => rfl
  | cons entry entries ih =>
    rw [List.map_cons, Table.find, Table.find, ih]
    simp only [π.injective.eq_iff]
    split <;> rfl

/-- A dependency leads where it goes. -/
theorem leadsTo_renumber (d : Dependency) : leadsTo (renumberTargets π targets) (d.renumber π) =
    (leadsTo targets d).map π := by
  cases d with
  | record n => rfl
  | operator site => rfl
  | send site =>
    simp only [Dependency.renumber, leadsTo, CallSite.renumber, get?_renumberTargets]
    cases targets.get? site.call with
    | none => rfl
    | some found => cases found <;> rfl

namespace Renumbers

theorem symm (r : Renumbers π g g') : Renumbers π.symm g' g where
  lt_size n := by rw [← r.lt_size, Equiv.apply_symm_apply]
  instruction n := by rw [← r.instruction, Equiv.apply_symm_apply]
  given n := by rw [← r.given, Equiv.apply_symm_apply]
  -- Every record is the image of one, so the clauses hold read backwards.
  edges n hn d := by
    obtain ⟨n, rfl⟩ := π.surjective n
    rw [r.classNamed?] at hn
    rw [Equiv.symm_apply_apply, ← r.edges n hn, Dependency.renumber_of_symm]
  classes n c hn := by
    obtain ⟨n, rfl⟩ := π.surjective n
    rw [r.classNamed?] at hn
    rw [Equiv.symm_apply_apply]
    exact (r.classes n c hn).symm
  sends n site hn := by
    obtain ⟨n, rfl⟩ := π.surjective n
    rw [Equiv.symm_apply_apply] at hn
    rw [r.classNamed?]
    exact r.sends n site hn.symm
  callInfo n := by
    obtain ⟨n, rfl⟩ := π.surjective n
    rw [r.callInfo, CallInfo.renumber_symm, Equiv.symm_apply_apply]
  index := r.index.symm

/-! ### Searches for class names -/

variable (r : Renumbers π g g')

include r

/-- An edge of the other graph is one of this graph. -/
theorem exists_edge (hn : g.classNamed? n = none) (hd : d ∈ (g'.record (π n)).dependencies) :
    ∃ d₀ ∈ (g.record n).dependencies, d = d₀.renumber π :=
  ⟨d.renumber π.symm, (r.edges n hn _).mp (by rwa [Dependency.renumber_of_symm]),
    (Dependency.renumber_of_symm π d).symm⟩

theorem exists_send (hd : .send site ∈ (g'.record (π n)).dependencies) :
    ∃ site₀, .send site₀ ∈ (g.record n).dependencies ∧ site = site₀.renumber π := by
  obtain ⟨d, hd, heq⟩ := r.exists_edge (r.sends n site (.inr hd)) hd
  cases d with
  | send site₀ => exact ⟨site₀, hd, Dependency.send.inj heq⟩
  | record _ | operator _ => cases heq

/-- A search meets the same records. -/
theorem stands (h : g.Stands targets start n) :
    g'.Stands (renumberTargets π targets) (π start) (π n) := by
  induction h with
  | start => exact .start
  | @follow n m d _ hn hd hm ih =>
    refine .follow ih (by rwa [r.classNamed?]) ((r.edges n hn d).mpr hd) ?_
    rw [leadsTo_renumber]
    exact List.mem_map_of_mem hm

/-- What the renumbered graph stands on is what the graph stands on, renumbered. -/
theorem exists_stands {m : Nat} (h : g'.Stands (renumberTargets π targets) (π start) m) :
    ∃ n, g.Stands targets start n ∧ m = π n := by
  induction h with
  | start => exact ⟨start, .start, rfl⟩
  | @follow m k d _ hm hd hk ih =>
    obtain ⟨n, hn, rfl⟩ := ih
    rw [r.classNamed?] at hm
    obtain ⟨d₀, hd₀, rfl⟩ := r.exists_edge hm hd
    rw [leadsTo_renumber, List.mem_map] at hk
    obtain ⟨k, hk, rfl⟩ := hk
    exact ⟨k, .follow hn hm hd₀ hk, rfl⟩

/-- A record stands for the same class. -/
theorem className {c : String} (h : g.className targets start = .ok c) :
    g'.className (renumberTargets π targets) (π start) = .ok c := by
  rw [className_eq_ok_iff] at h ⊢
  obtain ⟨⟨n, hn, hc⟩, hall⟩ := h
  refine ⟨⟨π n, r.stands hn, by rwa [r.classNamed?]⟩, fun m other hm hother => ?_⟩
  obtain ⟨n, hn, rfl⟩ := r.exists_stands hm
  exact hall n other hn (by rwa [r.classNamed?] at hother)

/-- Targets that cover a graph cover the renumbered one, renumbered. -/
theorem covers (h : g.Covers targets start) :
    g'.Covers (renumberTargets π targets) (π start) := by
  intro m hm hnone site hsite
  obtain ⟨n, hn, rfl⟩ := r.exists_stands hm
  obtain ⟨site₀, hsite₀, rfl⟩ := r.exists_send hsite
  rw [r.classNamed?] at hnone
  rw [CallSite.renumber, get?_renumberTargets, Option.isSome_map]
  exact h n hn hnone site₀ hsite₀

/-- A call is dispatched alike. -/
theorem dispatch {call : Nat} (h : g.dispatch targets t call start = .ok found) :
    g'.dispatch (renumberTargets π targets) t (π call) (π start) = .ok (found.renumber π) := by
  obtain ⟨choice, hchoose, hcase⟩ := dispatch_cases h
  have hchoose' := r.index.choose t (g.record call).instruction (g.callInfo call)
  rw [hchoose, ← r.callInfo] at hchoose'
  unfold Graph.dispatch
  simp only [r.instruction, hchoose', Except.map, bind, Except.bind]
  cases choice with
  | method n =>
    obtain rfl := hcase
    rfl
  | operator =>
    obtain rfl := hcase
    rw [r.callInfo]
    rfl
  | instantiate =>
    -- The one class on the search is the same.
    obtain ⟨name, hname, rfl⟩ := hcase
    simp only [Choice.renumber, r.className hname]
    rfl

end Renumbers

/-! ### Types -/

mutual

/-- **What has a type has it under other numbers.** -/
theorem HasType.renumber (r : Renumbers π g g') {d : Dependency} {t : Ty} :
    g.HasType d t → g'.HasType (d.renumber π) t
  | .given h => .given (by rw [r.given, h])
  | .agreed (n := n) hgiven hne hall => by
    cases hn : g.classNamed? n with
    | some c =>
      -- A record that names a class has its type whatever it depends on.
      obtain ⟨h, h'⟩ := r.classes n c hn
      rw [(HasType.agreed hgiven hne hall).unique h]
      exact h'
    | none =>
      obtain ⟨d, hd⟩ := List.exists_mem_of_ne_nil _ hne
      refine .agreed (by rw [r.given, hgiven]) (List.ne_nil_of_mem ((r.edges n hn d).mpr hd)) ?_
      intro d' hd'
      obtain ⟨d, hd, rfl⟩ := r.exists_edge hn hd'
      exact HasType.renumber r (hall d hd)
  | .operator hr ho hargs harg => by
    rw [← r.instruction] at ho
    exact .operator (HasType.renumber r hr) ho
      (by rw [CallSite.renumber, hargs]; rfl) (HasType.renumber r harg)
  | .method ht hn => .method (HasTarget.renumber r ht) (HasType.renumber r hn)
  | .primitive ht ho => .primitive (HasTarget.renumber r ht) (HasType.renumber r ho)
  | .object ht => .object (HasTarget.renumber r ht)

/-- What a call leads to it leads to under other numbers. -/
theorem HasTarget.renumber (r : Renumbers π g g') {site : CallSite} {found : Target} :
    g.HasTarget site found → g'.HasTarget (site.renumber π) (found.renumber π)
  | .dispatched hr right hcov hd => by
    refine .dispatched (HasType.renumber r hr) (fun n other t hm ho => ?_) (r.covers hcov)
      (r.dispatch hd)
    obtain ⟨n, rfl⟩ := π.surjective n
    obtain ⟨other₀, hm₀, rfl⟩ := r.exists_send hm
    rw [CallSite.renumber, get?_renumberTargets, Option.map_eq_some_iff] at ho
    obtain ⟨t, ho, rfl⟩ := ho
    exact HasTarget.renumber r (right n other₀ t hm₀ ho)

end

/-- **A record has the same type in both graphs.** -/
theorem Renumbers.hasType_iff (r : Renumbers π g g') :
    g'.HasType (.record (π n)) t ↔ g.HasType (.record n) t := by
  refine ⟨fun h => ?_, fun h => h.renumber r⟩
  have := h.renumber r.symm
  rwa [Dependency.renumber, Equiv.symm_apply_apply] at this

end Graph

/-! ### Inference -/

/-- **Inference answers the same types in another order.** -/
theorem Reorders.infer {σ : Equiv.Perm Nat} {xs ys : List Node} {code code' : List Instruction}
    {records : List TypedRecord} (h : Reorders σ xs ys) (hd : Distinct (declared xs))
    (l : Lowered xs code) (l' : Lowered ys code') (hr : infer code = .ok records) :
    ∃ records', Rubylet.infer code' = .ok records' ∧
      ∀ n, records'[h.relocation n]? = records[n]? := by
  obtain ⟨g, hg⟩ := exists_build_of_infer hr
  obtain ⟨g', hg'⟩ := h.exists_build hd l l' hg
  have r := h.graph hd l l' (Graph.built_of_build hg) (Graph.built_of_build hg')
  -- Inference goes through if and only if every record has a type.
  have htyped := (inference_exact hg).2.2.2.1.mp ⟨records, hr⟩
  obtain ⟨records', hr'⟩ := (inference_exact hg').2.2.2.1.mpr fun n hn => by
    obtain ⟨n, rfl⟩ := h.relocation.surjective n
    obtain ⟨t, ht⟩ := htyped n ((r.lt_size n).mp hn)
    exact ⟨t, r.hasType_iff.mpr ht⟩
  refine ⟨records', hr', fun n => ?_⟩
  have hcode := (h.renumbers l l').instruction n
  cases hi : code[n]? with
  | some i =>
    obtain ⟨t, hget, ht⟩ := getElem?_of_infer hg hr hi
    obtain ⟨t', hget', ht'⟩ := getElem?_of_infer hg' hr' (hcode.trans hi)
    obtain rfl := (r.hasType_iff.mp ht').unique ht
    rw [hget, hget']
  | none =>
    have hi' := hcode.trans hi
    rw [List.getElem?_eq_none_iff] at hi hi'
    rw [List.getElem?_eq_none (by rwa [length_of_infer hg' hr']),
      List.getElem?_eq_none (by rwa [length_of_infer hg hr])]

end Rubylet
