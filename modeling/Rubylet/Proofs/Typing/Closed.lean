import Rubylet.Proofs.Graph.Order
import Rubylet.Proofs.Typing.Recursion

/-!
# Nothing leads out of a graph

A graph speaks of its records by number. `Graph.record` answers a default for a number that no
record has, so what is said of the records of a graph should be said of no others. No such number
ever comes up: what is on the stack of a replay stands before it (`Replay.stack_lt`), a local is
bound to an assignment that came before, and the tables hold the records that define methods and
classes.

This is so for every list of instructions that a graph is built for, however badly it is nested.

* `Built.lt_of_edge`: edges lead to records that are there.
* `Built.has_of_dispatch`, `Built.has_of_dependsOn`: so do the targets of calls, and all that a
  search for types follows.
-/

namespace Rubylet

open Rubylet.Graph Inference Replay

variable {code : List Instruction} {g : Graph} {n v : Nat} {i : Instruction} {e : Event}
  {a d : Dependency} {site : CallSite}

/-- An instruction hands on what stands before it. -/
theorem Replay.Occurs.lt_of_mem_values (hr : (trace code).error? = none) (h : Occurs code n i e)
    (hv : v ∈ e.values) : v < code.length :=
  Nat.lt_trans (stack_lt hr (h.mem_stack hv)) h.lt

namespace Graph

/-- A dependency is one of the graph, and stands at a record that is there. -/
structure Has (g : Graph) (d : Dependency) : Prop where
  owned : Owned g d
  lt : placeOf d < g.records.size

theorem has_record (h : n < g.records.size) : g.Has (.record n) := ⟨trivial, h⟩

theorem has_operator (h : g.IsSite site.call site) : g.Has (.operator site) :=
  ⟨h, h.elim lt_size_of_mem lt_size_of_mem⟩

theorem has_send (h : .send site ∈ (g.record site.call).dependencies) : g.Has (.send site) :=
  ⟨h, lt_size_of_mem h⟩

/-- What the type of a call is taken from is there, if the graph has it. -/
def HasTaken (g : Graph) : Target → Prop
  | .method n => g.Has (.record n)
  | .operator site => g.Has (.operator site)
  | .object _ => True

namespace Built

variable (b : Built code g)

include b

/-- What is listed under a name is a call, and the graph remembers its arguments. -/
theorem exists_of_mem_callers {name : String} {call : Nat}
    (h : call ∈ (g.index.callers.get? name).getD []) :
    ∃ i r, Occurs code call i (.send r (g.index.argsOf call)) := by
  rw [b.callers_eq, List.mem_filter] at h
  obtain ⟨i, hi, hsends⟩ := (Option.any_eq_true _ _).mp h.2
  obtain ⟨e, hocc⟩ := b.occurs hi
  -- Only a send is a caller, and it keeps its own arguments.
  cases ho : i.op with
  | send other count =>
    obtain ⟨r, args, rfl, hcalls⟩ := b.calls_eq hocc ho
    refine ⟨i, r, ?_⟩
    rw [Index.argsOf, hcalls]
    exact hocc
  | _ => rw [ho] at hsends; cases hsends

theorem lt_of_getElem? (h : code[n]? = some i) : n < g.records.size :=
  b.size_eq ▸ (List.getElem?_eq_some_iff.mp h).1

/-- A method that a call chose is there. -/
theorem lt_of_choose {receiver : Ty} {info : CallInfo} {m : Nat} {name : String}
    {count : Option Int} (h : g.index.choose receiver i info = .ok (.method m))
    (ho : i.op = .send name count) : m < g.records.size := by
  obtain ⟨j, hj, -⟩ := b.defStart_of_choose h ho
  exact b.lt_of_getElem? hj

/-- An instruction adds no edge that leads out of the code. -/
theorem edges_stay_succ (h : Occurs code n i e)
    (ih : ∀ k m, .record m ∈ (wiringAt code g n).dependenciesOf k → m < code.length) :
    ∀ k m, .record m ∈ (wiringAt code g (n + 1)).dependenciesOf k → m < code.length := by
  -- Whatever an event takes was pushed before it.
  have hvalue : ∀ v ∈ e.values, v < code.length := fun v hv => h.lt_of_mem_values b.replayed hv
  intro k m hm
  obtain ⟨j, ds, hadds, hgrows⟩ := b.exists_adds h
  rcases hgrows.mem_iff.mp hm with hold | ⟨rfl, hnew⟩
  · exact ih k m hold
  -- By the dependencies a record can add: each is a value, or a record found in a table of the
  -- graph.
  cases hadds with
  | nothing => cases hnew
  | assigned | result | branch | join =>
    obtain rfl := Dependency.record.inj (List.mem_singleton.mp hnew)
    exact hvalue m (.head _)
  | again _ _ =>
    rcases List.mem_append.mp hnew with hfirst | hv
    · exact ih _ m hfirst
    · obtain rfl := Dependency.record.inj (List.mem_singleton.mp hv)
      exact hvalue m (.head _)
  | read _ hfirst =>
    obtain rfl := Dependency.record.inj (List.mem_singleton.mp hnew)
    obtain ⟨_, _, hassign, -⟩ := (b.wiringFits (Nat.le_of_lt h.lt)).scope hfirst
    exact hassign.lt
  | const _ hinfo =>
    obtain rfl := Dependency.record.inj (List.mem_singleton.mp hnew)
    obtain ⟨_, hj, -⟩ := b.class_definition hinfo
    exact (List.getElem?_eq_some_iff.mp hj).1
  | passed _ hds =>
    obtain ⟨call, hcall, -, arg, harg, heq⟩ := (Wiring.mem_passedArgs_iff hds).mp hnew
    obtain rfl := Dependency.record.inj heq
    obtain ⟨_, r, hsend⟩ := b.exists_of_mem_callers hcall
    exact hsend.lt_of_mem_values b.replayed (.tail _ (Session.mem_of_elementAt? harg))
  | sent hd =>
    obtain rfl := List.mem_singleton.mp hnew
    obtain ⟨_, hchoose⟩ := Wiring.exists_choose hd
    obtain ⟨name, count, ho⟩ := h.op_of_send
    exact b.size_eq ▸ b.lt_of_choose hchoose ho

/-- **Edges lead to records that are there.** -/
theorem lt_of_edge {m : Nat} (h : .record m ∈ (g.record n).dependencies) : m < g.records.size := by
  rw [b.record_eq (List.getElem?_eq_getElem (b.size_eq ▸ lt_size_of_mem h))] at h
  exact b.size_eq ▸ b.point_induction
    (P := fun n => ∀ k m, .record m ∈ (wiringAt code g n).dependenciesOf k → m < code.length)
    (fun k m hm => by simp at hm) (fun hocc ih => b.edges_stay_succ hocc ih) _ (Nat.le_refl _) n m h

/-- What a record depends on is there. -/
theorem has_of_mem (h : d ∈ (g.record n).dependencies) : g.Has d := by
  have hown := owned_of_mem b.isWired h
  cases d with
  | record m => exact has_record (b.lt_of_edge h)
  | operator site => exact has_operator hown
  | send site => exact has_send hown

/-- A call hands on its receiver and its arguments, and they are there. -/
theorem has_operand (hsite : g.IsSite site.call site) {r : Nat}
    (hr : r ∈ site.receiver :: site.args) : g.Has (.record r) := by
  obtain ⟨i, name, count, hocc, -⟩ := b.exists_send hsite
  exact has_record (b.size_eq ▸ hocc.lt_of_mem_values b.replayed hr)

/-- **What a call is dispatched to is there.** -/
theorem has_of_dispatch {targets : Table Nat Target} {receiver : Ty} {found : Target}
    (hsite : .send site ∈ (g.record site.call).dependencies)
    (h : g.dispatch targets receiver site.call site.receiver = .ok found) : g.HasTaken found := by
  obtain ⟨i, name, count, hocc, ho⟩ := b.exists_send (.inl hsite)
  obtain ⟨choice, hchoose, hfound⟩ := dispatch_cases h
  rw [b.record_eq hocc.1] at hchoose
  cases choice with
  | method m =>
    obtain rfl := hfound
    exact has_record (b.lt_of_choose hchoose ho)
  | operator =>
    -- The operator stands at the site of the call.
    obtain rfl := hfound
    rw [← b.isWired.site_args (.inl hsite)]
    exact has_operator (.inl hsite)
  | instantiate =>
    obtain ⟨_, -, rfl⟩ := hfound
    trivial

theorem has_of_hasTarget {found : Target}
    (hsite : .send site ∈ (g.record site.call).dependencies) (h : g.HasTarget site found) :
    g.HasTaken found := by
  obtain ⟨-, -, -, hdispatch⟩ := h
  exact b.has_of_dispatch hsite hdispatch

/-- **What a dependency takes its type from is there.** -/
theorem has_of_dependsOn (h : g.Has a) (hd : g.DependsOn a d) : g.Has d := by
  cases hd with
  | edge _ hd => exact b.has_of_mem hd
  | operand => exact b.has_operand h.owned (.head _)
  | argument hargs => exact b.has_operand h.owned (.tail _ (hargs ▸ .head _))
  | receiver => exact b.has_operand (.inl h.owned) (.head _)
  | method ht => exact b.has_of_hasTarget h.owned ht
  | primitive ht => exact b.has_of_hasTarget h.owned ht

end Built

end Graph

end Rubylet
