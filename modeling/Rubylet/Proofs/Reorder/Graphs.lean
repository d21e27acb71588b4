import Rubylet.Proofs.Reorder.Tables
import Rubylet.Proofs.Typing.Flow

/-!
# Graphs in another order

The graph of reordered statements is the graph of the statements under other numbers
(`Graph.Renumbers`): every record has the same instruction and the same edges, up to their order.
One of the two graphs can be built just in case the other one can (`Reorders.exists_build`), since
what the wiring asks for at an instruction is there in both: a first assignment in the frame, a
class, an argument, a method.
-/

namespace Rubylet

open Replay Direct

variable {code code' : List Instruction} {g g' : Graph} {links links' : Nat → Nat → Prop} {n : Nat}
  {i : Instruction} {e : Event} {d : Dependency} {site : CallSite}

/-! ### Constants and calls -/

namespace Graph.Built

/-- The record of a graph carries the instruction of the code. -/
theorem instruction_eq (b : Built code g) (n : Nat) :
    (g.record n).instruction = code[n]?.getD default := by
  cases hi : code[n]? with
  | some i => rw [b.record_eq hi]; rfl
  | none => rw [record_eq_default (b.size_eq ▸ List.getElem?_eq_none_iff.mp hi)]; rfl

theorem given?_eq (b : Built code g) (n : Nat) :
    (g.record n).given? = code[n]?.bind fun i => i.op.givenType? := by
  cases hi : code[n]? with
  | some i => rw [b.record_eq hi]; rfl
  | none => rw [record_eq_default (b.size_eq ▸ List.getElem?_eq_none_iff.mp hi)]; rfl

/-- What a record knows about its call is what the index kept for it. -/
theorem callInfo_eq (b : Built code g) (n : Nat) :
    g.callInfo n = (g.index.calls.get? n).getD ⟨[], none⟩ := by
  cases hi : code[n]? with
  | some i => rw [callInfo, b.record_eq hi]
  | none =>
    rw [callInfo, record_eq_default (b.size_eq ▸ List.getElem?_eq_none_iff.mp hi)]
    cases hcall : g.index.calls.get? n with
    | none => rfl
    | some info =>
      obtain ⟨i, e, _, _, ho, -⟩ := b.op_of_calls hcall
      cases hi.symm.trans ho.1

/-- Only a call depends on a call. -/
theorem classNamed?_of_send (b : Built code g) (hd : .send site ∈ (g.record n).dependencies) :
    g.classNamed? n = none := by
  obtain ⟨i, e, ho, -, hsite⟩ := b.edgeFits hd
  obtain ⟨r, args, rfl, rfl⟩ := hsite site (.inl rfl)
  obtain ⟨name, count, hop⟩ := ho.op_of_send
  rw [b.classNamed?_eq ho.1, hop]

/-- What names a class is one. -/
theorem typed_of_classNamed (b : Built code g) (hroles : Roles code links 0 code.length)
    {c : String} (h : g.classNamed? n = some c) : g.HasType (.record n) .cls := by
  cases hi : code[n]? with
  | none =>
    rw [classNamed?, b.instruction_eq, hi] at h
    cases h
  | some i =>
    rw [b.classNamed?_eq hi] at h
    split at h
    · next name ho =>
      obtain ⟨e, hocc⟩ := b.occurs hi
      obtain ⟨info, hinfo, hmem⟩ := b.pushConst_edge hocc ho
      -- A constant depends on the record that opens the class, and on nothing else.
      refine .agreed (by rw [b.record_eq hi, ho]; rfl) (List.ne_nil_of_mem hmem) fun d hd => ?_
      obtain ⟨info, hinfo, rfl⟩ := b.edge_of_const hi ho ((b.edge_iff hroles).mp hd)
      exact b.class_typed hinfo
    · next name ho => exact .given (by rw [b.record_eq hi, ho]; rfl)
    · cases h

end Graph.Built

/-! ### Graphs under other numbers -/

/-- A graph has the records of another one under other numbers. -/
structure Graph.Renumbers (π : Equiv.Perm Nat) (g g' : Graph) : Prop where
  lt_size : ∀ n, π n < g'.records.size ↔ n < g.records.size
  instruction : ∀ n, (g'.record (π n)).instruction = (g.record n).instruction
  given : ∀ n, (g'.record (π n)).given? = (g.record n).given?
  edges : ∀ n, g.classNamed? n = none → ∀ d,
    d.renumber π ∈ (g'.record (π n)).dependencies ↔ d ∈ (g.record n).dependencies
  /-- What names a class is one, whatever it depends on. -/
  classes : ∀ n c, g.classNamed? n = some c →
    g.HasType (.record n) .cls ∧ g'.HasType (.record (π n)) .cls
  /-- Only calls depend on calls. -/
  sends : ∀ n site, .send site ∈ (g.record n).dependencies ∨
    .send site ∈ (g'.record (π n)).dependencies → g.classNamed? n = none
  callInfo : ∀ n, g'.callInfo (π n) = (g.callInfo n).renumber π
  index : g.index.Renumbers π g'.index

theorem Graph.Renumbers.classNamed? {π : Equiv.Perm Nat} (r : Graph.Renumbers π g g') (n : Nat) :
    g'.classNamed? (π n) = g.classNamed? n := by
  rw [Graph.classNamed?, Graph.classNamed?, r.instruction]

/-- The numbers of records stay within the code. -/
theorem Renumbers.lt_length_iff {π : Equiv.Perm Nat} (r : Renumbers π code code') :
    π n < code'.length ↔ n < code.length := by
  rw [← not_iff_not, Nat.not_lt, Nat.not_lt, ← List.getElem?_eq_none_iff,
    ← List.getElem?_eq_none_iff, r.instruction]

section Reordered

variable {σ : Equiv.Perm Nat} {xs ys : List Node} (h : Reorders σ xs ys)
  (hd : Distinct (declared xs)) (l : Lowered xs code) (l' : Lowered ys code')

include h hd l l'

/-- **Reordered statements have the same graph**, under the other numbers. -/
theorem Reorders.graph (b : Graph.Built code g) (b' : Graph.Built code' g') :
    Graph.Renumbers h.relocation g g' := by
  have r := h.renumbers l l'
  have r' := h.symm.renumbers l' l
  have hx := h.index hd l l' b.toIndexed b'.toIndexed
  have hroles := l.layout.roles l.replayed
  have hroles' := l'.layout.roles l'.replayed
  have hnamed : ∀ n, g'.classNamed? (h.relocation n) = g.classNamed? n := fun n => by
    rw [Graph.classNamed?, Graph.classNamed?, b.instruction_eq, b'.instruction_eq, r.instruction]
  -- Constants are named, so they may be left out.
  have unnamed : ∀ n, g.classNamed? n = none → ∀ i name, code[n]? = some i →
      i.op ≠ .pushConst name := by
    intro n hn i name hi ho
    rw [b.classNamed?_eq hi, ho] at hn
    cases hn
  refine ⟨fun n => ?_, fun n => ?_, fun n => ?_, fun n hn d => ?_, fun n c hc => ?_, ?_,
    fun n => ?_, hx⟩
  · rw [b.size_eq, b'.size_eq, r.lt_length_iff]
  · rw [b.instruction_eq, b'.instruction_eq, r.instruction]
  · rw [b.given?_eq, b'.given?_eq, r.instruction]
  · rw [b.edge_iff hroles, b'.edge_iff hroles']
    refine ⟨fun hd => ?_, fun hd => hd.renumber r hx (unnamed n hn)⟩
    -- The edges of the other graph are led back by the reverse order.
    have hback := hd.renumber r' hx.symm (fun i name hi => unnamed n hn i name (by
      rwa [← r.instruction]))
    rwa [h.relocation_symm, Equiv.symm_apply_apply, Dependency.renumber_symm] at hback
  · exact ⟨b.typed_of_classNamed hroles hc, b'.typed_of_classNamed hroles' (by rwa [hnamed])⟩
  · rintro n site (hs | hs)
    · exact b.classNamed?_of_send hs
    · rw [← hnamed]
      exact b'.classNamed?_of_send hs
  · rw [b.callInfo_eq, b'.callInfo_eq, hx.calls]
    cases g.index.calls.get? n <;> rfl

end Reordered

/-! ### Building the graph -/

/-- An instruction that is wired in one order is wired in the other. -/
theorem Renumbers.exists_learn {π : Equiv.Perm Nat} {x' : Index} {w : Wiring.State}
    (r : Renumbers π code code') (b : Graph.Built code g) (hx : Index.Renumbers π g.index x')
    (hroles : Roles code links 0 code.length) (hroles' : Roles code' links' 0 code'.length)
    (hw : Wired code' (π n) w) (h : Occurs code n i e) :
    ∃ w', Wiring.learn code'.toArray x' w ⟨π n, i, e.map π, stateAt code' (π n + 1)⟩ = .ok w' := by
  unfold Wiring.learn
  dsimp only
  cases ho : i.op with
  | pushVar name =>
    obtain ⟨rfl, -⟩ := h.pushVar ho
    obtain ⟨f, hf, -⟩ := b.wiringAt_pushVar h ho
    have hfirst := ((b.wiredAt (Nat.le_of_lt h.lt)).scope_get?_iff hroles).mp hf
    have hget := (hw.scope_get?_iff hroles').mpr (r.firstIn h.1 (by rw [ho]; rfl) hfirst)
    simp only [Event.map, hget]
    exact ⟨_, rfl⟩
  | pushConst name =>
    obtain ⟨rfl, -⟩ := h.pushConst ho
    obtain ⟨info, hinfo, -⟩ := b.wiringAt_pushConst h ho
    have hclass := hx.classes name
    rw [hinfo] at hclass
    obtain ⟨info', hinfo'⟩ := Option.isSome_iff_exists.mp hclass
    simp only [Event.map, hinfo']
    exact ⟨_, rfl⟩
  | pushArg index =>
    obtain ⟨m, _, -, rfl, -⟩ := h.pushArg ho
    obtain ⟨ds, hds, -⟩ := b.wired_pushArg h ho
    have hname : Wiring.methodName code'.toArray (π m) = Wiring.methodName code.toArray m := by
      rw [Wiring.methodName, Wiring.methodName, List.getElem?_toArray, List.getElem?_toArray,
        r.instruction]
    -- Every call of the name has the argument, and the calls are the same.
    have hall := Wiring.exists_passedArgs_iff.mp ⟨ds, hds⟩
    have hpassed : ∃ ds', Wiring.passedArgs x' index
        ((x'.callers.get? (Wiring.methodName code.toArray m)).getD []) = .ok ds' := by
      refine Wiring.exists_passedArgs_iff.mpr fun call hcall hlt => ?_
      obtain ⟨call, rfl⟩ := π.surjective call
      rw [hx.argsOf, List.length_map] at hlt
      obtain ⟨arg, harg⟩ := hall call ((hx.callers _ _).mp hcall) hlt
      exact ⟨π arg, by rw [hx.argsOf, elementAt?_map, harg]; rfl⟩
    obtain ⟨ds', hds'⟩ := hpassed
    simp only [Event.map, hname, hds', bind, Except.bind]
    exact ⟨_, rfl⟩
  | send name count =>
    obtain ⟨receiver, args, d, rfl, hd, -⟩ := b.wiringAt_send h ho
    have hsend := hx.sendDependency ((code[receiver]?).bind fun i => i.op.givenType?) i
      ⟨args, (stateAt code n).currentClass⟩ ⟨receiver, n, args⟩
    obtain ⟨_, _, _, -, -, he, hs⟩ := (r.event h).send ho
    -- A call does not change the class that is open.
    have hcls : (stateAt code' (π n + 1)).currentClass = (stateAt code n).currentClass := by
      rw [← r.currentClass n h.lt, hs]
      rfl
    rw [hd] at hsend
    simp only [CallInfo.renumber, CallSite.renumber] at hsend
    simp only [Event.map, List.getElem?_toArray, r.instruction, hcls, hsend]
    exact ⟨_, rfl⟩
  | unknown opcode operand => exact absurd ho h.ne_unknown
  | _ =>
    have he := h.of_op
    rw [ho] at he
    cases e <;> cases he
    exact ⟨_, rfl⟩

/-- **A graph that can be built** can be built in another order. -/
theorem Reorders.exists_build {σ : Equiv.Perm Nat} {xs ys : List Node} (h : Reorders σ xs ys)
    (hd : Distinct (declared xs)) (l : Lowered xs code) (l' : Lowered ys code')
    (hg : Graph.build code = .ok g) : ∃ g', Graph.build code' = .ok g' := by
  have b := Graph.built_of_build hg
  have b' : Graph.Indexed code' (.ofTrace (trace code')) := ⟨l'.replayed, rfl⟩
  have r := h.renumbers l l'
  have hx := h.index hd l l' b.toIndexed b'
  unfold Graph.build
  simp only [l'.replayed]
  split
  · next w error hfold =>
    -- Where the wiring fails, the instruction is one that was wired in the other order.
    obtain ⟨n', t, ht, hw, hlearn⟩ := exists_of_fold_error hfold
    obtain ⟨n, rfl⟩ := h.relocation.surjective n'
    have hlen : (trace code').steps.length = code'.length := length_steps _ _ _ l'.replayed
    have hlt' : h.relocation n < code'.length := hlen ▸ (List.getElem?_eq_some_iff.mp ht).1
    have hlt := r.lt_length_iff.mp hlt'
    obtain ⟨e, hocc⟩ := b.occurs (List.getElem?_eq_getElem hlt)
    obtain rfl := Option.some.inj (ht.symm.trans (b'.step_eq (r.event hocc)))
    obtain ⟨w', hw'⟩ := r.exists_learn b hx (l.layout.roles l.replayed)
      (l'.layout.roles l'.replayed) ⟨l'.replayed, Nat.le_of_lt hlt', hw⟩ hocc
    rw [hw'] at hlearn
    cases hlearn
  · exact ⟨_, rfl⟩

end Rubylet
