import Rubylet.Proofs.Native.Emitted
import Rubylet.Proofs.Safety.Run

/-!
# Programs in native code

What is known of a native program that a typed program was compiled to (`translated_of_compile`):
its main body is the native code of the statements, and every method that can be called has a
function, whose body is the native code of the method. No defect was noted on the way, so the
program can be run.
-/

namespace Rubylet.Native

open Replay

/-- A native program does what some code says. -/
structure Translated (code : List Instruction) (g : Graph) (m : Machine) (statements : List Node)
    (d : Declarations) (p : Program) : Prop where
  program : Emittable code g m statements d
  isSound : p.isSound = true
  /-- The value is that of the last operand, or nil if that is its type. -/
  main : ∃ slots is os value, p.main = ⟨slots, is, value⟩ ∧
    Emits code m.Linked d slots (CallsFrom code m none) (.statements statements) 0 code.length is
      os ∧
    (value = os.getLastD .null ∨ value = .null ∧ TopType code d code.length .nil)
  function : ∀ {name method}, m.methods.get? name = some method →
    ∃ s body, d.signatures.get? method = some s ∧ p.functions.get? method = some ⟨s, body⟩ ∧
      EmitsMethod code m.Linked d (CallsFrom code m (some method)) method s body

section

variable {code : List Instruction} {g : Graph} {m : Machine} {statements : List Node}
  {records : List TypedRecord} {d : Declarations} {p : Program} {e e' : Emission}
  {state : Nat → Emission}

/-- The records that came out of methods are those that were skipped. -/
theorem mem_methodResults_iff (hr : (trace code).error? = none) {r : Nat} :
    r ∈ methodResults (trace code) ↔ Skipped code code.length r := by
  have hlen : (trace code).steps.length = code.length := length_steps _ _ _ hr
  rw [methodResults, List.mem_filterMap]
  constructor
  · rintro ⟨s, hs, hevent⟩
    obtain ⟨n, hn⟩ := List.getElem?_of_mem hs
    have hlt : n < code.length := hlen ▸ (List.getElem?_eq_some_iff.mp hn).1
    -- The step is the event of its record.
    obtain ⟨e, ho, hstep⟩ := exists_occurs hr (List.getElem?_eq_getElem hlt)
    obtain rfl := Option.some.inj (hn.symm.trans hstep)
    dsimp only at hevent
    split at hevent
    · next method result =>
      obtain rfl := Option.some.inj hevent
      exact ⟨n, hlt, _, method, ho⟩
    · cases hevent
  · rintro ⟨n, hlt, i, method, ho⟩
    obtain ⟨e, ho', hstep⟩ := exists_occurs hr ho.1
    obtain rfl := (ho.unique ho').2
    exact ⟨_, List.mem_of_getElem? hstep, rfl⟩

/-- The program's value is that of the last operand, unless it came out of a method. -/
theorem resultRecord?_eq {left : List Nat} (hstack : (stateAt code code.length).stack = left) :
    resultRecord? (trace code) =
      left.head?.filter fun n => !(methodResults (trace code)).contains n := by
  rw [resultRecord?, State.top?, OperandStack.peek, ← stateAt_of_length_le (Nat.le_refl _), hstack]

/-- Every definition has a function. -/
theorem functions_get? (d : Declarations) (e : Emission) (method : Nat) :
    (d.functions e).get? method = (d.signatures.get? method).map fun s =>
      ⟨s, (e.bodies.get? method).getD default⟩ := by
  obtain ⟨records, ⟨entries⟩⟩ := d
  simp only [Declarations.functions, Table.get?]
  induction entries with
  | nil => rfl
  | cons entry rest ih =>
    -- Signatures and functions are the same list, with other values.
    obtain ⟨n, s⟩ := entry
    simp only [List.map_cons, Table.find, ih]
    split
    · next heq => rw [heq]; rfl
    · rfl

/-- An emission that goes through. -/
theorem emitting_of_fold {slots : Table String Kind} (u : Emittable code g m statements d)
    (h : fold d.emit (.initial slots) (trace code).steps = (e, none)) :
    Emitting code g m statements d (foldAt d.emit (.initial slots) (trace code).steps) :=
  ⟨u, fun ho => foldAt_succ (by rw [h]) (u.checked.built.step_eq ho)⟩

/-- What comes of the compilation of code that can be replayed. -/
theorem exists_of_compile {t : Trace} (ht : Replay.trace (records.map TypedRecord.instruction) = t)
    (hr : t.error? = none) (h : compile records = .ok p) :
    refuseClasses 0 records = .ok () ∧ ∃ (d : Declarations) (slots : Table String Kind) (kind : Kind)
      (main : Body) (e e' : Emission),
      d.records = records.toArray ∧ signaturesFrom 0 records = .ok d.signatures.entries ∧
      slotsFrom 0 0 .empty records = .ok slots ∧
      fold d.emit (.initial slots) t.steps = (e, none) ∧
      (resultRecord? t = none ∧ kind = .pointer ∧ e.finish (some .nil) kind 0 = .ok (main, e') ∨
        ∃ n, resultRecord? t = some n ∧ kindOf n (d.records.getD n default) = .ok kind ∧
          e.finish (d.type? n) kind n = .ok (main, e')) ∧
      p = ⟨main, d.functions e', e'.isSound && e'.outer.isEmpty⟩ := by
  obtain ⟨-, -, h⟩ := exists_of_bind_eq_ok h
  obtain ⟨⟨⟩, hclasses, h⟩ := exists_of_bind_eq_ok h
  rw [ht] at h
  simp only [hr, emitProgram] at h
  refine ⟨hclasses, ?_⟩
  -- The two cases differ in the record that the result is taken from, if there is one.
  cases hresult : resultRecord? t
  all_goals
    simp only [hresult] at h
    obtain ⟨kind, hkind, h⟩ := exists_of_bind_eq_ok h
    obtain ⟨sigs, hsigs, h⟩ := exists_of_bind_eq_ok h
    obtain ⟨slots, hslots, h⟩ := exists_of_bind_eq_ok h
    split at h
    · cases h
    · next e hfold =>
      obtain ⟨⟨main, e'⟩, hmain, h⟩ := exists_of_bind_eq_ok h
      refine ⟨⟨records.toArray, ⟨sigs⟩⟩, slots, kind, main, e, e', rfl, hsigs, hslots, hfold, ?_,
        (Except.ok.inj h).symm⟩
      first
      | exact .inl ⟨rfl, (Except.ok.inj hkind).symm, hmain⟩
      | exact .inr ⟨_, rfl, hkind, hmain⟩

/-- The main body ends with the value of the operand that is left on top. -/
theorem finish_main {kind : Kind} {main : Body} {left : List Nat} {os : List Operand}
    (hr : (trace code).error? = none) (hstack : (stateAt code code.length).stack = left)
    (hops : List.Forall₂ (OperandFits code d e code.length) left os.reverse)
    (hended : e.current.isEnded = false) (hbranches : e.current.branches = [])
    (h : resultRecord? (trace code) = none ∧ kind = .pointer ∧
        e.finish (some .nil) kind 0 = .ok (main, e') ∨
      ∃ n, resultRecord? (trace code) = some n ∧ kindOf n (d.records.getD n default) = .ok kind ∧
        e.finish (d.type? n) kind n = .ok (main, e')) :
    ∃ value, (value = os.getLastD .null ∨ value = .null ∧ TopType code d code.length .nil) ∧
      main = ⟨e.current.slots, e.current.code.reverse, value⟩ ∧ e' = e.reserve [""] := by
  have finished : ∀ {type? n} {value : Operand},
      (type? = some .nil ∧ value = .null ∨ type? ≠ some .nil ∧ e.Knows n value) →
      value.kind = kind → e.finish type? kind n = .ok (main, e') →
      main = ⟨e.current.slots, e.current.code.reverse, value⟩ ∧ e' = e.reserve [""] := by
    intro type? n value hvalue hkind hfinish
    rw [← hkind, Emission.finish_eq hended hbranches hvalue] at hfinish
    exact (Prod.mk.inj (Except.ok.inj hfinish)).imp Eq.symm Eq.symm
  have hresult := resultRecord?_eq hstack
  -- Without a record for its result, the main body answers nil.
  have hnull : resultRecord? (trace code) = none →
      main = ⟨e.current.slots, e.current.code.reverse, .null⟩ ∧ e' = e.reserve [""] := by
    intro hnone
    rcases h with ⟨-, rfl, hfinish⟩ | ⟨n, hsome, -⟩
    · exact finished (.inl ⟨rfl, rfl⟩) rfl hfinish
    · rw [hnone] at hsome
      cases hsome
  cases left with
  | nil =>
    obtain rfl := List.reverse_eq_nil_iff.mp (List.forall₂_nil_left_iff.mp hops)
    exact ⟨.null, .inl rfl, hnull hresult⟩
  | cons r rest =>
    obtain ⟨o, os', hfit, -, hos⟩ := List.forall₂_cons_left_iff.mp hops
    have hlast : os.getLastD .null = o := by
      rw [List.getLastD_eq_getLast?, ← List.head?_reverse, hos]
      rfl
    rw [hlast]
    have hskipped := mem_methodResults_iff hr (r := r)
    rcases hfit with ⟨hskip, rfl⟩ | ⟨hskip, hknows, hkind⟩
    -- What a definition has left is no result.
    · refine ⟨.null, .inl rfl, hnull ?_⟩
      rw [hresult, List.head?_cons]
      simp [hskipped.mpr hskip]
    -- Otherwise the result is that of the record on top.
    · have hsome : resultRecord? (trace code) = some r := by
        rw [hresult, List.head?_cons]
        simp [hskip, hskipped]
      obtain ⟨hkindOf, hfinish⟩ : kindOf r (d.records.getD r default) = .ok kind ∧
          e.finish (d.type? r) kind r = .ok (main, e') := by
        rcases h with ⟨hnone, -⟩ | ⟨n, hn, h⟩
        · rw [hsome] at hnone
          cases hnone
        · obtain rfl := Option.some.inj (hsome.symm.trans hn)
          exact h
      obtain rfl := Except.ok.inj ((Declarations.kindOf_of_kind? hkind).symm.trans hkindOf)
      by_cases ht : d.type? r = some .nil
      · rw [Declarations.kind?, ht] at hkind
        exact ⟨.null, .inr ⟨rfl, r, rest, hstack, ht⟩,
          finished (.inl ⟨ht, rfl⟩) (Option.some.inj hkind) hfinish⟩
      · exact ⟨o, .inl rfl, finished (.inr ⟨ht, hknows⟩) rfl hfinish⟩

/-- **What a typed program is compiled to.** -/
theorem translated_of_compile (h : Compiled statements code g records m)
    (hp : compile records = .ok p) : ∃ d, Translated code g m statements d p := by
  have b := Graph.built_of_build h.built
  have hinstructions := map_instruction_of_infer h.built h.inferred
  have hr := b.replayed
  obtain ⟨hclasses, d, slots, kind, main, e, e', hrecords, hsigs, hslots, hfold, hfinish, rfl⟩ :=
    exists_of_compile (t := trace code) (by rw [hinstructions]) hr hp
  -- Classes are refused before anything is emitted.
  have hclassless : ∀ i ∈ code, ∀ c, i.op ≠ .classStart c ∧ i.op ≠ .pushConst c := by
    intro i hi c
    rw [← hinstructions] at hi
    obtain ⟨r, hr, rfl⟩ := List.mem_map.mp hi
    exact refuseClasses_eq_ok hclasses r hr c
  have u : Emittable code g m statements d :=
    ⟨h.checked (sameClasses_of_classless b hclassless), hclassless,
      by rw [hrecords]; exact hinstructions,
      by rw [hrecords]; exact hsigs, fun ht => by
        rw [Declarations.type?, hrecords, List.getElem?_toArray]
        exact typeAt?_of_hasType h.built h.inferred ht⟩
  have x := emitting_of_fold u hfold
  have hlen : (trace code).steps.length = code.length := length_steps _ _ _ hr
  -- The state behind the last instruction is the one that the emission has ended with.
  have hlast : foldAt d.emit (.initial slots) (trace code).steps code.length = e := by
    rw [foldAt_of_length_le (Nat.le_of_eq hlen), hfold]
  obtain ⟨is, os, left, hemits, hstretch⟩ := (x.upTo code.length).emitted h.loaded.layout rfl
    (Nat.le_refl _) slots none ⟨rfl, rfl, rfl⟩
    (u.slotsFit (rfl : openers code 0 = []) (by rw [hrecords]; exact hslots))
  have hx := hstretch.emission
  have hoperands := hstretch.operands
  have hbodies := hstretch.methods
  rw [hlast] at hx hoperands hbodies
  obtain ⟨value, hvalue, rfl, rfl⟩ := finish_main hr (by
    rw [hstretch.replays.stack, stateAt_zero]; exact List.append_nil left) hoperands hx.isEnded
    hx.branches hfinish
  refine ⟨d, u, ?_, ⟨slots, is, os, value, ?_, hemits, hvalue⟩, ?_⟩
  · have hsound := hx.isSound
    have houter := hx.outer
    change (e.isSound && e.outer.isEmpty) = true
    rw [hsound, houter]
    rfl
  · change Body.mk e.current.slots e.current.code.reverse value = _
    rw [hx.slots, hx.code]
    simp [Emission.initial, Scope.start]
  · intro name method hm
    rw [b.methods_get?_eq h.loaded] at hm
    obtain ⟨i, hi, hop, -⟩ := b.method_definition hm
    obtain ⟨s, body, hs, hbody, hmethod⟩ :=
      hbodies method i name (Nat.zero_le _) (List.getElem?_eq_some_iff.mp hi).1 hi hop
    refine ⟨s, body, hs, ?_, hmethod⟩
    rw [functions_get?, hs]
    change some _ = _
    rw [show (e.reserve [""]).bodies = e.bodies from rfl, hbody]
    rfl

end

end Rubylet.Native
