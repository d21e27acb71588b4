import Mathlib.Tactic.IntervalCases
import Rubylet.Proofs.Native.Calls

/-!
# Native code agrees with the machine

`native_agrees` says that a program for which native code is emitted has the same value in both
backends, as far as native code can tell, or is refused by both for a division by zero at the same
record.

The conditions are those under which native code can follow the machine at all:

* no method reaches itself, and calls are nested at most nine thousand deep, so that neither backend
  runs out of frames;
* no local is read before it is assigned, since a slot holds anything until it is written;
* what the machine divides, and divides by, are words. Sums, differences and products may be of any
  size: their words are right, and `throughCell` says what is left of the value in the end.

Native code goes on behind a division by zero. What it computes there cannot change the answer,
because the first fault is kept (`KeepsFaults`), and it ends, because emitted code never gets stuck
(`Translated.answers`).
-/

namespace Rubylet

/-! ### Runs that end -/

section

variable {m : Machine} {code : List Instruction} {statements : List Node} {s s' : Machine.State}
  {i : Instruction} {e : RunError} {r : Except RunError Value}

/-- A loaded program comes to what a state ends with that it visits. -/
theorem run_of_visits (hl : Loaded m code statements) (h : m.Visits s)
    (hend : m.runFor 1 s = .ended r s') : m.run = r := by
  -- The run has an end, and it comes by this state on its way there.
  obtain ⟨last, hlast⟩ := Direct.exists_outcome hl .start
  obtain ⟨k, hk⟩ := h.reaches
  rw [Machine.run, hlast, Machine.Outcome.value]
  exact Machine.result_of_reaches hlast hk hend

/-- A run that reaches the end of the code has its result there. -/
theorem run_of_end (hl : Loaded m code statements) (h : m.Visits s)
    (hend : m.code[s.next]? = none) : m.run = Machine.result s := by
  have hended : m.runFor 1 s = .ended (Machine.result s) s := by
    rw [Machine.runFor]
    simp only [hend]
  exact run_of_visits hl h hended

/-- A run that stops has stopped for good. -/
theorem run_of_stop (hl : Loaded m code statements) (h : m.Visits s)
    (hi : m.code[s.next]? = some i) (hstop : m.step i s = .stop e s') : m.run = .error e := by
  have hended : m.runFor 1 s = .ended (.error e) s' := by
    rw [Machine.runFor]
    simp only [hi, hstop]
  exact run_of_visits hl h hended

end

namespace Native

open Machine

/-! ### Programs -/

section

variable {code : List Instruction} {g : Graph} {m : Machine} {statements : List Node}
  {d : Declarations} {p : Program} {records : List TypedRecord}

/-- The value of the main body is that of the machine. -/
theorem Emittable.matches_main (u : Emittable code g m statements d) {os : List Operand}
    {value : Operand} {vs : List Value} {f : Frame} {c : Cell} {a : Activation}
    {outer : List Activation} {l : List (String × Nat)}
    (hvisits : m.Visits ⟨code.length, a :: outer, l⟩) (hstack : a.stack = vs.reverse)
    (hshows : List.Forall₂ f.Shows os vs)
    (hvalue : value = os.getLastD .null ∨ value = .null ∧ TopType code d code.length .nil)
    (hc : f.operand value = .ok c) : Matches (vs.reverse.headD .nil) c := by
  rcases hvalue with rfl | ⟨rfl, htop⟩
  · rcases List.eq_nil_or_concat' os with rfl | ⟨front, o, rfl⟩
    · obtain rfl := List.forall₂_nil_left_iff.mp hshows
      obtain rfl := Except.ok.inj hc
      exact .nil
    · obtain ⟨v, us, hvs, c', hc', hmatch⟩ := shows_last hshows
      rw [List.getLastD_concat, hc'] at hc
      obtain rfl := Except.ok.inj hc
      rw [hvs]
      exact hmatch
  · obtain ⟨r, below, v, rest, -, hv, hnil⟩ := u.top_cases hvisits htop
    -- Nil stands for itself, and for a definition too.
    obtain rfl : v = .nil := by
      rcases hnil with ⟨-, rfl⟩ | hty
      · rfl
      · cases v <;> first | rfl | cases hty
    obtain rfl := Except.ok.inj hc
    rw [← hstack, hv]
    exact .nil

/-- **Native code and the machine come to the same.** -/
theorem Translated.execute (x : Translated code g m statements d p) (hrun : Followable m)
    (hacyclic : ∀ a, ¬ Relation.TransGen (MethodCalls code m) a a)
    (hchains : ∀ chain : List Nat, chain.IsChain (MethodCalls code m) → chain.length ≤ 9000) :
    (∃ v c, m.run = .ok v ∧ Matches v c ∧ p.execute = .ok (c, none)) ∨
      ∃ r i c, code[r]? = some i ∧ m.run = .error (.failedAt r i .dividedByZero) ∧
        p.execute = .ok (c, some r) := by
  have u := x.program
  obtain ⟨slots, is, os, value, hmain, hemits, hvalue⟩ := x.main
  -- A chain is no longer than nine thousand methods, and no longer than there are functions.
  have hwithin : ∀ {name method}, m.methods.get? name = some method →
      Within (MethodCalls code m) (min 9000 p.functions.size) method := by
    intro name method hm
    refine within_of_chains fun chain hchain => ?_
    have hle := x.length_le_size hacyclic hm hchain
    have hle' := hchains _ hchain
    rw [List.length_cons] at hle hle'
    omega
  obtain ⟨f, hexec, -, hos⟩ := hemits.runs (p.keepsFaults_call _)
    (fun hm _ => x.answers (hwithin (u.methods_get? hm)) hm (Nat.min_le_right _ _))
    ⟨[], .empty, .empty, none⟩ nofun
  -- Native code comes to an end, whatever its slots hold.
  obtain ⟨c, hc, -⟩ : f.Has value := by
    rcases hvalue with rfl | ⟨rfl, -⟩
    · rcases List.eq_nil_or_concat' os with rfl | ⟨front, o, rfl⟩
      · exact ⟨.pointer none, rfl, trivial⟩
      · rw [List.getLastD_concat]
        exact hos o (List.mem_append_right _ (.head _))
    · exact ⟨.pointer none, rfl, trivial⟩
  have hexecute : p.execute = .ok (c, f.fault?) := by
    rw [Program.execute, hmain, Body.exec, hexec]
    change (f.operand value).bind _ = _
    rw [hc]
    rfl
  have hfollows := hemits.follows u hrun (p.keepsFaults_call _)
    (fun hm _ => x.callFollows hrun (hwithin hm) (Nat.min_le_right _ _))
    (.fresh [] none none) .initial (by simp only [List.length_nil, maxCallDepth]; omega)
    (fun _ _ hget => absurd hget.symm (Option.some_ne_none _)) rfl hexec
  -- The machine has come behind the code, or it has divided by zero on the way.
  rcases hfollows with @⟨vs, locals, calls, hvisits, hshows, -, hfault⟩ | @⟨r, hfault, hdivided⟩
  · have hstack : vs.reverse ++ (Activation.fresh [] none none).stack = vs.reverse :=
      List.append_nil _
    rw [hstack] at hvisits
    refine .inl ⟨vs.reverse.headD .nil, c, ?_, u.matches_main hvisits rfl hshows hvalue hc,
      hfault ▸ hexecute⟩
    refine run_of_end u.checked.loaded hvisits ?_
    rw [u.checked.loaded.code_eq, List.getElem?_toArray, List.getElem?_eq_none (Nat.le_refl _)]
  · obtain ⟨s, i, s', hs, rfl, hi, hstop⟩ := hdivided
    refine .inr ⟨s.next, i, c, ?_, run_of_stop u.checked.loaded hs hi hstop, hfault ▸ hexecute⟩
    rwa [u.checked.loaded.code_eq, List.getElem?_toArray] at hi

end

end Native

namespace Sample

open Native Replay

def halfRecords : List TypedRecord := halfCode.zipWith (fun i t => ⟨i, some t⟩)
  [.int, .int, .int, .int, .int, .int, .nil, .nil, .int, .int]

theorem infer_half : infer halfCode = .ok halfRecords := by decide +kernel

def halfDeclarations : Declarations := ⟨halfRecords.toArray, ⟨[(0, ⟨"half", [.word], .word⟩)]⟩⟩

/-- The argument has been fetched. -/
def halfFetched : Emission :=
  ⟨.start (some 0) [.word] ⟨[("n", .word)]⟩, [.start none [] .empty],
    ⟨[(1, ⟨.argument 0 .word, some (Names.initial.take "").1, some 0⟩)]⟩, .empty, true⟩

def halfStored : Emission := (halfFetched.reserve [""]).add (.store "n" (.argument 0 .word))

/-- The operands of the division are there. -/
def halfLoaded : Emission :=
  ((halfStored.add (.load 3 "n")).define 3 "n" (.result 3 .word)).defineConstant 4
    (.word (.ofInt 2))

def halfDivided : Emission :=
  ((halfLoaded.reserve Declarations.divisionParts).add
    (.arith 5 .divide (.result 3 .word) (.word (.ofInt 2)))).define 5 "" (.result 5 .word)

/-- The method has been closed. -/
def halfClosed : Emission := { halfDivided with
  current := .start none [] .empty
  outer := []
  bodies := ⟨[(0, ⟨⟨[("n", .word)]⟩, halfDivided.current.code.reverse, .result 5 .word⟩)]⟩ }

/-- The operands of the call are there. -/
def halfReady : Emission := (halfClosed.defineConstant 7 .null).defineConstant 8 (.word (.ofInt 9))

def halfCalled : Emission :=
  (halfReady.add (.call 9 0 [.word (.ofInt 9)])).define 9 "half_result" (.result 9 .word)

section

variable {after : Replay.State}

theorem emit_setVar_half : halfDeclarations.emit halfFetched
    ⟨2, ⟨.setVar "n", .argument "n", 1, 10⟩, .setVar 1, after⟩ = .ok halfStored := by
  have hvisible : halfFetched.current.visible =
      [((Names.initial.take "").1, .argument 0 .word)] := rfl
  have hknows : halfFetched.Knows 1 (.argument 0 .word) := by
    refine ⟨_, rfl, rfl, fun name hname => ⟨rfl, ?_⟩⟩
    rw [hvisible, ← Option.some.inj hname, List.lookup_cons_self]
    rfl
  have hslot : halfFetched.slot 2 ⟨.setVar "n", .argument "n", 1, 10⟩ "n" = .ok .word := rfl
  simp only [Declarations.emit, hslot, hknows.use, bind, Except.bind]
  rfl

theorem emit_divide_half : halfDeclarations.emit halfLoaded
    ⟨5, ⟨.send "/" (some 1), .call, 2, 5⟩, .send 3 [4], after⟩ = .ok halfDivided := by
  have hleft : halfLoaded.Knows 3 (.result 3 .word) :=
    (Emission.extends_defineConstant _ 4 _).1.knows (by decide)
      (Emission.extends_define _ 3 _ _).2
  have hright : halfLoaded.use 4 = .ok (.word (.ofInt 2), halfLoaded) := rfl
  have htype : halfDeclarations.type? 3 = some .int := rfl
  simp only [Declarations.emit, Declarations.emitSend, htype, Declarations.emitArith, hleft.use,
    hright, bind, Except.bind]
  rfl

theorem emit_defEnd_half : ∃ e, halfDeclarations.emit halfDivided
    ⟨6, ⟨.defEnd "half", .methodDef, 1, 1⟩, .defEnd 0 5, after⟩ = .ok e ∧ e = halfClosed := by
  have hknows : halfDivided.Knows 5 (.result 5 .word) := (Emission.extends_define _ 5 _ _).2
  have htype : halfDeclarations.type? 0 = some .int := rfl
  simp only [Declarations.emit, Declarations.closeMethod, Emission.finish, htype, hknows.use, bind,
    Except.bind]
  exact ⟨_, rfl, rfl⟩

end

theorem fold_half : fold halfDeclarations.emit (.initial .empty) (trace halfCode).steps =
    (halfCalled, none) := by
  obtain ⟨_, hclose, rfl⟩ := emit_defEnd_half
  -- Stage by stage: each equation emits the records up to the next one that needs a proof.
  calc fold halfDeclarations.emit (.initial .empty) (trace halfCode).steps
    _ = fold halfDeclarations.emit halfFetched ((trace halfCode).steps.drop 2) :=
      (fold_cons rfl).trans (fold_cons rfl)
    _ = fold halfDeclarations.emit halfStored ((trace halfCode).steps.drop 3) :=
      fold_cons emit_setVar_half
    _ = fold halfDeclarations.emit halfLoaded ((trace halfCode).steps.drop 5) :=
      (fold_cons rfl).trans (fold_cons rfl)
    _ = fold halfDeclarations.emit halfDivided ((trace halfCode).steps.drop 6) :=
      fold_cons emit_divide_half
    _ = fold halfDeclarations.emit halfClosed ((trace halfCode).steps.drop 7) := fold_cons hclose
    _ = fold halfDeclarations.emit halfReady ((trace halfCode).steps.drop 9) :=
      (fold_cons rfl).trans (fold_cons rfl)
    _ = (halfCalled, none) := (fold_cons rfl).trans rfl

/-- The example is compiled. -/
theorem compile_half : ∃ p, Native.compile halfRecords = .ok p := by
  have htypes : requireTypes "compile" halfRecords = .ok () := rfl
  have hclasses : refuseClasses 0 halfRecords = .ok () := rfl
  have hcode : halfRecords.map TypedRecord.instruction = halfCode := rfl
  have herror : (trace halfCode).error? = none := rfl
  -- The checks made before emission are closed facts.
  have hresult : resultRecord? (trace halfCode) = some 9 := rfl
  have hkind : kindOf 9 (halfRecords.toArray.getD 9 default) = .ok .word := rfl
  have hsignatures : signaturesFrom 0 halfRecords.toArray.toList =
      .ok [(0, ⟨"half", [.word], .word⟩)] := rfl
  have hslots : slotsFrom 0 0 .empty halfRecords.toArray.toList = .ok .empty := rfl
  have hknows : halfCalled.Knows 9 (.result 9 .word) := (Emission.extends_define _ 9 _ _).2
  obtain ⟨body, e, hfinish⟩ : ∃ b e, halfCalled.finish (some .int) .word 9 = .ok (b, e) := by
    simp only [Emission.finish, hknows.use, bind, Except.bind]
    exact ⟨_, _, rfl⟩
  have htype : halfDeclarations.type? 9 = some .int := rfl
  have hfold := fold_half
  rw [halfDeclarations] at hfold htype
  simp only [Native.compile, htypes, hclasses, hcode, herror, emitProgram, hresult, hkind,
    hsignatures, hslots, hfold, htype, hfinish, bind, Except.bind]
  exact ⟨_, rfl⟩

end Sample

end Rubylet
