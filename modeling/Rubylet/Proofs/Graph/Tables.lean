import Mathlib.Logic.Function.Iterate
import Rubylet.Graph.Index

/-!
# The tables of an index

What each way of learning does to each table of an `Index`. A definition touches the methods and
its own number of parameters, a class only the classes, a parameter only the number of parameters
of its definition, a call only the two tables of calls.

`findMethod_define` is the law with the most content: after a definition its name means it in its
own class (or outside classes), and every other name in every class means what it did.
-/

namespace Rubylet.Index

variable (x : Index) (name : String)

/-! ### Classes -/

section OpenClass

variable (n : Nat) (l : Int)

@[simp] theorem methods_openClass : (x.openClass n name l).methods = x.methods := by
  unfold openClass; split <;> rfl

@[simp] theorem callers_openClass : (x.openClass n name l).callers = x.callers := by
  unfold openClass; split <;> rfl

@[simp] theorem arity_openClass : (x.openClass n name l).arity = x.arity := by
  unfold openClass; split <;> rfl

@[simp] theorem calls_openClass : (x.openClass n name l).calls = x.calls := by
  unfold openClass; split <;> rfl

theorem classes_openClass (c : String) :
    (x.openClass n name l).classes.get? c =
      if name = c ∧ x.classes.get? c = none then some ⟨n, .empty⟩ else x.classes.get? c := by
  unfold openClass
  -- A class that is there already keeps its record and its methods.
  split
  · next h =>
    rw [Table.contains] at h
    rw [if_neg]
    · rfl
    · rintro ⟨rfl, hc⟩
      simp [hc] at h
  · next h =>
    rw [Table.contains, Bool.not_eq_true, Option.isSome_eq_false_iff, Option.isNone_iff_eq_none] at h
    simp only [Table.get?_set]
    by_cases hc : name = c
    · subst hc; simp [h]
    · simp [hc]

theorem isSome_classes_openClass (c : String) :
    ((x.openClass n name l).classes.get? c).isSome =
      (decide (name = c) || (x.classes.get? c).isSome) := by
  rw [classes_openClass]
  by_cases hc : name = c
  · cases x.classes.get? c <;> simp [hc]
  · simp [hc]

/-- Opening a class changes no method. -/
theorem findMethod_openClass (other : String) (c : Option String) :
    (x.openClass n name l).findMethod other c = x.findMethod other c := by
  cases c with
  | none => rw [findMethod, methodsOf, methods_openClass]; rfl
  | some c =>
    rw [findMethod, findMethod, methodsOf, methodsOf, classes_openClass]
    split
    · next h => rw [h.2]; rfl
    · rfl

end OpenClass

/-! ### Definitions -/

section Define

variable (n : Nat) (owner : Option String) (l : Int)

@[simp] theorem callers_define : (x.define n name owner l).callers = x.callers := by
  unfold define setMethod; dsimp only; repeat' split
  all_goals rfl

@[simp] theorem calls_define : (x.define n name owner l).calls = x.calls := by
  unfold define setMethod; dsimp only; repeat' split
  all_goals rfl

theorem arity_define : (x.define n name owner l).arity = x.arity.set n 0 := by
  unfold define setMethod; dsimp only; repeat' split
  all_goals rfl

/-- **What a name means after a definition**, in every class and outside of them. A definition in a
class that is not there is lost. -/
theorem findMethod_define (other : String) (c : Option String)
    (h : ∀ o, owner = some o → (x.classes.get? o).isSome) :
    (x.define n name owner l).findMethod other c =
      if c = owner ∧ name = other then some n else x.findMethod other c := by
  -- A warning may be noted first, which touches none of the tables.
  obtain ⟨y, hy, hm, hc⟩ : ∃ y : Index, x.define n name owner l =
      { y.setMethod name n owner with arity := (y.setMethod name n owner).arity.set n 0 } ∧
      y.methods = x.methods ∧ y.classes = x.classes := by
    refine ⟨_, rfl, ?_, ?_⟩ <;> split <;> rfl
  rw [hy]
  cases owner with
  | none =>
    cases c with
    | none =>
      simp only [findMethod, methodsOf, setMethod, Table.get?_set, hm]
      simp
    | some c => simp [findMethod, methodsOf, setMethod, hc]
  | some o =>
    obtain ⟨info, hinfo⟩ := Option.isSome_iff_exists.mp (h o rfl)
    rw [← hc] at hinfo
    simp only [setMethod, hinfo]
    cases c with
    | none => simp [findMethod, methodsOf, hm]
    | some c =>
      simp only [findMethod, methodsOf, Table.get?_set, ← hc, Option.some.injEq]
      by_cases ho : o = c
      · subst ho; simp [hinfo, Table.get?_set]
      · simp [ho, Ne.symm ho]

/-- A method that is found after a definition is the one defined, or was found before. -/
theorem findMethod_define_cases {other : String} {c : Option String} {d : Nat}
    (h : (x.define n name owner l).findMethod other c = some d) :
    (c = owner ∧ name = other ∧ d = n) ∨ x.findMethod other c = some d := by
  -- The class of the definition is known, unless the definition is dropped.
  by_cases hin : ∀ o, owner = some o → (x.classes.get? o).isSome
  · rw [findMethod_define _ _ _ _ _ _ _ hin] at h
    split at h
    · next heq => exact .inl ⟨heq.1, heq.2, (Option.some.inj h).symm⟩
    · exact .inr h
  · -- The definition is lost.
    cases owner with
    | none => exact absurd (fun _ h => nomatch h) hin
    | some o =>
      have hnone : x.classes.get? o = none := by
        cases hget : x.classes.get? o with
        | none => rfl
        | some info => exact absurd (fun p hp => by obtain rfl := Option.some.inj hp; simp [hget]) hin
      have hnew : (x.methodsOf (some o)).contains name = false := by
        simp [methodsOf, hnone, Table.contains]
      simp only [define, hnew, Bool.false_eq_true, if_false, setMethod, hnone] at h
      refine .inr ?_
      cases c <;> exact h

/-- A definition adds no class. -/
theorem classes_define (c : String) :
    ((x.define n name owner l).classes.get? c).map ClassInfo.definition =
      (x.classes.get? c).map ClassInfo.definition := by
  have hnote : ∀ (y : Index) (m : Notice), (y.note m).classes = y.classes := fun _ _ => rfl
  unfold define
  dsimp only
  generalize hy : (if ((x.methodsOf owner).contains name) = true then
    x.note (.redefinedMethod name l) else x) = y
  have hc : y.classes = x.classes := by rw [← hy]; split <;> simp [hnote]
  -- A class that is there gets one more method, and keeps its own record.
  cases owner with
  | none => rw [setMethod, hc]
  | some o =>
    rw [setMethod]
    cases ho : y.classes.get? o with
    | none => rw [hc]
    | some info =>
      simp only [Table.get?_set, hc] at ho ⊢
      by_cases h : o = c
      · subst h; simp [ho]
      · simp [h]

theorem isSome_classes_define (c : String) :
    ((x.define n name owner l).classes.get? c).isSome = (x.classes.get? c).isSome := by
  have h := congrArg Option.isSome (x.classes_define name n owner l c)
  rwa [Option.isSome_map, Option.isSome_map] at h

end Define

/-! ### Parameters and calls -/

theorem arity_countParam (n k : Nat) :
    (x.countParam n).arity.get? k =
      if n = k then some ((x.arity.get? k).getD 0 + 1) else x.arity.get? k := by
  simp only [countParam, Table.get?_set]
  split
  · next h => rw [h]
  · rfl

theorem arity_iterate_countParam_self {n c : Nat} (h : x.arity.get? n = some c) (k : Nat) :
    ((countParam · n)^[k] x).arity.get? n = some (c + k) := by
  induction k generalizing x c with
  | zero => exact h
  | succ k ih =>
    rw [Function.iterate_succ_apply, ih (x.countParam n) (c := c + 1), Nat.add_right_comm]
    · rfl
    · rw [arity_countParam, if_pos rfl, h]
      rfl

theorem arity_iterate_countParam_of_ne {n d : Nat} (h : n ≠ d) (k : Nat) :
    ((countParam · n)^[k] x).arity.get? d = x.arity.get? d := by
  induction k generalizing x with
  | zero => rfl
  | succ k ih => rw [Function.iterate_succ_apply, ih, arity_countParam, if_neg h]

theorem callers_addCall (n : Nat) (info : CallInfo) (other : String) :
    ((x.addCall n name info).callers.get? other).getD [] =
      (x.callers.get? other).getD [] ++ if name = other then [n] else [] := by
  simp only [addCall, Table.get?_set]
  split
  · next h => simp [h]
  · simp

theorem calls_addCall (n : Nat) (info : CallInfo) (k : Nat) :
    (x.addCall n name info).calls.get? k = if n = k then some info else x.calls.get? k := by
  simp only [addCall, Table.get?_set]

end Rubylet.Index
