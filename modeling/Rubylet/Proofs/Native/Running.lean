import Mathlib.Data.List.Forall2
import Rubylet.Native.Execution
import Rubylet.Proofs.Code.Layout

/-!
# Running native code

What every piece of native code leaves alone, however it was put together (`execAll_keeps`): the
arguments, the results of other records, and a fault that is already there. So an operand has the
same value before and after code that was made for later records (`Keeps.operand`).
-/

namespace Rubylet.Native

/-- Two sequences are executed in turn. -/
theorem execAll_append (call : Caller) (xs ys : List Inst) : ∀ f : Frame,
    execAll call f (xs ++ ys) = (execAll call f xs).bind fun f => execAll call f ys := by
  induction xs with
  | nil => exact fun _ => rfl
  | cons x xs ih =>
    intro f
    rw [List.cons_append, execAll, execAll]
    cases x.exec call f with
    | error e => rfl
    | ok f => exact ih f

/-- The first part of code that is executed is executed. -/
theorem exists_of_execAll_append {call : Caller} {xs ys : List Inst} {f f' : Frame}
    (h : execAll call f (xs ++ ys) = .ok f') :
    ∃ f₁, execAll call f xs = .ok f₁ ∧ execAll call f₁ ys = .ok f' := by
  rw [execAll_append] at h
  exact exists_of_bind_eq_ok h

theorem execAll_append_of_eq_ok {call : Caller} {xs ys : List Inst} {f f₁ : Frame}
    (h : execAll call f xs = .ok f₁) : execAll call f (xs ++ ys) = execAll call f₁ ys := by
  rw [execAll_append, h]
  rfl

theorem execAll_singleton (call : Caller) (f : Frame) (i : Inst) :
    execAll call f [i] = i.exec call f := by
  rw [execAll]
  cases i.exec call f <;> rfl

mutual

/-- The records whose results an instruction writes. -/
def Inst.records : Inst → List Nat
  | .store _ _ => []
  | .load record _ | .arith record _ _ _ | .call record _ _ => [record]
  | .branch record _ first _ second _ => record :: (recordsOf first ++ recordsOf second)

/-- The records whose results instructions write. -/
def recordsOf : List Inst → List Nat
  | [] => []
  | i :: rest => i.records ++ recordsOf rest

end

theorem recordsOf_append (xs ys : List Inst) :
    recordsOf (xs ++ ys) = recordsOf xs ++ recordsOf ys := by
  induction xs with
  | nil => rfl
  | cons x xs ih => rw [List.cons_append, recordsOf, recordsOf, ih, List.append_assoc]

/-- A way of calling functions loses no fault. -/
def KeepsFaults (call : Caller) : Prop :=
  ∀ {method args fault? cell fault'?}, call method args fault? = .ok (cell, fault'?) →
    ∀ r, fault? = some r → fault'? = some r

/-- One frame came out of another by writing the results of some records. -/
structure Frame.Keeps (f f' : Frame) (written : List Nat) : Prop where
  args : f'.args = f.args
  results : ∀ r, r ∉ written → f'.results.get? r = f.results.get? r
  fault : ∀ r, f.fault? = some r → f'.fault? = some r

namespace Frame.Keeps

variable {f f' f'' : Frame} {written written' : List Nat}

theorem refl (f : Frame) : f.Keeps f [] := ⟨rfl, fun _ _ => rfl, fun _ h => h⟩

theorem trans (h : f.Keeps f' written) (h' : f'.Keeps f'' written') :
    f.Keeps f'' (written ++ written') := by
  refine ⟨h'.args.trans h.args, fun r hr => ?_, fun r hr => h'.fault r (h.fault r hr)⟩
  -- A result that neither part writes is kept by both.
  rw [List.mem_append, not_or] at hr
  rw [h'.results r hr.2, h.results r hr.1]

theorem mono (h : f.Keeps f' written) (hw : ∀ r ∈ written, r ∈ written') :
    f.Keeps f' written' :=
  ⟨h.args, fun r hr => h.results r fun hmem => hr (hw r hmem), h.fault⟩

theorem setResult (f : Frame) (n : Nat) (c : Cell) : f.Keeps (f.setResult n c) [n] := by
  refine ⟨rfl, fun r hr => ?_, fun _ h => h⟩
  have hne : n ≠ r := fun heq => hr (List.mem_singleton.mpr heq.symm)
  rw [Frame.setResult, Table.get?_set, if_neg hne]

theorem flag (f : Frame) (n : Nat) : f.Keeps (f.flag n) [] := by
  refine ⟨rfl, fun _ _ => rfl, fun r hr => ?_⟩
  rw [Frame.flag, hr]
  rfl

end Frame.Keeps

/-- An operator writes its own record and nothing else. -/
theorem keeps_arith {f f' : Frame} {n : Nat} {op : Arith} {a b : Cell}
    (h : f.arith n op a b = .ok f') : f.Keeps f' [n] := by
  unfold Frame.arith at h
  -- A zero divisor is flagged before the result is written.
  split at h
  · obtain rfl := Except.ok.inj h
    split
    · exact (Frame.Keeps.flag f n).trans (.setResult _ n _)
    · exact .setResult f n _
  · cases h
  · cases h
  · obtain rfl := Except.ok.inj h
    exact .setResult f n _

mutual

theorem Inst.exec_keeps {call : Caller} (hc : KeepsFaults call) {f f' : Frame} :
    ∀ i : Inst, i.exec call f = .ok f' → f.Keeps f' i.records
  | .store name value, h => by
    rw [Inst.exec] at h
    obtain ⟨c, -, h⟩ := exists_of_bind_eq_ok h
    obtain rfl := Except.ok.inj h
    exact ⟨rfl, fun _ _ => rfl, fun _ h => h⟩
  | .load record name, h => by
    obtain rfl := Except.ok.inj h
    exact .setResult f record _
  | .arith record op left right, h => by
    rw [Inst.exec] at h
    obtain ⟨a, -, h⟩ := exists_of_bind_eq_ok h
    obtain ⟨b, -, h⟩ := exists_of_bind_eq_ok h
    exact keeps_arith h
  | .call record method args, h => by
    rw [Inst.exec] at h
    obtain ⟨cells, -, h⟩ := exists_of_bind_eq_ok h
    obtain ⟨⟨cell, fault?⟩, hcall, h⟩ := exists_of_bind_eq_ok h
    obtain rfl := Except.ok.inj h
    have hfault : f.Keeps { f with fault? } [] := ⟨rfl, fun _ _ => rfl, hc hcall⟩
    exact hfault.trans (.setResult _ record cell)
  | .branch record taken first firstValue second secondValue, h => by
    rw [Inst.exec] at h
    split at h
    · obtain ⟨f₁, hfirst, h⟩ := exists_of_bind_eq_ok h
      obtain ⟨c, -, h⟩ := exists_of_bind_eq_ok h
      obtain rfl := Except.ok.inj h
      -- The records of the branch that is not taken are counted too, though it writes nothing.
      refine ((execAll_keeps hc first hfirst).trans (.setResult f₁ record c)).mono ?_
      grind [Inst.records]
    · obtain ⟨f₁, hsecond, h⟩ := exists_of_bind_eq_ok h
      obtain ⟨c, -, h⟩ := exists_of_bind_eq_ok h
      obtain rfl := Except.ok.inj h
      refine ((execAll_keeps hc second hsecond).trans (.setResult f₁ record c)).mono ?_
      grind [Inst.records]

/-- **What code leaves alone**: all but the slots and the results that it writes. -/
theorem execAll_keeps {call : Caller} (hc : KeepsFaults call) {f f' : Frame} :
    ∀ is : List Inst, execAll call f is = .ok f' → f.Keeps f' (recordsOf is)
  | [], h => by
    obtain rfl := Except.ok.inj h
    exact .refl f
  | i :: rest, h => by
    rw [execAll] at h
    obtain ⟨f₁, hi, h⟩ := exists_of_bind_eq_ok h
    exact (Inst.exec_keeps hc i hi).trans (execAll_keeps hc rest h)

end

/-- Functions lose no fault. -/
theorem Program.keepsFaults_call (p : Program) : ∀ depth, KeepsFaults (p.call depth) := by
  intro depth
  induction depth with
  | zero => exact nofun
  | succ depth ih =>
    intro method args fault? cell fault'? h r hr
    rw [Program.call] at h
    cases hf : p.functions.get? method with
    | none => rw [hf] at h; cases h
    | some function =>
      rw [hf] at h
      obtain ⟨f, hexec, h⟩ := exists_of_bind_eq_ok h
      obtain ⟨c, -, h⟩ := exists_of_bind_eq_ok h
      obtain ⟨-, rfl⟩ := Prod.mk.inj (Except.ok.inj h)
      -- The function starts with the fault that its caller has.
      exact (execAll_keeps ih _ hexec).fault r hr

/-! ### Operands -/

/-- An operand is known before a record. -/
def Operand.Before (n : Nat) : Operand → Prop
  | .result r _ => r < n
  | _ => True

theorem Operand.Before.mono {o : Operand} {n n' : Nat} (h : o.Before n) (hn : n ≤ n') :
    o.Before n' := by
  cases o with
  | result r kind => exact Nat.lt_of_lt_of_le h hn
  | _ => trivial

/-- An operand keeps its value while later records are computed. -/
theorem Frame.Keeps.operand {f f' : Frame} {written : List Nat} {o : Operand} {n : Nat}
    (h : f.Keeps f' written) (ho : o.Before n) (hw : ∀ r ∈ written, n ≤ r) :
    f'.operand o = f.operand o := by
  cases o with
  | result r kind =>
    have hlt : r < n := ho
    rw [Frame.operand, h.results r fun hmem => by have := hw r hmem; omega]
    rfl
  | argument index kind => rw [Frame.operand, h.args]; rfl
  | _ => rfl

/-- Operands are read one by one. -/
theorem operands_eq_ok_iff {f : Frame} : ∀ {os : List Operand} {cells : List Cell},
    f.operands os = .ok cells ↔ List.Forall₂ (fun o c => f.operand o = .ok c) os cells := by
  intro os
  -- On the operands: the first is read, and then the rest.
  induction os with
  | nil =>
    intro cells
    rw [List.forall₂_nil_left_iff]
    constructor
    · intro h
      exact (Except.ok.inj h).symm
    · rintro rfl
      rfl
  | cons o os ih =>
    intro cells
    rw [Frame.operands, List.mapM_cons]
    constructor
    · intro h
      obtain ⟨c, hc, h⟩ := exists_of_bind_eq_ok h
      obtain ⟨cs, hcs, h⟩ := exists_of_bind_eq_ok h
      obtain rfl := Except.ok.inj h
      exact .cons hc (ih.mp hcs)
    · intro h
      cases h with
      | @cons _ c _ cs hc hcs =>
        have hrest : os.mapM f.operand = .ok cs := ih.mpr hcs
        rw [hc, hrest]
        rfl

theorem operand_setResult (f : Frame) (n : Nat) (kind : Kind) (c : Cell) :
    (f.setResult n c).operand (.result n kind) = .ok c := by
  rw [Frame.operand, Frame.setResult, Table.get?_set_self]

end Rubylet.Native
