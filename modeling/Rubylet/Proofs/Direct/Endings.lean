import Rubylet.Proofs.Code.Definitions
import Rubylet.Proofs.Direct.Agreement

/-!
# Programs that end in a definition

The value of a program is that of its last statement that counts, and assignments and classes do not
count (`Direct.leaves`). A method definition counts, and its value is nil. So a program that ends in
one yields nil, whatever comes before. A class at the end changes nothing: the value shows through
that the statements before it have left.

* `definition_yields_nil`: the value of a program that ends in a definition is nil, if the
  definition is a method, or if a method is the last statement before it that counts, or none does.
* `value_shows_through`: `1` and an empty class after it yield 1.
-/

namespace Rubylet

open Direct

namespace Direct

/-- The last of some statements that counts is a method definition, or none of them counts. -/
def EndsInMethod (statements : List Node) : Prop :=
  ∀ x, (statements.filter leaves).getLast? = some x → x.isMethodDef

/-- What the first statements of a program leave as its value, if they are all that is evaluated. -/
def Leave (memory : Nat) (known : List Declaration) (depth : Nat) (statements : List Node)
    (v : Value) : Prop :=
  ∃ values locals, (evalAll known (frame memory known (depth - 1) none) 0 statements).run .empty =
    .ok (values, locals) ∧ (left statements values).getLastD .nil = v

variable {known : List Declaration} {f : Frame} {xs ys : List Node} {vs : List Value}
  {memory n depth : Nat} {l l' : Locals} {x : Node} {v : Value}

theorem leaves_of_isMethodDef (h : x.isMethodDef) : leaves x := by
  cases x <;> first | rfl | cases h

theorem not_leaves_of_isClassDef (h : x.isClassDef) : ¬ leaves x := by
  cases x <;> first | exact Bool.false_ne_true | cases h

theorem endsInMethod_append_methodDef (xs : List Node) (h : x.isMethodDef) :
    EndsInMethod (xs ++ [x]) := by
  intro y hy
  rw [List.filter_append, List.filter_cons_of_pos (leaves_of_isMethodDef h), List.filter_nil,
    List.getLast?_concat] at hy
  exact Option.some.inj hy ▸ h

/-- A method definition has the value nil. -/
theorem eval_methodDef (hx : x.isMethodDef) (h : (eval known f n x).run l = .ok (v, l')) :
    v = .nil := by
  cases x with
  | methodDef pos name params body => exact (Prod.mk.inj (Except.ok.inj h)).1.symm
  | _ => cases hx

/-- The statements that count, and the values that they leave. -/
theorem forall₂_left (h : (evalAll known f n xs).run l = .ok (vs, l')) :
    List.Forall₂ (fun x v => x.isMethodDef → v = .nil) (xs.filter leaves) (left xs vs) := by
  induction xs generalizing n l vs with
  | nil => exact .nil
  | cons x xs ih =>
    obtain ⟨v, l₁, ws, hx, hxs, rfl⟩ := evalAll_cons h
    rw [left_cons]
    -- A statement that leaves a value has an entry on both sides, any other on neither.
    by_cases hleaves : leaves x
    · rw [if_pos hleaves, List.filter_cons_of_pos hleaves]
      exact .cons (fun hmethod => eval_methodDef hmethod hx) (ih hxs)
    · rw [if_neg hleaves, List.filter_cons_of_neg hleaves]
      exact ih hxs

/-- **Statements that end in a method leave nil.** -/
theorem Leave.eq_nil (h : Leave memory known depth xs v) (hends : EndsInMethod xs) : v = .nil := by
  obtain ⟨vs, l, hvs, rfl⟩ := h
  -- Statements that count and the values that they leave are compared from their ends.
  have hleft := List.forall₂_reverse_iff.mpr (forall₂_left hvs)
  unfold EndsInMethod at hends
  rw [List.getLast?_eq_head?_reverse] at hends
  rw [List.getLastD_eq_getLast?, List.getLast?_eq_head?_reverse]
  generalize (xs.filter leaves).reverse = counting at hleft hends
  generalize (left xs vs).reverse = values at hleft ⊢
  cases hleft with
  | nil => rfl
  | cons hlast _ => exact hlast (hends _ rfl)

theorem evalAll_append (h : (evalAll known f n (xs ++ ys)).run l = .ok (vs, l')) :
    ∃ us l₁ ws, (evalAll known f n xs).run l = .ok (us, l₁) ∧
      (evalAll known f (n + Node.countAll xs) ys).run l₁ = .ok (ws, l') ∧ vs = us ++ ws := by
  induction xs generalizing n l vs with
  | nil => exact ⟨[], l, vs, rfl, h, rfl⟩
  | cons x xs ih =>
    -- The head is evaluated first, and the rest splits where the first list ends.
    obtain ⟨v, l₁, ws, hx, hxs, rfl⟩ := evalAll_cons h
    obtain ⟨us, l₂, ws, hus, hws, rfl⟩ := ih hxs
    refine ⟨v :: us, l₂, ws, ?_, by rwa [Node.countAll, ← Nat.add_assoc], rfl⟩
    rw [evalAll, StateT.run_bind, hx]
    change ((evalAll known f (n + x.count) xs).run l₁ >>= _) = _
    rw [hus]
    rfl

theorem left_append (h : vs.length = xs.length) (ws : List Value) :
    left (xs ++ ys) (vs ++ ws) = left xs vs ++ left ys ws := by
  simp only [left, List.zip_append h.symm, List.filter_append, List.map_append]

/-- **A statement that does not count changes nothing**, if it comes last. -/
theorem Leave.of_append (h : Leave memory known depth (xs ++ [x]) v) (hx : ¬ leaves x) :
    Leave memory known depth xs v := by
  obtain ⟨vs, l, hvs, rfl⟩ := h
  obtain ⟨us, l₁, ws, hus, hws, rfl⟩ := evalAll_append hvs
  refine ⟨us, l₁, hus, ?_⟩
  obtain ⟨w, _, others, -, -, rfl⟩ := evalAll_cons hws
  have hnone : left [x] (w :: others) = [] := (left_cons x [] w others).trans (if_neg hx)
  rw [left_append (length_evalAll hus), hnone, List.append_nil]

theorem leave_of_run {pos : Pos} (h : Direct.run memory depth (.block pos xs) = .ok v) :
    Leave memory (declared xs) depth xs v := by
  simp only [Direct.run, statementsOf, inNewFrame, StateT.run'_eq, StateT.run_bind] at h
  generalize hx : (evalAll (declared xs) (frame memory (declared xs) (depth - 1) none) 0 xs).run
    .empty = r at h
  cases r with
  | error e => cases h
  | ok r => exact ⟨r.1, r.2, hx, Except.ok.inj h⟩

end Direct

/-! ### Programs -/

/-- **A definition at the end yields nil.** A program that ends in a method has no other value,
whatever comes before. One that ends in a class has the value that is left before the class; that is
nil if what comes before ends in a method, or leaves nothing. -/
theorem definition_yields_nil {source : String} {records : List TypedRecord} {front : List Node}
    {x : Node} {v : Value} {memory : Nat} (h : Program.typed source = .ok records)
    (hread : Syntax.read source = .ok (.block .start (front ++ [x])))
    (hv : Program.value memory .vm source = .ok v) :
    (x.isMethodDef → v = .nil) ∧
      (x.isClassDef → Leave memory (declared (front ++ [x])) Machine.maxCallDepth front v ∧
        (EndsInMethod front → v = .nil)) := by
  obtain ⟨statements, code, g, m, hread', hc, rfl⟩ := compiled_of_typed h memory
  obtain rfl := (Node.block.inj (Except.ok.inj (hread'.symm.trans hread))).2
  rw [hc.value_eq_run h, mapError_eq_ok_iff, run_eq_run hc.loaded .start] at hv
  -- The run of the machine is the direct one by now, which goes from statement to statement.
  have hleave := leave_of_run hv
  refine ⟨fun hmethod => hleave.eq_nil (endsInMethod_append_methodDef front hmethod),
    fun hclass => ?_⟩
  have hfront := hleave.of_append (not_leaves_of_isClassDef hclass)
  exact ⟨hfront, hfront.eq_nil⟩

/-- Reads a program by descent and runs it, and tests its last statement and its value. -/
def runsTo (source : String) (P : Node → Bool) (Q : Value → Bool) : Bool :=
  (Syntax.descend? source).any fun result => result.toOption.any fun root =>
    (statementsOf root).getLast?.any P && root.typed.toOption.any fun records =>
      (Program.execute Sample.memory .vm records).toOption.any Q

/-- What running a program finds out about its last statement and its value. -/
theorem exists_of_runsTo {source : String} {P : Node → Bool} {Q : Value → Bool}
    (h : runsTo source P Q) :
    ∃ records front x v, Program.typed source = .ok records ∧
      Syntax.read source = .ok (.block .start (front ++ [x])) ∧ P x ∧
      Program.value Sample.memory .vm source = .ok v ∧ Q v := by
  -- The check evaluates the stages one after the other; each case it passes names the result.
  obtain ⟨root, hread, h⟩ := Syntax.exists_of_descend h
  obtain ⟨statements, rfl, -⟩ := Syntax.surface_of_read hread
  rw [Bool.and_eq_true] at h
  obtain ⟨x, hx, hP⟩ := (Option.any_eq_true _ _).mp h.1
  obtain ⟨front, rfl⟩ := List.getLast?_eq_some_iff.mp hx
  cases hrecords : Node.typed (.block .start (front ++ [x])) with
  | error e => rw [hrecords] at h; exact nomatch h.2
  | ok records =>
    rw [hrecords] at h
    have htyped := (typed_eq_of_read hread).trans hrecords
    -- The run has ended in a value, which is the one the caller asked about.
    cases hv : Program.execute Sample.memory .vm records with
    | error e =>
      rw [Except.toOption, Option.any_some, hv] at h
      exact nomatch h.2
    | ok v =>
      rw [Except.toOption, Option.any_some, hv] at h
      refine ⟨records, front, x, v, htyped, hread, hP, ?_, h.2⟩
      rw [value_eq_execute htyped, hv]
      rfl

namespace Sample

/-- A method behind a value. -/
def methodAtEnd : String := "1\ndef one\n  1\nend\n"

/-- A class behind a value. -/
def classAtEnd : String := "1\nclass A\nend\n"

/-- The samples are run together, once. -/
theorem runs_to : runsTo methodAtEnd Node.isMethodDef (fun _ => true) ∧
    runsTo classAtEnd Node.isClassDef (fun v => v = .int 1) := by
  decide +kernel

end Sample

theorem definition_yields_nil_methodAtEnd : ∃ records front x v,
    Program.typed Sample.methodAtEnd = .ok records ∧
      Syntax.read Sample.methodAtEnd = .ok (.block .start (front ++ [x])) ∧ x.isMethodDef ∧
      Program.value Sample.memory .vm Sample.methodAtEnd = .ok v ∧ v = .nil := by
  obtain ⟨records, front, x, v, h, hread, hx, hv, -⟩ := exists_of_runsTo Sample.runs_to.1
  exact ⟨records, front, x, v, h, hread, hx, hv, (definition_yields_nil h hread hv).1 hx⟩

/-- **A value shows through** the class that comes after it. -/
theorem value_shows_through : ∃ records front x, Program.typed Sample.classAtEnd = .ok records ∧
    Syntax.read Sample.classAtEnd = .ok (.block .start (front ++ [x])) ∧ x.isClassDef ∧
    Program.value Sample.memory .vm Sample.classAtEnd = .ok (.int 1) := by
  obtain ⟨records, front, x, v, h, hread, hx, hv, hone⟩ := exists_of_runsTo Sample.runs_to.2
  exact ⟨records, front, x, h, hread, hx, by rw [hv, of_decide_eq_true hone]⟩

end Rubylet
