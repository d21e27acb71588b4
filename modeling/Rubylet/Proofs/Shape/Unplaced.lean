import Rubylet.Proofs.Code.Compiled
import Rubylet.Proofs.Machine.Runs
import Rubylet.Proofs.Shape.Run
import Rubylet.Proofs.Syntax.Replacing

/-!
# Code without its positions

Two programs whose syntax differs in nothing but where it stands are compiled alike. A shape forgets
literals as well; here they are kept, so the values of both programs are compared, too.

* `lowersAlike_likeness`: to be lowered to the same instructions, up to positions, is a likeness.
  Blocks may stand anywhere, and so may conditionals (`LowersAlike.conditional`).
* `infer_unplaced`: positions make no difference to the types of code,
* `execute_unplaced`: nor to its value, and none to its failure but for the place of it.
-/

namespace Rubylet

/-- An instruction without its position. -/
def Instruction.unplaced (i : Instruction) : Instruction := ⟨i.op, i.origin.kind, .start⟩

@[simp] theorem Instruction.op_unplaced (i : Instruction) : i.unplaced.op = i.op := rfl

/-- Some code without its positions. -/
def unplacedAll (code : List Instruction) : List Instruction := code.map Instruction.unplaced

@[simp] theorem unplacedAll_append (code code' : List Instruction) :
    unplacedAll (code ++ code') = unplacedAll code ++ unplacedAll code' := List.map_append

/-- A record without its position. -/
def TypedRecord.unplaced (r : TypedRecord) : TypedRecord :=
  { r with instruction := r.instruction.unplaced }

/-- An error of a run without its position. -/
def RunError.unplaced : RunError → RunError
  | .failed e => .failed { e with pos := .start }
  | e => e

/-! ### Lowering -/

namespace Lowering

/-- The same code up to positions, or the same error. -/
def Same {ε : Type} (x y : Except ε (List Instruction)) : Prop :=
  x.map unplacedAll = y.map unplacedAll

variable {ε ε' : Type} {x y : Node} {xs ys : List Node} {inside : Option String}

theorem Same.ok {code code' : List Instruction} (h : unplacedAll code = unplacedAll code') :
    Same (.ok code : Except ε _) (.ok code') := congrArg Except.ok h

/-- Errors may be renamed on both sides. -/
theorem Same.mapError {x y : Except ε (List Instruction)} (f : ε → ε') (h : Same x y) :
    Same (x.mapError f) (y.mapError f) := by
  -- Both are errors, and the same one, or neither is.
  cases x with
  | error e =>
    cases y with
    | error e' =>
      obtain rfl := Except.error.inj h
      rfl
    | ok code' => cases h
  | ok code =>
    cases y with
    | error e => cases h
    | ok code' => exact congrArg Except.ok (Except.ok.inj h)

/-- Two stages in turn give the same when each does. -/
theorem Same.bind {x y : Except ε (List Instruction)}
    {f g : List Instruction → Except ε (List Instruction)} (h : Same x y)
    (hf : ∀ code code', unplacedAll code = unplacedAll code' → Same (f code) (g code')) :
    Same (x >>= f) (y >>= g) := by
  -- The first part decides for both whether the second is reached.
  cases x with
  | error e =>
    cases y with
    | error e' =>
      obtain rfl := Except.error.inj h
      rfl
    | ok code' => cases h
  | ok code =>
    cases y with
    | error e => cases h
    | ok code' => exact hf code code' (Except.ok.inj h)

/-- Two pieces of syntax are lowered to the same code up to positions, also as bodies. -/
structure LowersAlike (x y : Node) : Prop where
  lowered (inside : Option String) : Same (lower inside x) (lower inside y)
  closed : unplacedAll (closing x) = unplacedAll (closing y)
  body (inside : Option String) (owner owner' : Origin) :
    Same (lowerBody inside owner (some x)) (lowerBody inside owner' (some y))

theorem LowersAlike.refl (x : Node) : LowersAlike x x where
  lowered _ := rfl
  closed := rfl
  body inside owner owner' := by
    cases x with
    | block pos xs => cases xs <;> rfl
    | _ => rfl

/-- What is no block is one statement of a body. -/
def IsStatement (x : Node) : Prop := ∀ inside owner, lowerBody inside owner (some x) =
  lower inside x >>= fun code => pure (code ++ closing x)

/-- Statements that lower to the same and close in the same way lower alike. -/
theorem LowersAlike.of_statements (hx : IsStatement x) (hy : IsStatement y)
    (hlower : ∀ inside, Same (lower inside x) (lower inside y))
    (hclose : unplacedAll (closing x) = unplacedAll (closing y)) : LowersAlike x y where
  lowered := hlower
  closed := hclose
  body inside owner owner' := by
    rw [hx, hy]
    refine (hlower inside).bind fun code code' h => .ok ?_
    rw [unplacedAll_append, unplacedAll_append, h, hclose]

section Parts

variable (h : List.Forall₂ LowersAlike xs ys)

include h

/-- Lists whose statements lower alike lower alike. -/
theorem lowerAll_same (inside : Option String) :
    Same (lowerAll inside xs) (lowerAll inside ys) := by
  induction h with
  | nil => rfl
  | cons hx _ ih =>
    refine (hx.lowered inside).bind fun first first' hfirst =>
      ih.bind fun others others' hothers => .ok ?_
    rw [unplacedAll_append, unplacedAll_append, hfirst, hothers]

/-- Lists whose statements lower alike close alike. -/
theorem closingLast_same : unplacedAll (closingLast xs) = unplacedAll (closingLast ys) := by
  induction h with
  | nil => rfl
  | cons hx hxs ih =>
    cases hxs with
    | nil => exact hx.closed
    | cons => simpa only [closingLast, List.getLast?_cons_cons] using ih

end Parts

/-- Receivers that lower alike, or none on either side, are lowered to the same. -/
theorem lowerReceiver_same {r r' : Option Node} (h : Option.Rel LowersAlike r r') (pos : Pos) :
    Same (lowerReceiver inside pos r) (lowerReceiver inside pos r') := by
  cases h with
  | none => rfl
  | some hx => exact hx.lowered inside

/-- Bodies that lower alike are lowered to the same, and an empty one stands where its owner does.
-/
theorem lowerBody_same {b b' : Option Node} (h : Option.Rel LowersAlike b b')
    (owner owner' : Origin) (howner : owner.kind = owner'.kind) :
    Same (lowerBody inside owner b) (lowerBody inside owner' b') := by
  cases h with
  | none => exact .ok (by simp [unplacedAll, Instruction.unplaced, howner])
  | some hx => exact hx.body inside owner owner'

namespace LowersAlike

/-- Blocks may stand anywhere. -/
theorem block (pos pos' : Pos) (h : List.Forall₂ LowersAlike xs ys) :
    LowersAlike (.block pos xs) (.block pos' ys) where
  lowered inside := lowerAll_same h inside
  closed := rfl
  body inside owner owner' := by
    cases h with
    | nil => rfl
    | cons hx hxs =>
      have h := List.Forall₂.cons hx hxs
      refine (lowerAll_same h inside).bind fun code code' hcode => .ok ?_
      rw [unplacedAll_append, unplacedAll_append, hcode, closingLast_same h]

/-- Calls lower alike when their receivers and arguments do. -/
theorem call (pos : Pos) (name : String) {r r' : Option Node} (hr : Option.Rel LowersAlike r r')
    (h : List.Forall₂ LowersAlike xs ys) :
    LowersAlike (.call pos r name xs) (.call pos r' name ys) := by
  refine .of_statements (fun _ _ => rfl) (fun _ _ => rfl) (fun inside => ?_) rfl
  refine (lowerReceiver_same hr pos).bind fun receiver receiver' hreceiver =>
    (lowerAll_same h inside).bind fun operands operands' hoperands => .ok ?_
  rw [unplacedAll_append, unplacedAll_append, unplacedAll_append, unplacedAll_append, hreceiver,
    hoperands, h.length_eq]

/-- Methods lower alike when their bodies do. -/
theorem methodDef (pos : Pos) (name : String) (params : List Param) (h : LowersAlike x y) :
    LowersAlike (.methodDef pos name params (some x)) (.methodDef pos name params (some y)) := by
  refine .of_statements (fun _ _ => rfl) (fun _ _ => rfl) (fun inside => ?_) rfl
  exact (h.body inside _ _).bind fun body body' hbody =>
    .ok (by simp only [unplacedAll_append, hbody])

/-- Classes lower alike when their bodies do. -/
theorem classDef (pos : Pos) (name : String) (h : LowersAlike x y) :
    LowersAlike (.classDef pos name x) (.classDef pos name y) := by
  refine .of_statements (fun _ _ => rfl) (fun _ _ => rfl) (fun inside => ?_) rfl
  cases inside with
  | some outer => rfl
  | none =>
    exact (h.lowered (some name)).bind fun body body' hbody =>
      .ok (by simp only [unplacedAll_append, hbody])

/-- Conditionals may stand anywhere. -/
theorem conditional (pos pos' : Pos) {c c' : Node} {b b' : Option Node} (hc : LowersAlike c c')
    (h : LowersAlike x y) (hb : Option.Rel LowersAlike b b') :
    LowersAlike (.conditional pos c (some x) b) (.conditional pos' c' (some y) b') := by
  refine .of_statements (fun _ _ => rfl) (fun _ _ => rfl) (fun inside => ?_) rfl
  refine (hc.lowered inside).bind fun condition condition' hcondition =>
    (h.body inside _ _).bind fun thenBody thenBody' hthen =>
    (lowerBody_same hb ⟨.conditional, pos⟩ ⟨.conditional, pos'⟩ rfl).bind
      fun elseBody elseBody' helse => .ok ?_
  simp only [unplacedAll_append, hcondition, hthen, helse]
  rfl

/-- Assignments lower alike when their values do. -/
theorem assign (pos : Pos) (name : String) (h : LowersAlike x y) :
    LowersAlike (.assign pos name x) (.assign pos name y) := by
  refine .of_statements (fun _ _ => rfl) (fun _ _ => rfl) (fun inside => ?_) rfl
  exact (h.lowered inside).bind fun value value' hvalue =>
    .ok (by simp only [unplacedAll_append, hvalue])

end LowersAlike

/-- **To be lowered alike goes from parts to wholes**, wherever bodies begin. -/
theorem lowersAlike_likeness : Syntax.Likeness LowersAlike fun _ _ => True where
  refl := .refl
  startRefl _ := trivial
  startOr _ _ := trivial
  block _ _ _ _ _ _ := .block _ _
  call pos name := .call pos name
  methodDef pos name params := .methodDef pos name params
  classDef pos name := .classDef pos name
  conditional pos := .conditional pos pos
  assign pos name := .assign pos name

/-- Programs whose statements are lowered alike are lowered alike. -/
theorem program_same (pos pos' : Pos) (h : List.Forall₂ LowersAlike xs ys) :
    Same (program (.block pos xs)) (program (.block pos' ys)) := lowerAll_same h none

end Lowering

/-! ### Types -/

theorem map_shape_unplacedAll (code : List Instruction) :
    (unplacedAll code).map Instruction.shape = code.map Instruction.shape := by
  rw [unplacedAll, List.map_map]
  rfl

/-- Records are told by their instructions and their types. -/
theorem records_ext {records records' : List TypedRecord}
    (h : records.map (Instruction.unplaced ∘ TypedRecord.instruction) =
      records'.map (Instruction.unplaced ∘ TypedRecord.instruction))
    (htypes : records.map TypedRecord.type? = records'.map TypedRecord.type?) :
    records.map TypedRecord.unplaced = records'.map TypedRecord.unplaced := by
  induction records generalizing records' with
  | nil => rw [List.map_eq_nil_iff.mp h.symm]
  | cons r records ih =>
    -- Record by record, since both lists are equally long.
    obtain ⟨r', records', rfl, hr, hrest⟩ := List.map_eq_cons_iff.mp h.symm
    obtain ⟨htype, htypes⟩ := List.cons.inj htypes
    rw [List.map_cons, List.map_cons, ih hrest.symm htypes]
    exact congrArg (· :: _) (congrArg₂ TypedRecord.mk hr.symm htype)

/-- **Positions make no difference to types.** Code that differs in nothing else has the same typed
records up to positions, or none at all. -/
theorem infer_unplaced {code code' : List Instruction} (h : unplacedAll code = unplacedAll code') :
    (infer code).toOption.map (List.map TypedRecord.unplaced) =
      (infer code').toOption.map (List.map TypedRecord.unplaced) := by
  have hshape : code.map Instruction.shape = code'.map Instruction.shape := by
    rw [← map_shape_unplacedAll, h, map_shape_unplacedAll]
  -- Inference reads shapes only, so it fails for both or for neither.
  cases hr : infer code with
  | error e =>
    cases hr' : infer code' with
    | error e' => rfl
    | ok records' =>
      obtain ⟨records, hr'', -⟩ := infer_shape hshape.symm hr'
      rw [hr] at hr''
      cases hr''
  | ok records =>
    obtain ⟨records', hr', htypes⟩ := infer_shape hshape hr
    obtain ⟨g, hg⟩ := exists_build_of_infer hr
    obtain ⟨g', hg'⟩ := exists_build_of_infer hr'
    rw [hr', toOption_ok, toOption_ok, Option.map_some, Option.map_some]
    refine congrArg some (records_ext ?_ htypes.symm)
    rw [← List.map_map, ← List.map_map, map_instruction_of_infer hg hr,
      map_instruction_of_infer hg' hr']
    exact h

/-! ### Values -/

namespace Machine

/-- A machine without the positions of its code. -/
def unplaced (m : Machine) : Machine := { m with code := m.code.map Instruction.unplaced }

/-- What a step leads to, without a position. -/
def Progress.unplaced : Progress → Progress
  | .next s => .next s
  | .stop e s => .stop e.unplaced s

/-- How far a run came, without a position. -/
def Outcome.unplaced : Outcome → Outcome
  | .paused s => .paused s
  | .ended r s => .ended (r.mapError RunError.unplaced) s

variable {m : Machine}

theorem methodName_unplaced (d : Nat) : m.unplaced.methodName d = m.methodName d := by
  rw [methodName, methodName, unplaced, Array.getElem?_map]
  cases m.code[d]? <;> rfl

/-- A call goes the same way wherever it stands. -/
theorem send_unplaced (i : Instruction) (name : String) (s : State) (a : Activation)
    (outer : List Activation) :
    (m.unplaced.send i.unplaced name s a outer).unplaced = (m.send i name s a outer).unplaced := by
  rw [send, send, Instruction.op_unplaced]
  generalize takeArgs i.op.argCount a.stack = taken
  -- Without a receiver the machine faults, wherever the call stands.
  obtain ⟨args, _ | ⟨receiver, stack⟩⟩ := taken
  · rfl
  · dsimp only
    rw [show m.unplaced.react a.owner name receiver args = m.react a.owner name receiver args from
      rfl]
    cases m.react a.owner name receiver args with
    | call d owner =>
      dsimp only
      rw [methodName_unplaced]
      split <;> rfl
    | _ => rfl

/-- A step uses a position for nothing but the error that it stops with. -/
theorem step_unplaced (i : Instruction) (s : State) :
    (m.unplaced.step i.unplaced s).unplaced = (m.step i s).unplaced := by
  unfold step
  cases s.frames with
  | nil => rfl
  | cons a outer =>
    rw [Instruction.op_unplaced]
    cases i.op with
    | send name count => exact send_unplaced i name s a outer
    | _ => rfl

/-- A machine runs the same way wherever its instructions come from. -/
theorem runFor_unplaced (k : Nat) :
    ∀ s, (m.unplaced.runFor k s).unplaced = (m.runFor k s).unplaced := by
  induction k with
  | zero => exact fun _ => rfl
  | succ k ih =>
    intro s
    have hcode : m.unplaced.code[s.next]? = (m.code[s.next]?).map Instruction.unplaced :=
      Array.getElem?_map ..
    rw [runFor, runFor, hcode]
    cases m.code[s.next]? with
    | none => rfl
    | some i =>
      have hstep := step_unplaced (m := m) i s
      rw [Option.map_some]
      dsimp only
      -- Both steps go on with one state, or both stop with one error up to its position.
      cases h : m.step i s with
      | next s' =>
        rw [h] at hstep
        cases h' : m.unplaced.step i.unplaced s with
        | next s'' =>
          obtain rfl := Progress.next.inj (h' ▸ hstep)
          exact ih s''
        | stop e s'' => rw [h'] at hstep; cases hstep
      | stop e s' =>
        rw [h] at hstep
        cases h' : m.unplaced.step i.unplaced s with
        | next s'' => rw [h'] at hstep; cases hstep
        | stop e' s'' =>
          rw [h'] at hstep
          obtain ⟨he, rfl⟩ := Progress.stop.inj hstep
          exact congrArg (fun e => Outcome.ended (.error e) s'') he

/-- A run ends the same way without positions. -/
theorem run_unplaced :
    m.unplaced.run.mapError RunError.unplaced = m.run.mapError RunError.unplaced := by
  have hvalue (o : Outcome) : o.value.mapError RunError.unplaced = o.unplaced.value := by
    cases o <;> rfl
  have hrounds : m.unplaced.rounds = m.rounds := by
    rw [rounds, rounds, unplaced, Array.size_map]
  rw [run, run, hvalue, hvalue, outcome, outcome, runRounds_eq, runRounds_eq, hrounds,
    runFor_unplaced]

/-- The loader looks at operations only. -/
theorem learnAll_unplaced (code : List Instruction) (l : Loading) (n : Nat) :
    l.learnAll n (unplacedAll code) = l.learnAll n code := by
  rw [← learnAll_shape, map_shape_unplacedAll, learnAll_shape]

/-- Which record lacks a type does not depend on places. -/
theorem requireTypes_unplaced (verb : String) (records : List TypedRecord) :
    (requireTypes verb (records.map TypedRecord.unplaced)).mapError RunError.unplaced =
      (requireTypes verb records).mapError RunError.unplaced := by
  have huntyped : firstUntyped? (records.map TypedRecord.unplaced) =
      (firstUntyped? records).map fun (n, r) => (n, r.unplaced) := by
    rw [firstUntyped?, firstUntyped?, List.zipIdx_map, List.find?_map, Option.map_map,
      Option.map_map]
    rfl
  rw [requireTypes, requireTypes, huntyped]
  cases firstUntyped? records <;> rfl

/-- **Positions make no difference to values**, and none to failures but for where they arise. -/
theorem execute_unplaced (memory : Nat) (records : List TypedRecord) :
    (Program.execute memory .vm (records.map TypedRecord.unplaced)).mapError RunError.unplaced =
      (Program.execute memory .vm records).mapError RunError.unplaced := by
  have hcode : (records.map TypedRecord.unplaced).map TypedRecord.instruction =
      unplacedAll (records.map TypedRecord.instruction) := by
    rw [List.map_map, unplacedAll, List.map_map]
    rfl
  have htypes := requireTypes_unplaced "run" records
  rw [Program.execute, Program.execute, load, load]
  -- The types are checked first, and both checks come to the same.
  revert htypes
  generalize requireTypes "run" records = checked
  generalize requireTypes "run" (records.map TypedRecord.unplaced) = checked'
  intro htypes
  cases checked with
  | error e =>
    cases checked' with
    | error e' => exact congrArg Except.error (Except.error.inj htypes)
    | ok _ => cases htypes
  | ok _ =>
    cases checked' with
    | error e => cases htypes
    | ok _ =>
      simp only [bind, Except.bind, hcode, learnAll_unplaced]
      cases Loading.initial.learnAll 0 (records.map TypedRecord.instruction) with
      | error e => rfl
      | ok l =>
        dsimp only
        cases l.opened with
        | cons n opened => rfl
        | nil =>
          have hrun := run_unplaced (m := ⟨(records.map TypedRecord.instruction).toArray, l.methods,
            l.classes, l.jumps, memory⟩)
          rw [unplaced, List.map_toArray] at hrun
          exact hrun

end Machine

end Rubylet
