import Mathlib.Data.List.Sort
import Rubylet.Proofs.Direct.Agreement
import Rubylet.Proofs.Reorder.Code

/-!
# Values in another order

Direct evaluation uses the numbers of records for nothing but to say where it fails. So a piece of
syntax evaluates alike under other numbers (`eval_shifts`), if the same methods and classes are known
under these numbers: `Alike` says that one evaluation answers what another one answers, leaves the
same locals behind, and fails with the same error at the corresponding record.

The definition of a method evaluates to nil and does nothing. A program that ends in an expression
thus has the value of its other statements, evaluated in turn (`run_eq_steps`); and these keep
their order (`Reorders.steps_eq`).
-/

namespace Rubylet

/-- An error at the corresponding record. -/
def RunError.renumber (π : Nat → Nat) : RunError → RunError
  | .failed e => .failed { e with record := π e.record }
  | e => e

namespace Direct

variable {π : Nat → Nat} {α β : Type}

/-! ### Evaluations that are alike -/

/-- An evaluation has the outcome of another one, up to the numbers of records. -/
def Alike (π : Nat → Nat) (x y : Evaluation α) : Prop :=
  ∀ s, y.run s = (x.run s).mapError (RunError.renumber π)

namespace Alike

variable {x y : Evaluation α}

theorem pure (a : α) : Alike π (Pure.pure a) (Pure.pure a) := fun _ => rfl

/-- Evaluations that agree up to the numbering agree in sequence. -/
theorem bind {f f' : α → Evaluation β} (h : Alike π x y) (hf : ∀ a, Alike π (f a) (f' a)) :
    Alike π (x >>= f) (y >>= f') := by
  intro s
  rw [StateT.run_bind, StateT.run_bind, h s]
  cases x.run s with
  | error e => rfl
  | ok r => exact hf r.1 r.2

theorem lift {x y : Except RunError α} (h : y = x.mapError (RunError.renumber π)) :
    Alike π (liftM x) (liftM y) := by
  intro s
  rw [h]
  cases x <;> rfl

theorem modify (f : Locals → Locals) : Alike π (modify f) (modify f) := fun _ => rfl

theorem fault (f : Fault) :
    Alike π (throw (.fault f) : Evaluation α) (throw (.fault f)) := fun _ => rfl

theorem inNewFrame (h : Alike π x y) :
    inNewFrame y = (inNewFrame x).mapError (RunError.renumber π) := by
  rw [Direct.inNewFrame, Direct.inNewFrame, StateT.run'_eq, StateT.run'_eq, h .empty]
  cases x.run .empty <;> rfl

end Alike

/-! ### Syntax under other numbers -/

/-- Methods are called alike under other numbers. -/
def Caller.Alike (π : Nat → Nat) (known : List Declaration) (c c' : Caller) : Prop :=
  ∀ record pos d owner args, .method d ∈ known →
    c' (π record) pos (d.renumber π) owner args =
      (c record pos d owner args).mapError (RunError.renumber π)

/-- Frames of one class from which methods are called alike. -/
structure Frame.Alike (π : Nat → Nat) (known : List Declaration) (f f' : Frame) : Prop where
  memory : f'.memory = f.memory
  owner : f'.owner = f.owner
  call : Caller.Alike π known f.call f'.call
  classCall : Caller.Alike π known f.classCall f'.classCall

/-- What is known under other numbers. -/
structure KnownAlike (π : Nat → Nat) (known known' : List Declaration) : Prop where
  find : ∀ owner name,
    find? known' owner name = (find? known owner name).map (Definition.renumber π)
  hasClass : ∀ c, hasClass known' c = hasClass known c

section Eval

variable {known known' : List Declaration}

theorem showing_renumber (record : Nat) (pos : Pos) (cause : Except Fault BackendCause) :
    RunError.showing (π record) pos cause = (RunError.showing record pos cause).renumber π := by
  cases cause <;> rfl

/-- An operator does not look at the numbers of records, except to report where it failed. -/
theorem operate_renumber (memory record : Nat) (pos : Pos) (name : String) (receiver : Value)
    (args : List Value) : operate memory (π record) pos name receiver args =
      (operate memory record pos name receiver args).mapError (RunError.renumber π) := by
  unfold operate
  split
  · exact congrArg Except.error (showing_renumber record pos _)
  · split
    · split
      · split <;> rfl
      · exact congrArg Except.error (showing_renumber record pos _)
    · exact congrArg Except.error (showing_renumber record pos _)

/-- Parameters are bound alike. -/
theorem bindParams_alike (args : List Value) (ps : List Param) :
    Alike π (bindParams args ps) (bindParams args ps) := by
  induction ps with
  | nil => exact .pure _
  | cons p ps ih =>
    rw [bindParams]
    split
    · exact (Alike.modify _).bind fun _ => ih
    · exact (Alike.fault _).bind fun _ => ih

/-- A message is answered alike. -/
theorem send_renumber (hk : KnownAlike π known known') {f f' : Frame}
    (hf : Frame.Alike π known f f') (record : Nat) (pos : Pos) (name : String) (receiver : Value)
    (args : List Value) : send known' f' (π record) pos name receiver args =
      (send known f record pos name receiver args).mapError (RunError.renumber π) := by
  -- On the receiver, which decides where the method is looked for.
  cases receiver with
  | nil =>
    simp only [send, hf.owner, hk.find]
    cases hfind : find? known f.owner name with
    | some d => exact hf.call record pos d _ args (mem_of_find? hfind)
    | none =>
      cases hfind' : find? known none name with
      | some d => exact hf.call record pos d _ args (mem_of_find? hfind')
      | none => rfl
  | cls c =>
    simp only [send]
    split <;> rfl
  | object c =>
    simp only [send, hk.find, hf.memory]
    cases hfind : find? known (some c) name with
    | some d => exact hf.call record pos d _ args (mem_of_find? hfind)
    | none => exact operate_renumber f.memory record pos name _ args
  | int _ | str _ =>
    simp only [send, hf.memory]
    exact operate_renumber f.memory record pos name _ args

mutual

/-- **A piece of syntax evaluates alike** under other numbers. -/
theorem eval_shifts (hk : KnownAlike π known known') {f f' : Frame}
    (hf : Frame.Alike π known f f') :
    ∀ {x : Node} {n m : Nat}, Shifts π n x.count m → Alike π (eval known f n x) (eval known' f' m x)
  | .block _ statements, _, _, h => (evalAll_shifts hk hf h).bind fun _ => .pure _
  | .call pos receiver name args, n, m, h => by
    rw [Node.count] at h
    rw [eval, eval]
    -- Receiver and arguments first, then the call, which is renumbered as a whole.
    refine (evalReceiver_shifts hk hf h.left.left).bind fun r =>
      (evalAll_shifts hk hf h.left.right).bind fun values => .lift ?_
    have hrecord := h.right.head Nat.one_pos
    rw [← Nat.add_assoc, ← Nat.add_assoc] at hrecord
    rw [← hrecord]
    exact send_renumber hk hf _ pos name r values
  | .methodDef _ _ _ _, _, _, _ => .pure _
  | .classDef _ name body, n, m, h => by
    rw [Node.count] at h
    rw [eval, eval]
    -- The body of a class is evaluated with that class as its owner, on both sides.
    have hbody : Frame.Alike π known { f with owner := some name, call := f.classCall }
        { f' with owner := some name, call := f'.classCall } :=
      ⟨hf.memory, rfl, hf.classCall, hf.classCall⟩
    exact (Alike.lift (Alike.inNewFrame (eval_shifts hk hbody h.left.right))).bind fun _ => .pure _
  | .conditional _ condition thenBody elseBody, n, m, h => by
    rw [Node.count] at h
    -- The branches start behind the condition and its marker.
    have hthen := h.left.left.left.right
    have helse := h.left.right
    simp only [← Nat.add_assoc] at hthen helse
    rw [eval, eval]
    refine (eval_shifts hk hf h.left.left.left.left.left).bind fun c => ?_
    split
    · exact evalBody_shifts hk hf helse
    · exact evalBody_shifts hk hf hthen
  | .assign _ name value, n, m, h => by
    rw [Node.count] at h
    rw [eval, eval]
    exact (eval_shifts hk hf h.left).bind fun v => (Alike.modify _).bind fun _ => .pure _
  | .localRead _ name, _, _, _ => fun _ => rfl
  | .integer _ _, _, _, _ | .text _ _, _, _, _ | .nil _, _, _, _ => .pure _
  | .constant _ name, _, _, _ => by
    rw [eval, eval, hk.hasClass]
    split
    · exact .pure _
    · exact .fault _
  | .argument _, _, _, _ | .unsupported _ _ _, _, _, _ | .foreign _, _, _, _ => .pure _

theorem evalAll_shifts (hk : KnownAlike π known known') {f f' : Frame}
    (hf : Frame.Alike π known f f') :
    ∀ {xs : List Node} {n m : Nat}, Shifts π n (Node.countAll xs) m →
      Alike π (evalAll known f n xs) (evalAll known' f' m xs)
  | [], _, _, _ => .pure _
  | x :: xs, n, m, h => by
    rw [Node.countAll] at h
    rw [evalAll, evalAll]
    exact (eval_shifts hk hf h.left).bind fun v =>
      (evalAll_shifts hk hf h.right).bind fun _ => .pure _

theorem evalReceiver_shifts (hk : KnownAlike π known known') {f f' : Frame}
    (hf : Frame.Alike π known f f') :
    ∀ {x? : Option Node} {n m : Nat}, Shifts π n (Node.countReceiver x?) m →
      Alike π (evalReceiver known f n x?) (evalReceiver known' f' m x?)
  | none, _, _, _ => .pure _
  | some _, _, _, h => eval_shifts hk hf h

theorem evalBody_shifts (hk : KnownAlike π known known') {f f' : Frame}
    (hf : Frame.Alike π known f f') :
    ∀ {x? : Option Node} {n m : Nat}, Shifts π n (Node.countBody x?) m →
      Alike π (evalBody known f n x?) (evalBody known' f' m x?)
  | none, _, _, _ => .pure _
  | some x, _, _, h => eval_shifts hk hf (h.mono (count_le_countBody x))

end

/-- Methods are called alike, if their bodies go with them. -/
theorem callers_alike (memory : Nat) (hk : KnownAlike π known known')
    (hbody : ∀ d, .method d ∈ known → Shifts π (d.record + 1 + 2 * d.params.length)
      (Node.countBody d.body) (π d.record + 1 + 2 * d.params.length)) :
    ∀ room, Caller.Alike π known (callers memory known room).1 (callers memory known' room).1 ∧
      Caller.Alike π known (callers memory known room).2 (callers memory known' room).2 := by
  intro room
  -- On the room that is left: a body is evaluated with less of it.
  induction room with
  | zero => exact ⟨fun _ _ _ _ _ _ => rfl, fun _ _ _ _ _ _ => rfl⟩
  | succ room ih =>
    refine ⟨fun _ _ d owner args hd => ?_, ih.1⟩
    have hframe : Frame.Alike π known (frame memory known room owner)
        (frame memory known' room owner) := ⟨rfl, rfl, ih.1, ih.2⟩
    exact Alike.inNewFrame ((bindParams_alike args d.params).bind fun _ =>
      evalBody_shifts hk hframe (hbody d hd))

end Eval

/-! ### Statements in turn -/

section Steps

variable (known : List Declaration) (f : Frame)

/-- The value of a program so far, after one more of its statements. -/
def evalAt (n : Nat) (xs : List Node) (v : Value) (i : Nat) : Evaluation Value :=
  match xs[i]? with
  | some x => do
    let w ← eval known f (n + Node.startOf xs i) x
    return if leaves x then w else v
  | none => return v

theorem foldlM_evalAt (xs : List Node) : ∀ (n : Nat) (v : Value),
    (List.range xs.length).foldlM (evalAt known f n xs) v = do
      let values ← evalAll known f n xs
      return (left xs values).getLastD v := by
  induction xs with
  | nil => exact fun _ _ => rfl
  | cons x xs ih =>
    intro n v
    -- The later indices, each lowered by one, run over the rest of the list.
    have hrest : ∀ v, ((List.range xs.length).map Nat.succ).foldlM (evalAt known f n (x :: xs)) v =
        (List.range xs.length).foldlM (evalAt known f (n + x.count) xs) v := by
      intro v
      rw [List.foldlM_map]
      congr
      funext v i
      rw [evalAt, evalAt, List.getElem?_cons_succ, Node.startOf_cons_succ, Nat.add_assoc]
    rw [List.length_cons, List.range_succ_eq_map, List.foldlM_cons]
    simp only [hrest, ih, evalAt, evalAll, List.getElem?_cons_zero, Node.startOf_zero,
      Nat.add_zero, bind_assoc, pure_bind, left_cons]
    refine bind_congr fun w => bind_congr fun values => congrArg pure ?_
    split
    · rw [List.getLastD_cons]
    · rfl

/-- The places of the statements that are not definitions of methods. -/
def steps (xs : List Node) : List Nat :=
  (List.range xs.length).filter fun i => xs[i]?.any fun x => !x.isMethodDef

/-- Definitions may be left out before an expression, and the value so far is of no account. -/
theorem foldlM_filter {xs : List Node} {k : Nat} {x : Node} (hx : xs[k]? = some x)
    (hlast : x.isAction = false) (n : Nat) (is : List Nat) : ∀ v v',
    (is ++ [k]).foldlM (evalAt known f n xs) v =
      (is.filter (fun i => xs[i]?.any fun x => !x.isMethodDef) ++ [k]).foldlM
        (evalAt known f n xs) v' := by
  -- The last statement replaces the value so far, so what definitions make of that does not matter.
  have hleaves : leaves x = true := by cases x <;> first | rfl | cases hlast
  induction is with
  | nil =>
    intro v v'
    simp only [List.filter_nil, List.nil_append, List.foldlM_cons, evalAt, hx, hleaves, if_true]
  | cons i is ih =>
    intro v v'
    rw [List.cons_append, List.foldlM_cons]
    cases hi : xs[i]? with
    | none =>
      rw [List.filter_cons_of_neg (by simp [hi])]
      simp only [evalAt, hi, pure_bind]
      exact ih v v'
    | some y =>
      by_cases hdef : y.isMethodDef
      · rw [List.filter_cons_of_neg (by simp [hi, hdef])]
        cases y with
        | methodDef =>
          simp only [evalAt, hi, eval, pure_bind]
          exact ih _ v'
        | _ => exact absurd hdef Bool.false_ne_true
      · rw [List.filter_cons_of_pos (by simp [hi, hdef]), List.cons_append, List.foldlM_cons]
        simp only [evalAt, hi, bind_assoc, pure_bind]
        exact bind_congr fun w => ih _ _

/-- **A program that ends in an expression** has the value of its statements other than definitions,
evaluated in turn. -/
theorem run_eq_steps {xs : List Node} (hlast : xs.getLast?.map Node.isAction = some false)
    (memory depth : Nat) (pos : Pos) : Direct.run memory depth (.block pos xs) =
      inNewFrame ((steps xs).foldlM
        (evalAt (declared xs) (frame memory (declared xs) (depth - 1) none) 0 xs) .nil) := by
  obtain ⟨x, hx, haction⟩ := Option.map_eq_some_iff.mp hlast
  rw [List.getLast?_eq_getElem?] at hx
  have hrange : List.range xs.length = List.range (xs.length - 1) ++ [xs.length - 1] := by
    rw [← List.range_succ, Nat.succ_eq_add_one, Nat.sub_add_cancel]
    have := (List.getElem?_eq_some_iff.mp hx).1
    omega
  have hdef : x.isMethodDef = false := by cases x <;> first | rfl | cases haction
  -- The last statement is run in any case, and the definitions before it do nothing.
  have hsteps : steps xs = (List.range (xs.length - 1)).filter
      (fun i => xs[i]?.any fun x => !x.isMethodDef) ++ [xs.length - 1] := by
    rw [steps, hrange, List.filter_append]
    simp [hx, hdef]
  rw [hsteps, ← foldlM_filter _ _ hx haction 0 _ .nil, ← hrange, foldlM_evalAt]
  rfl

end Steps

end Direct

/-! ### Reordered statements -/

open Direct

namespace Reorders

variable {σ : Equiv.Perm Nat} {xs ys : List Node} (h : Reorders σ xs ys)

include h

/-- **The other statements keep their order.** -/
theorem steps_eq : steps ys = (steps xs).map σ := by
  have mem_steps : ∀ {xs : List Node} {i : Nat},
      i ∈ steps xs ↔ ∃ x, xs[i]? = some x ∧ x.isMethodDef = false := by
    intro xs i
    rw [steps, List.mem_filter, List.mem_range, Option.any_eq_true]
    simp only [Bool.not_eq_true']
    exact ⟨fun h => h.2, fun h => ⟨(List.getElem?_eq_some_iff.mp h.choose_spec.1).1, h⟩⟩
  have sorted : ∀ xs : List Node, (steps xs).Pairwise (· < ·) := fun xs =>
    List.pairwise_lt_range.sublist List.filter_sublist
  -- Both lists are sorted, so they are the same if they have the same members.
  refine (sorted ys).eq_of_mem_iff (List.pairwise_map.mpr ?_) fun i => ?_
  · refine (sorted xs).imp_of_mem fun {i k} hi hk hlt => ?_
    obtain ⟨x, hx, hdef⟩ := mem_steps.mp hi
    obtain ⟨y, hy, hdef'⟩ := mem_steps.mp hk
    exact h.keeps i k x y hlt hx hy hdef hdef'
  · obtain ⟨i, rfl⟩ := σ.surjective i
    rw [List.mem_map_of_injective σ.injective, mem_steps, mem_steps, h.moves]

/-- Where the body of a method stands in the other order. -/
theorem shifts_body {code : List Instruction} (l : Lowered xs code) {d : Definition}
    (hd : .method d ∈ declared xs) : Shifts h.relocation (d.record + 1 + 2 * d.params.length)
      (Node.countBody d.body) (h.relocation d.record + 1 + 2 * d.params.length) := by
  obtain ⟨i, x, hx, hmem⟩ := Direct.mem_declared.mp hd
  obtain ⟨pos, j, hn, hj, hlaid⟩ := (l.statement hx).laidOut hmem
  have hend := hlaid.body.eq_add_count
  simp only [Part.count] at hend
  -- The body lies within its statement, and so it is moved as a whole.
  obtain ⟨a, ha⟩ := Nat.exists_eq_add_of_le hn
  intro k hk
  have hbody := h.shifts hx (a + 1 + 2 * d.params.length + k) (by omega)
  rw [ha, h.shifts hx a (by omega)]
  simp only [← Nat.add_assoc] at hbody ⊢
  exact hbody

/-- The same methods and classes are known in both orders. -/
theorem knownAlike (hd : Distinct (declared xs)) :
    KnownAlike h.relocation (declared xs) (declared ys) :=
  ⟨h.find?_eq hd, h.hasClass_eq⟩

/-- **A program has one value in both orders**, or fails with one error at the corresponding
record. -/
theorem run_eq {code : List Instruction} (l : Lowered xs code) (hd : Distinct (declared xs))
    (hlast : xs.getLast?.map Node.isAction = some false) (memory depth : Nat) (pos : Pos) :
    Direct.run memory depth (.block pos ys) =
      (Direct.run memory depth (.block pos xs)).mapError (RunError.renumber h.relocation) := by
  have hlast' : ys.getLast?.map Node.isAction = some false := by
    rw [List.getLast?_eq_getElem?, ← h.last, h.moves, ← List.getLast?_eq_getElem?, hlast]
  have hk := h.knownAlike hd
  obtain ⟨hcall, hclass⟩ := callers_alike memory hk (fun d hmem => h.shifts_body l hmem) (depth - 1)
  have hframe : Frame.Alike h.relocation (declared xs)
      (frame memory (declared xs) (depth - 1) none)
      (frame memory (declared ys) (depth - 1) none) := ⟨rfl, rfl, hcall, hclass⟩
  -- A statement is run at its place in either order, and goes from the value so far to the next.
  have hstep : ∀ v i, Direct.Alike h.relocation
      (evalAt (declared xs) (frame memory (declared xs) (depth - 1) none) 0 xs v i)
      (evalAt (declared ys) (frame memory (declared ys) (depth - 1) none) 0 ys v (σ i)) := by
    intro v i
    rw [evalAt, evalAt, h.moves]
    cases hx : xs[i]? with
    | none => exact .pure v
    | some x =>
      simp only [Nat.zero_add]
      exact (eval_shifts hk hframe (h.shifts hx)).bind fun w => .pure _
  have hfold : ∀ (is : List Nat) (v : Value), Direct.Alike h.relocation
      (is.foldlM (evalAt (declared xs) (frame memory (declared xs) (depth - 1) none) 0 xs) v)
      ((is.map σ).foldlM (evalAt (declared ys) (frame memory (declared ys) (depth - 1) none) 0 ys) v) := by
    intro is
    induction is with
    | nil => exact fun v => .pure v
    | cons i is ih =>
      intro v
      rw [List.map_cons, List.foldlM_cons, List.foldlM_cons]
      exact (hstep v i).bind ih
  rw [run_eq_steps hlast', run_eq_steps hlast, h.steps_eq]
  exact (hfold (steps xs) .nil).inNewFrame

end Reorders

end Rubylet
