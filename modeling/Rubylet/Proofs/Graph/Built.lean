import Rubylet.Graph.Wiring
import Rubylet.Proofs.Graph.Tables
import Rubylet.Proofs.Replay.Events

/-!
# Built graphs

`Graph.build` replays the code once, and folds over the trace twice: for the index and for the
edges. `Graph.Indexed code x` says that the first two passes went through, and `x` is the index that
they yield; the last pass may refuse an instruction. `Graph.Built code g` holds what a successful
build says about all of them. Later modules start from it (`built_of_build`) and from the laws of the
two folds at a point: `Built.learns` for the edges, `Indexed.indexAt_succ` for the index.

* `Indexed.calls_eq`: the graph remembers of a call what its event said.
-/

namespace Rubylet

open Replay

variable {code : List Instruction} {g : Graph} {n : Nat} {i : Instruction} {e : Event}

namespace Graph

/-- The edges found before an instruction. -/
def wiringAt (code : List Instruction) (g : Graph) (n : Nat) : Wiring.State :=
  foldAt (Wiring.learn code.toArray g.index) .initial (trace code).steps n

/-- The tables filled before an instruction. -/
def indexAt (code : List Instruction) (n : Nat) : Index :=
  ((trace code).steps.take n).foldl Index.learn .empty

/-- The code is replayed, and the index is the one of the replay. -/
structure Indexed (code : List Instruction) (x : Index) : Prop where
  replayed : (trace code).error? = none
  index_eq : x = .ofTrace (trace code)

/-- What a successful build says about its passes. -/
structure Built (code : List Instruction) (g : Graph) : Prop extends Indexed code g.index where
  wired : (fold (Wiring.learn code.toArray g.index) .initial (trace code).steps).2 = none
  size_eq : g.records.size = code.length
  record_eq : ∀ {n i}, code[n]? = some i → g.record n =
    ⟨i, i.op.givenType?, (wiringAt code g code.length).dependenciesOf n, g.index.calls.get? n⟩

/-- The n-th record of the graph is the n-th instruction with what the index and the wiring hold for
it. -/
theorem getElem?_recordsFrom (x : Index) (w : Wiring.State) :
    ∀ (code : List Instruction) (k n : Nat), (recordsFrom x w k code)[n]? =
      code[n]?.map fun i =>
        ⟨i, i.op.givenType?, w.dependenciesOf (k + n), x.calls.get? (k + n)⟩ := by
  intro code
  -- On the code, with the number of the first record as a running offset.
  induction code with
  | nil => intro k n; simp [recordsFrom]
  | cons i rest ih =>
    intro k n
    cases n with
    | zero => simp [recordsFrom]
    | succ n =>
      rw [recordsFrom, List.getElem?_cons_succ, List.getElem?_cons_succ, ih]
      simp [Nat.add_assoc, Nat.add_comm 1]

theorem length_recordsFrom (x : Index) (w : Wiring.State) :
    ∀ (code : List Instruction) (k : Nat), (recordsFrom x w k code).length = code.length := by
  intro code
  induction code with
  | nil => intro k; rfl
  | cons i rest ih => intro k; simp [recordsFrom, ih]

/-- **A graph that was built** comes from a replay and a wiring that went through. -/
theorem built_of_build (h : build code = .ok g) : Built code g := by
  unfold build at h
  simp only at h
  split at h
  · cases h
  · next hreplay =>
    split at h
    · cases h
    · next w hfold =>
      obtain rfl := Except.ok.inj h
      have hlen : (trace code).steps.length = code.length := length_steps _ _ _ hreplay
      -- The wiring at the end is the one that the records are made from.
      have hw : wiringAt code ⟨(recordsFrom (.ofTrace (trace code)) w 0 code).toArray,
          .ofTrace (trace code)⟩ code.length = w := by
        rw [wiringAt, foldAt_of_length_le (by omega), hfold]
      refine ⟨⟨hreplay, rfl⟩, by rw [hfold], by simp [length_recordsFrom], ?_⟩
      intro n i hi
      rw [hw]
      simp [record, Array.getD_eq_getD_getElem?, getElem?_recordsFrom, hi]

/-- A number beyond the code stands for a record without a type and without edges. -/
theorem record_eq_default (hn : g.records.size ≤ n) : g.record n = default := by
  rw [record, Array.getD_eq_getD_getElem?, Array.getElem?_eq_none hn, Option.getD_none]

namespace Indexed

variable {x : Index} (b : Indexed code x)

include b

/-- Every instruction of a graph that was built has its event. -/
theorem occurs (hi : code[n]? = some i) : ∃ e, Occurs code n i e :=
  (exists_occurs b.replayed hi).imp fun _ h => h.1

theorem step_eq (h : Occurs code n i e) :
    (trace code).steps[n]? = some ⟨n, i, e, stateAt code (n + 1)⟩ := by
  obtain ⟨e', he', hs⟩ := exists_occurs b.replayed h.1
  obtain rfl := (h.unique he').2
  exact hs

theorem opened (hn : n ≤ code.length) : Opened code n (stateAt code n) :=
  opened_stateAt b.replayed n hn

/-- The index grows by one record at a time. -/
theorem indexAt_succ (h : Occurs code n i e) :
    indexAt code (n + 1) = (indexAt code n).learn ⟨n, i, e, stateAt code (n + 1)⟩ := by
  rw [indexAt, List.take_add_one, b.step_eq h, Option.toList_some, List.foldl_append]
  rfl

/-- At the end of the code the index is the one of the graph. -/
theorem indexAt_length : indexAt code code.length = x := by
  have hlen : (trace code).steps.length = code.length := length_steps _ _ _ b.replayed
  rw [indexAt, List.take_of_length_le (by omega), b.index_eq]
  rfl

/-- A property of points that the first one has and every instruction passes on holds at all. -/
theorem point_induction {P : Nat → Prop} (zero : P 0)
    (succ : ∀ {n i e}, Occurs code n i e → P n → P (n + 1)) : ∀ n, n ≤ code.length → P n := by
  intro n
  induction n with
  | zero => exact fun _ => zero
  | succ n ih =>
    intro hn
    obtain ⟨e, he⟩ := b.occurs (List.getElem?_eq_getElem (Nat.lt_of_succ_le hn))
    exact succ he (ih (Nat.le_of_succ_le hn))

/-- What every instruction passes on is passed on from a point to all later ones. -/
theorem point_mono {P : Nat → Prop} (succ : ∀ {n i e}, Occurs code n i e → P n → P (n + 1))
    {m n : Nat} (hmn : m ≤ n) (hn : n ≤ code.length) (hm : P m) : P n := by
  induction hmn with
  | refl => exact hm
  | step hle ih =>
    obtain ⟨e, he⟩ := b.occurs (List.getElem?_eq_getElem (Nat.lt_of_succ_le hn))
    exact succ he (ih (Nat.le_of_succ_le hn))

/-! ### What an instruction teaches the index -/

variable {name : String}

/-- A class is entered into the index at its opening record. -/
theorem indexAt_classStart (h : Occurs code n i e) (ho : i.op = .classStart name) :
    indexAt code (n + 1) = (indexAt code n).openClass n name i.origin.pos.line := by
  rw [b.indexAt_succ h, Index.learn]
  simp only [ho, (h.classStart ho).2.1]

/-- A method is entered under the class that is open. -/
theorem indexAt_defStart (h : Occurs code n i e) (ho : i.op = .defStart name) :
    indexAt code (n + 1) =
      (indexAt code n).define n name (stateAt code n).currentClass i.origin.pos.line := by
  rw [b.indexAt_succ h, Index.learn]
  simp only [ho, (h.defStart ho).1]

/-- A parameter counts for the innermost definition that is open. -/
theorem indexAt_pushArg {index : Int} (h : Occurs code n i e) (ho : i.op = .pushArg index) :
    ∃ d defs, (stateAt code n).defs = d :: defs ∧
      indexAt code (n + 1) = (indexAt code n).countParam d := by
  obtain ⟨d, defs, hd, he, -⟩ := h.pushArg ho
  refine ⟨d, defs, hd, ?_⟩
  rw [b.indexAt_succ h, Index.learn]
  simp only [ho, he]

/-- A call is kept with its arguments and the class it stands in. -/
theorem indexAt_send {count : Option Int} (h : Occurs code n i e) (ho : i.op = .send name count) :
    ∃ r args, e = .send r args ∧ indexAt code (n + 1) =
      (indexAt code n).addCall n name ⟨args, (stateAt code n).currentClass⟩ := by
  obtain ⟨r, args, rest, -, -, he, hs⟩ := h.send ho
  refine ⟨r, args, he, ?_⟩
  rw [b.indexAt_succ h, Index.learn]
  simp only [ho, he, hs]
  rfl

/-- All other instructions teach the index nothing. -/
theorem indexAt_other (h : Occurs code n i e) (hc : ∀ name, i.op ≠ .classStart name)
    (hd : ∀ name, i.op ≠ .defStart name) (ha : ∀ index, i.op ≠ .pushArg index)
    (hs : ∀ name count, i.op ≠ .send name count) : indexAt code (n + 1) = indexAt code n := by
  rw [b.indexAt_succ h, Index.learn]
  cases ho : i.op <;> simp_all

/-- The five ways in which an index goes on. -/
theorem index_cases (h : Occurs code n i e) {P : Index → Prop}
    (opened : ∀ name, i.op = .classStart name →
      P ((indexAt code n).openClass n name i.origin.pos.line))
    (defined : ∀ name, i.op = .defStart name →
      P ((indexAt code n).define n name (stateAt code n).currentClass i.origin.pos.line))
    (counted : ∀ index d defs, i.op = .pushArg index → (stateAt code n).defs = d :: defs →
      P ((indexAt code n).countParam d))
    (called : ∀ name count r args, i.op = .send name count → e = .send r args →
      P ((indexAt code n).addCall n name ⟨args, (stateAt code n).currentClass⟩))
    (other : P (indexAt code n)) : P (indexAt code (n + 1)) := by
  -- One case for each record the index learns from; it passes over the others.
  cases ho : i.op with
  | classStart name => rw [b.indexAt_classStart h ho]; exact opened name ho
  | defStart name => rw [b.indexAt_defStart h ho]; exact defined name ho
  | pushArg index =>
    obtain ⟨d, defs, hd, hx⟩ := b.indexAt_pushArg h ho
    rw [hx]
    exact counted index d defs ho hd
  | send name count =>
    obtain ⟨r, args, he, hx⟩ := b.indexAt_send h ho
    rw [hx]
    exact called name count r args ho he
  | _ => rw [b.indexAt_other h (by simp [ho]) (by simp [ho]) (by simp [ho]) (by simp [ho])]; exact other

/-- **The graph remembers a call** as its event has it: the arguments, and the class around it. -/
theorem calls_eq {count : Option Int} (h : Occurs code n i e) (ho : i.op = .send name count) :
    ∃ r args, e = .send r args ∧
      x.calls.get? n = some ⟨args, (stateAt code n).currentClass⟩ := by
  obtain ⟨r, args, he, hx⟩ := b.indexAt_send h ho
  refine ⟨r, args, he, ?_⟩
  rw [← b.indexAt_length]
  -- Once it is there it stays: no later instruction has the same number.
  refine (b.point_mono (P := fun m => n < m ∧ (indexAt code m).calls.get? n =
    some ⟨args, (stateAt code n).currentClass⟩) ?_ h.lt (Nat.le_refl _) ⟨Nat.lt_succ_self n, ?_⟩).2
  · rintro m j f hm ⟨hlt, hcalls⟩
    refine ⟨Nat.lt_succ_of_lt hlt, ?_⟩
    refine b.index_cases hm (P := fun x => x.calls.get? n = _) ?_ ?_ ?_ ?_ hcalls
    · intro _ _; rw [Index.calls_openClass]; exact hcalls
    · intro _ _; rw [Index.calls_define]; exact hcalls
    · intro _ _ _ _ _; exact hcalls
    · intro _ _ _ _ _ _
      rw [Index.calls_addCall, if_neg (Nat.ne_of_gt hlt)]
      exact hcalls
  · rw [hx, Index.calls_addCall, if_pos rfl]

end Indexed

/-- The wiring takes every step. -/
theorem Built.learns (b : Built code g) (h : Occurs code n i e) :
    Wiring.learn code.toArray g.index (wiringAt code g n) ⟨n, i, e, stateAt code (n + 1)⟩ =
      .ok (wiringAt code g (n + 1)) :=
  foldAt_succ b.wired (b.step_eq h)

end Graph

end Rubylet
