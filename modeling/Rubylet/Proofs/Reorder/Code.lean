import Rubylet.Proofs.Graph.Exact
import Rubylet.Proofs.Reorder.Statements

/-!
# Code in another order

The code of statements that are put into another order has the same instructions at other records.
`Renumbers π code code'` says what else is the same under the other numbers: the events of a replay,
the class and the frame around an instruction, and within a frame the order in which locals are
assigned and read. All of it is told statement by statement (`Reorders.renumbers`): a statement
stands between two points at which nothing is open, and what is replayed in it does not depend on
where it stands.

The order within a frame needs a reason. Only the main program is a frame with instructions in
several statements, and a definition has none of them that assigns or reads a local.
-/

namespace Rubylet

open Replay Direct Lowering

/-! ### Lowered statements -/

/-- A list of statements is of the surface when each of them is. -/
theorem Surface.statements_iff {xs : List Node} :
    Surface (.statements xs) ↔ ∀ x ∈ xs, Surface (.statement x) := by
  induction xs with
  | nil => exact iff_of_true .noStatements (by simp)
  | cons x xs ih =>
    rw [List.forall_mem_cons, ← ih]
    constructor
    · intro h
      cases h with
      | moreStatements hx hxs => exact ⟨hx, hxs⟩
    · exact fun h => .moreStatements h.1 h.2

/-- A part lowers to as many records as it counts. -/
theorem length_of_lower {p : Part} {inside : Option String} {cs : List Instruction}
    (hs : Surface p) (hl : p.lower inside = .ok cs) : cs.length = p.count := by
  have := (layout_of_lower hs hl (CodeAt.self cs)).eq_add_count
  omega

/-- A list of statements lowers when each of them does. -/
theorem exists_lowerAll_iff {inside : Option String} {xs : List Node} :
    (∃ cs, lowerAll inside xs = .ok cs) ↔ ∀ x ∈ xs, ∃ cs, lower inside x = .ok cs := by
  induction xs with
  | nil => exact iff_of_true ⟨[], rfl⟩ (by simp)
  | cons x xs ih =>
    rw [List.forall_mem_cons, ← ih, lowerAll]
    constructor
    · rintro ⟨cs, h⟩
      obtain ⟨first, hfirst, h⟩ := exists_of_bind_eq_ok h
      obtain ⟨others, hothers, -⟩ := exists_of_bind_eq_ok h
      exact ⟨⟨first, hfirst⟩, others, hothers⟩
    · rintro ⟨⟨first, hfirst⟩, others, hothers⟩
      exact ⟨_, by rw [hfirst, hothers]; rfl⟩

/-- The instructions of a statement stand where it starts. -/
theorem codeAt_of_lowerAll {xs : List Node} {x : Node} {i : Nat} {inside : Option String}
    {code : List Instruction} (hs : Surface (.statements xs)) (hl : lowerAll inside xs = .ok code)
    (hx : xs[i]? = some x) :
    ∃ cs, lower inside x = .ok cs ∧ CodeAt code (Node.startOf xs i) cs := by
  induction xs generalizing i code with
  | nil => cases hx
  | cons y ys ih =>
    obtain ⟨first, hfirst, hl⟩ := exists_of_bind_eq_ok hl
    obtain ⟨others, hothers, hl⟩ := exists_of_bind_eq_ok hl
    obtain rfl := Except.ok.inj hl
    cases hs with
    | moreStatements hy hys =>
      cases i with
      | zero =>
        obtain rfl := Option.some.inj hx
        exact ⟨first, hfirst, CodeAt.self _ |>.left⟩
      | succ i =>
        obtain ⟨cs, hcs, hat⟩ := ih hys hothers hx
        have hlen : first.length = y.count := length_of_lower hy hfirst
        refine ⟨cs, hcs, fun k j hk => ?_⟩
        -- The other statements stand behind the code of the first one.
        have hget := hat k j hk
        rw [Node.startOf_cons_succ, ← hlen, Nat.add_assoc, List.getElem?_append_right (by omega),
          Nat.add_sub_cancel_left]
        exact hget

/-- The code of the statements of a program. -/
structure Lowered (xs : List Node) (code : List Instruction) : Prop where
  surface : Surface (.statements xs)
  lowered : lowerAll none xs = .ok code

namespace Lowered

variable {xs : List Node} {code : List Instruction} {x : Node} {i j n : Nat}
  (l : Lowered xs code)

include l

theorem layout : Layout code (fun _ _ => True) none (.statements xs) 0 code.length := by
  have h := layout_of_lower l.surface l.lowered (CodeAt.self code)
  rwa [Nat.zero_add] at h

theorem length_eq : code.length = Node.countAll xs := by
  have := l.layout.eq_add_count
  rw [this, Nat.zero_add]
  rfl

theorem replayed : (trace code).error? = none := l.layout.replayed

/-- A statement is laid out from where it starts. -/
theorem statement (hx : xs[i]? = some x) : Layout code (fun _ _ => True) none (.statement x)
    (Node.startOf xs i) (Node.startOf xs i + x.count) := by
  obtain ⟨hi, rfl⟩ := List.getElem?_eq_some_iff.mp hx
  have h := l.layout
  rw [← List.take_append_drop i xs, List.drop_eq_getElem_cons hi] at h
  obtain ⟨k, hfront, hback⟩ := h.statements_append
  have hk := hfront.eq_add_count
  rw [Nat.zero_add] at hk
  obtain rfl : k = Node.startOf xs i := hk
  -- The statement is the first one behind those that come before it.
  cases hback with
  | moreStatements hx _ => exact hx.reaches hx.eq_add_count

/-- Nothing is open where a statement starts. -/
theorem start (i : Nat) :
    (stateAt code (Node.startOf xs i)).classes = [] ∧ openers code (Node.startOf xs i) = [] := by
  have h := l.layout
  rw [← List.take_append_drop i xs] at h
  -- The statements before this one are replayed as a whole.
  obtain ⟨k, hfront, -⟩ := h.statements_append
  have hk := hfront.eq_add_count
  rw [Nat.zero_add] at hk
  obtain rfl : k = Node.startOf xs i := hk
  -- Whatever they opened they have closed.
  obtain ⟨left, hreplays, -⟩ := hfront.replays l.replayed
  constructor
  · rw [hreplays.state_eq, stateAt_zero]
    rfl
  · exact hreplays.openers_eq

/-- Every instruction belongs to a statement. -/
theorem covers (hn : n < code.length) :
    ∃ i x j, xs[i]? = some x ∧ j < x.count ∧ n = Node.startOf xs i + j := by
  rcases Node.locate_cases xs n with h | ⟨hle, -⟩
  · exact h
  · rw [l.length_eq] at hn
    omega

/-- A statement ends within the code. -/
theorem end_le (hx : xs[i]? = some x) : Node.startOf xs i + x.count ≤ code.length := by
  rw [l.length_eq, ← Node.startOf_of_length_le (Nat.le_refl _)]
  exact Node.startOf_add_count_le hx (List.getElem?_eq_some_iff.mp hx).1

theorem lt_length (hx : xs[i]? = some x) (hj : j < x.count) :
    Node.startOf xs i + j < code.length :=
  Nat.lt_of_lt_of_le (Nat.add_lt_add_left hj _) (l.end_le hx)

end Lowered

/-! ### What is open in a statement -/

section Open

variable {code code' : List Instruction} {links : Nat → Nat → Prop} {inside : Option String}
  {n m k q o count : Nat} {i : Instruction} {π : Nat → Nat}

/-- What is open behind a point where nothing is open was opened there. -/
theorem le_of_mem_openers (hn : openers code n = []) (hq : n ≤ q) (h : o ∈ openers code q) :
    n ≤ o := by
  induction hq with
  | refl => rw [hn] at h; cases h
  | @step q hle ih =>
    rcases Nat.lt_or_ge o q with hlt | hge
    · exact ih (mem_openers_of_succ h (Nat.ne_of_lt hlt))
    · exact Nat.le_trans hle hge

/-- The same frames are open in instructions that stand elsewhere. -/
theorem openers_shifts (hcode : ∀ j < count, code'[m + j]? = code[n + j]?) (hπ : Shifts π n count m)
    (hn : openers code n = []) (hm : openers code' m = []) :
    ∀ j, j ≤ count → openers code' (m + j) = (openers code (n + j)).map π := by
  intro j
  induction j with
  | zero => intro _; rw [Nat.add_zero, Nat.add_zero, hn, hm]; rfl
  | succ j ih =>
    intro hj
    -- Record by record: both codes have the same instruction at this distance.
    rw [← Nat.add_assoc, ← Nat.add_assoc, openers, openers, hcode j hj, ih (Nat.le_of_succ_le hj)]
    split
    · rw [List.map_cons, hπ j hj]
    · rw [List.map_cons, hπ j hj]
    · rw [List.map_tail]
    · rw [List.map_tail]
    · rfl

/-- The same classes are open in instructions that stand elsewhere. -/
theorem classes_shifts (hr : (trace code).error? = none) (hr' : (trace code').error? = none)
    (hcode : ∀ j < count, code'[m + j]? = code[n + j]?) (hn : (stateAt code n).classes = [])
    (hm : (stateAt code' m).classes = []) (hlt : n + count ≤ code.length) :
    ∀ j, j ≤ count → (stateAt code' (m + j)).classes.map OpenClass.name =
      (stateAt code (n + j)).classes.map OpenClass.name := by
  intro j
  induction j with
  | zero => intro _; rw [Nat.add_zero, Nat.add_zero, hn, hm]
  | succ j ih =>
    intro hj
    -- The same instruction on both sides, so a class opens or closes on both.
    have hi := List.getElem?_eq_getElem (l := code) (i := n + j) (by omega)
    obtain ⟨e, ho, -⟩ := exists_occurs hr hi
    obtain ⟨e', ho', -⟩ := exists_occurs hr' ((hcode j hj).trans hi)
    have hbefore := ih (Nat.le_of_succ_le hj)
    rw [← Nat.add_assoc, ← Nat.add_assoc, ho.classes_succ, ho'.classes_succ]
    split
    · rfl
    · rw [List.map_tail, List.map_tail, hbefore]
    · exact hbefore

/-- Does the operation assign or read a local? -/
def Operation.isLocal : Operation → Bool
  | .setVar _ | .pushVar _ => true
  | _ => false

/-- Locals in a definition belong to a frame of it. -/
theorem frameOf_ne_none (hr : (trace code).error? = none) {x : Node} (hdef : x.isMethodDef)
    (h : Layout code links inside (.statement x) n k) (hn : n ≤ q) (hk : q < k)
    (hq : code[q]? = some i) (hi : i.op.isLocal) : frameOf code q ≠ none := by
  cases h with
  | expression h =>
    cases h with
    | leaf hx => cases x <;> first | exact absurd hdef Bool.false_ne_true | cases hx
    | call => cases hdef
    | conditional => cases hdef
  | assign | classDef => cases hdef
  | @methodDef _ _ _ _ _ _ j hs _ hp hb he _ =>
    obtain ⟨left, hbody, -⟩ := hb.replays hr
    have hle := hb.le
    have hopen : openers code j = n :: openers code n := by
      rw [((Replays.params hr _ _ hp).trans hbody (by omega)).openers_eq, openers_succ hs]
    -- The opener itself stands outside.
    have hne : n ≠ q := by
      rintro rfl
      rw [hs] at hq
      obtain rfl := Option.some.inj hq
      cases hi
    -- The definition is open from its opener to its end.
    have hmem : n ∈ openers code q :=
      mem_openers_of_le (by omega) (by omega) (hopen ▸ List.mem_cons_self)
    rw [frameOf, Ne, List.head?_eq_none_iff]
    exact List.ne_nil_of_mem hmem

end Open

/-- A frame with instructions in two statements is that of the main program. -/
theorem Lowered.frameOf_eq_none {xs : List Node} {code : List Instruction} {x : Node}
    {i k j j' : Nat} (l : Lowered xs code) (hx : xs[i]? = some x) (hik : i < k) (hj : j < x.count)
    (hframe : frameOf code (Node.startOf xs i + j) = frameOf code (Node.startOf xs k + j')) :
    frameOf code (Node.startOf xs k + j') = none := by
  have hend := Node.startOf_add_count_le hx hik
  cases hopen : frameOf code (Node.startOf xs k + j') with
  | none => rfl
  | some o =>
    -- The opener would be in the first statement, or before it, and in the second one.
    have hlater := List.mem_of_mem_head? hopen
    have hearlier := List.mem_of_mem_head? (hframe.trans hopen)
    have hle := le_of_mem_openers (l.start k).2 (Nat.le_add_right _ _) hlater
    have hlt := openers_lt _ _ hearlier
    omega

/-! ### Code under other numbers -/

/-- Code has the instructions of other code under other numbers, and replays them alike. -/
structure Renumbers (π : Equiv.Perm Nat) (code code' : List Instruction) : Prop where
  instruction : ∀ n, code'[π n]? = code[n]?
  event : ∀ {n i e}, Occurs code n i e → Occurs code' (π n) i (e.map π)
  currentClass : ∀ n < code.length,
    (stateAt code' (π n)).currentClass = (stateAt code n).currentClass
  frame : ∀ n < code.length, frameOf code' (π n) = (frameOf code n).map π
  /-- The locals of a frame are assigned and read in the same order. -/
  order : ∀ q n i j, code[q]? = some i → i.op.isLocal → code[n]? = some j → j.op.isLocal →
    frameOf code q = frameOf code n → q < n → π q < π n

section Reordered

variable {σ : Equiv.Perm Nat} {xs ys : List Node} {code code' : List Instruction}

/-- A statement has the same instructions in both orders. -/
theorem Reorders.getElem?_eq (h : Reorders σ xs ys) (l : Lowered xs code) (l' : Lowered ys code')
    {x : Node} {i j : Nat} (hx : xs[i]? = some x) (hj : j < x.count) :
    code'[Node.startOf ys (σ i) + j]? = code[Node.startOf xs i + j]? := by
  have hs := Surface.statements_iff.mp l.surface x (List.mem_of_getElem? hx)
  obtain ⟨cs, hcs, hat⟩ := codeAt_of_lowerAll l.surface l.lowered hx
  obtain ⟨cs', hcs', hat'⟩ := codeAt_of_lowerAll l'.surface l'.lowered ((h.moves i).trans hx)
  obtain rfl := Except.ok.inj (hcs.symm.trans hcs')
  have hlen : cs.length = x.count := length_of_lower hs hcs
  have hget := List.getElem?_eq_getElem (l := cs) (i := j) (hlen ▸ hj)
  rw [hat j _ hget, hat' j _ hget]

/-- **Reordered statements have code under other numbers.** -/
theorem Reorders.renumbers (h : Reorders σ xs ys) (l : Lowered xs code) (l' : Lowered ys code') :
    Renumbers h.relocation code code' := by
  -- A record that is in the code stays in the code.
  have back : ∀ n, h.relocation n < code'.length → n < code.length := by
    intro n hn
    obtain ⟨i, y, j, hy, hj, heq⟩ := l'.covers hn
    have hshift := h.symm.shifts hy j hj
    rw [← heq, h.relocation_symm, Equiv.symm_apply_apply] at hshift
    rw [hshift]
    exact l.lt_length ((h.symm.moves i).trans hy) hj
  have layouts : ∀ {i x}, xs[i]? = some x → _ := fun hx => l'.statement ((h.moves _).trans hx)
  refine ⟨fun n => ?_, ?_, fun n hn => ?_, fun n hn => ?_, ?_⟩
  · rcases Nat.lt_or_ge n code.length with hn | hn
    · obtain ⟨i, x, j, hx, hj, rfl⟩ := l.covers hn
      rw [h.shifts hx j hj, h.getElem?_eq l l' hx hj]
    · rw [List.getElem?_eq_none hn, List.getElem?_eq_none]
      exact Nat.le_of_not_lt fun hlt => Nat.not_lt.mpr hn (back n hlt)
  · intro n i e ho
    obtain ⟨k, x, j, hx, hj, rfl⟩ := l.covers ho.lt
    exact Layout.occurs_map l.replayed l'.replayed (l.statement hx) (layouts hx)
      (by rw [State.currentClass, (l.start k).1]; rfl)
      (by rw [State.currentClass, (l'.start (σ k)).1]; rfl)
      (fun j hj => h.getElem?_eq l l' hx hj) (h.shifts hx) hj ho
  · obtain ⟨i, x, j, hx, hj, rfl⟩ := l.covers hn
    have hclasses := classes_shifts l.replayed l'.replayed (fun j hj => h.getElem?_eq l l' hx hj)
      (l.start i).1 (l'.start (σ i)).1 (l.end_le hx) j (Nat.le_of_lt hj)
    rw [h.shifts hx j hj, State.currentClass, State.currentClass, ← List.head?_map, hclasses,
      List.head?_map]
  · obtain ⟨i, x, j, hx, hj, rfl⟩ := l.covers hn
    have hopeners := openers_shifts (fun j hj => h.getElem?_eq l l' hx hj) (h.shifts hx)
      (l.start i).2 (l'.start (σ i)).2 j (Nat.le_of_lt hj)
    rw [h.shifts hx j hj, frameOf, frameOf, hopeners, List.head?_map]
  · intro q n i i' hq hqi hn hni hframe hlt
    obtain ⟨k, x, j, hx, hj, rfl⟩ := l.covers (List.getElem?_eq_some_iff.mp hq).1
    obtain ⟨k', x', j', hx', hj', rfl⟩ := l.covers (List.getElem?_eq_some_iff.mp hn).1
    rw [h.shifts hx j hj, h.shifts hx' j' hj']
    rcases Nat.lt_trichotomy k k' with hkk | rfl | hkk
    · -- Only the main program has locals in two statements, and then no definition has them.
      have hnone := l.frameOf_eq_none hx hkk hj hframe
      have hdef : x.isMethodDef = false := Bool.eq_false_iff.mpr fun hdef =>
        frameOf_ne_none l.replayed hdef (l.statement hx) (by omega) (by omega) hq hqi
          (hframe.trans hnone)
      have hdef' : x'.isMethodDef = false := Bool.eq_false_iff.mpr fun hdef =>
        frameOf_ne_none l.replayed hdef (l.statement hx') (by omega) (by omega) hn hni hnone
      have := Node.startOf_add_count_le ((h.moves k).trans hx)
        (h.keeps k k' x x' hkk hx hx' hdef hdef')
      omega
    · omega
    · have := Node.startOf_add_count_le hx' hkk
      omega

end Reordered

end Rubylet
