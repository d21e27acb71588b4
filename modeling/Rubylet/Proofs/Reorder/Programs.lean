import Rubylet.Proofs.Graph.Scopes
import Rubylet.Proofs.Reorder.Types
import Rubylet.Proofs.Reorder.Values

/-!
# Programs in another order

The main result about reordered statements: in which order the methods of a program are defined does
not matter (`definition_order_irrelevant`). Its two halves do not know of one another. Types are
followed through the graph, values through direct evaluation, and both go by the records' new
numbers (`Node.relocate`).
-/

namespace Rubylet

open Direct Lowering

variable {σ : Equiv.Perm Nat} {xs ys : List Node} {code : List Instruction}
  {records : List TypedRecord}

namespace Reorders

variable (h : Reorders σ xs ys)

include h

/-- The statements are the same. -/
theorem mem_of_mem {y : Node} (hy : y ∈ ys) : y ∈ xs := by
  obtain ⟨i, hi⟩ := List.mem_iff_getElem?.mp hy
  exact List.mem_of_getElem? ((h.symm.moves i).trans hi)

theorem surface (hs : Surface (.statements xs)) : Surface (.statements ys) :=
  Surface.statements_iff.mpr fun y hy => Surface.statements_iff.mp hs y (h.mem_of_mem hy)

/-- What is lowered in one order is lowered in another one. -/
theorem exists_lowered (l : Lowered xs code) : ∃ code', Lowered ys code' := by
  have hall := exists_lowerAll_iff.mp ⟨code, l.lowered⟩
  obtain ⟨code', hcode'⟩ := exists_lowerAll_iff.mpr fun y hy => hall y (h.mem_of_mem hy)
  exact ⟨code', h.surface l.surface, hcode'⟩

/-- What is typed in one order is typed in another one. -/
theorem exists_typed (hd : Distinct (declared xs)) (hs : Surface (.statements xs))
    (hx : ∃ records, (Node.block .start xs).typed = .ok records) :
    ∃ records, (Node.block .start ys).typed = .ok records := by
  obtain ⟨records, hx⟩ := hx
  obtain ⟨code, hcode, hr⟩ := Node.typed_eq_ok_iff.mp hx
  obtain ⟨code', l'⟩ := h.exists_lowered ⟨hs, hcode⟩
  obtain ⟨records', hr', -⟩ := h.infer hd ⟨hs, hcode⟩ l' hr
  exact ⟨records', Node.typed_eq_ok_iff.mpr ⟨code', l'.lowered, hr'⟩⟩

end Reorders

/-- The value of typed code is the value of its statements. -/
theorem Lowered.execute_eq (l : Lowered xs code) (hr : infer code = .ok records) (memory : Nat) :
    Program.execute memory .vm records =
      Direct.run memory Machine.maxCallDepth (.block .start xs) := by
  obtain ⟨g, hg⟩ := exists_build_of_infer hr
  obtain ⟨m, hload, hloaded⟩ := load_spec memory l.layout (map_instruction_of_infer hg hr)
    (firstUntyped?_of_infer hg hr)
  obtain rfl := memory_of_load hload
  simp only [Program.execute, hload, bind, Except.bind]
  exact run_eq_run hloaded .start

namespace Sample

/-- The method `a` is defined behind the line that calls it. -/
def bareReordered : List Node := [.assign ⟨3, 1⟩ "b" (.call ⟨3, 5⟩ none "a" []),
  .methodDef ⟨1, 1⟩ "a" [] (some (.block ⟨1, 6⟩ [])), .localRead ⟨4, 1⟩ "b"]

theorem reorders_bare : Reorders (Equiv.swap 0 1) bareStatements bareReordered := by
  refine ⟨fun i => ?_, fun i k x y hik hx hy hdef _ => ?_, by decide⟩
  · obtain rfl | rfl | hi : i = 0 ∨ i = 1 ∨ 2 ≤ i := by omega
    · rfl
    · rfl
    · rw [Equiv.swap_apply_of_ne_of_ne (by omega) (by omega)]
      obtain ⟨i, rfl⟩ := Nat.exists_eq_add_of_le' hi
      rfl
  · have hk : k < 3 := (List.getElem?_eq_some_iff.mp hy).1
    have hi : i ≠ 0 := by
      rintro rfl
      obtain rfl := Option.some.inj hx
      cases hdef
    -- Only the first statement is a definition, so the other two are in question.
    obtain ⟨rfl, rfl⟩ : i = 1 ∧ k = 2 := by omega
    decide

end Sample

/-- **The order of definitions does not matter.** Take a program in which no method is defined
twice, outside of classes or in one class, and which ends in an expression, and reorder its
statements so that only definitions of methods pass other statements and the last one stays the
last. Then one order is typed if and only if the other one is; a record has the same type in both;
and the machine answers the same value, or fails with the same error at the corresponding record. -/
theorem definition_order_irrelevant {source : String}
    (hread : Syntax.read source = .ok (.block .start xs)) (honce : NamesOnce (declared xs))
    (hlast : xs.getLast?.map Node.isAction = some false) (h : Reorders σ xs ys)
    (memory : Nat) :
    ((∃ records, (Node.block .start xs).typed = .ok records) ↔
      ∃ records, (Node.block .start ys).typed = .ok records) ∧
    ∀ records records', (Node.block .start xs).typed = .ok records →
      (Node.block .start ys).typed = .ok records' →
      (∀ n, records'[Node.relocate σ xs ys n]? = records[n]?) ∧
      Program.execute memory .vm records' =
        (Program.execute memory .vm records).mapError (RunError.renumber (Node.relocate σ xs ys)) := by
  obtain ⟨_, hroot, hs⟩ := Syntax.surface_of_read hread
  obtain ⟨-, rfl⟩ := Node.block.inj hroot
  have hd := honce.distinct
  have hs' := h.surface hs
  refine ⟨⟨h.exists_typed hd hs, h.symm.exists_typed (h.distinct hd) hs'⟩, ?_⟩
  intro records records' hx hy
  obtain ⟨code, hcode, hr⟩ := Node.typed_eq_ok_iff.mp hx
  obtain ⟨code', hcode', hr'⟩ := Node.typed_eq_ok_iff.mp hy
  have l : Lowered xs code := ⟨hs, hcode⟩
  have l' : Lowered ys code' := ⟨hs', hcode'⟩
  -- Types and values are each told by a theorem of its own.
  obtain ⟨records'', hr'', htypes⟩ := h.infer hd l l' hr
  obtain rfl := Except.ok.inj (hr'.symm.trans hr'')
  exact ⟨htypes, by rw [l.execute_eq hr, l'.execute_eq hr', h.run_eq l hd hlast memory]; rfl⟩

theorem definition_order_irrelevant_bare :
    Syntax.read Sample.bare = .ok (.block .start Sample.bareStatements) ∧
    ∃ records records', (Node.block .start Sample.bareStatements).typed = .ok records ∧
      (Node.block .start Sample.bareReordered).typed = .ok records' ∧
      (∀ n, records'[Node.relocate (Equiv.swap 0 1) Sample.bareStatements Sample.bareReordered n]? =
        records[n]?) ∧
      Program.execute Sample.memory .vm records' = (Program.execute Sample.memory .vm records).mapError
        (RunError.renumber (Node.relocate (Equiv.swap 0 1) Sample.bareStatements Sample.bareReordered)) := by
  have honce : NamesOnce (declared Sample.bareStatements) := by
    unfold NamesOnce
    decide
  obtain ⟨htyped, hsame⟩ :=
    definition_order_irrelevant Sample.read_bare honce rfl Sample.reorders_bare Sample.memory
  obtain ⟨records, hr⟩ := exists_of_isOk (x := (Node.block .start Sample.bareStatements).typed)
    (by decide +kernel)
  -- The reordered program needs no evaluation of its own: the theorem types it.
  obtain ⟨records', hr'⟩ := htyped.mp ⟨records, hr⟩
  exact ⟨Sample.read_bare, records, records', hr, hr', hsame records records' hr hr'⟩

end Rubylet
