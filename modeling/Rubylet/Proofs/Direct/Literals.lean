import Rubylet.Proofs.Direct.Agreement
import Rubylet.Proofs.Syntax.Shown

/-!
# Shown values run to themselves

What a value is shown as is a program, if the value is nil, a string, or an integer that is not
negative and can be shown. It is read as one literal (`Syntax.read_inspectString`,
`Syntax.read_repr`, `Syntax.read_nil`), which is lowered to one instruction and has the value again.

* `value_inspect`: the round trip, from the value to its text and through the machine back to it.
* `powerOfTen_is_not_shown`: the bound on the digits cannot be left out.
-/

namespace Rubylet

open Machine Inference

/-- Code of which every record is typed from the start is inferred. -/
theorem exists_infer_of_given {code : List Instruction} {g : Graph} (h : Graph.build code = .ok g)
    (hgiven : ∀ n < g.records.size, ∃ t, (g.record n).given? = some t) :
    ∃ records, infer code = .ok records := by
  obtain ⟨-, hiff, -⟩ := mapM_resolve (Graph.built_of_build h).isWired (List.range g.records.size)
    .fresh
  have hts := hiff.mpr fun n hn => (hgiven n (List.mem_range.mp hn)).imp fun _ => .given
  exact ⟨_, (infer_eq_ok_iff h).mpr ⟨hts, rfl⟩⟩

namespace Node

/-- The value of a literal. -/
def literal? : Node → Option Value
  | .integer _ n => some (.int n)
  | .text _ s => some (.str s)
  | .nil _ => some .nil
  | _ => none

variable {x : Node} {v : Value}

/-- A literal is lowered to one instruction, and that has a type from the start. -/
theorem exists_infer_of_literal (hx : x.literal? = some v) : ∃ code,
    Lowering.program (.block .start [x]) = .ok code ∧ ∃ records, infer code = .ok records := by
  -- There is one record and no edge, so the graph can be written down.
  obtain ⟨i, t, hlower, hgiven, g, hbuild, hrecords⟩ : ∃ i t,
      Lowering.program (.block .start [x]) = .ok [i] ∧ i.op.givenType? = some t ∧ ∃ g,
        Graph.build [i] = .ok g ∧ g.records = #[⟨i, i.op.givenType?, [], none⟩] := by
    cases x <;> cases hx <;> exact ⟨_, _, rfl, rfl, _, rfl, rfl⟩
  refine ⟨[i], hlower, exists_infer_of_given hbuild fun n hn => ⟨t, ?_⟩⟩
  have hn' : n < 1 := by simpa [hrecords] using hn
  obtain rfl := Nat.lt_one_iff.mp hn'
  rw [Graph.record, hrecords]
  exact hgiven

theorem run_literal (hx : x.literal? = some v) (memory depth : Nat) :
    Direct.run memory depth (.block .start [x]) = .ok v := by
  cases x <;> cases hx <;> rfl

end Node

/-- **A literal by itself is its value.** -/
theorem value_of_literal {source : String} {x : Node} {v : Value}
    (hread : Syntax.read source = .ok (.block .start [x])) (hx : x.literal? = some v)
    (memory : Nat) : Program.value memory .vm source = .ok v := by
  obtain ⟨code, hlower, records, hinfer⟩ := Node.exists_infer_of_literal hx
  have hcode := Program.code_eq_ok_iff.mpr ⟨_, hread, hlower⟩
  have htyped := typed_eq_ok_iff.mpr ⟨code, hcode, hinfer⟩
  obtain ⟨statements, _, _, m, hread', hc, rfl⟩ := compiled_of_typed htyped memory
  obtain rfl := (Node.block.inj (Except.ok.inj (hread'.symm.trans hread))).2
  rw [hc.value_eq_run htyped, Direct.run_eq_run hc.loaded .start, Node.run_literal hx]
  rfl

/-- A value can be shown, and what it is shown as runs to the value. -/
def Value.RunsToItself (memory : Nat) (v : Value) : Prop :=
  ∃ shown, v.inspect = .ok shown ∧ Program.value memory .vm shown = .ok v

theorem Value.inspectInt_of_lt {n : Nat} (h : n < Nat.pow 10 maxDigits) :
    Value.inspectInt n = .ok n.repr := by
  rw [Value.inspectInt, Int.natAbs_natCast, if_neg (Nat.not_le.mpr h)]
  rfl

theorem Value.inspectInt_of_le {n : Nat} (h : Nat.pow 10 maxDigits ≤ n) :
    Value.inspectInt n = .error .tooManyDigits := by
  rw [Value.inspectInt, Int.natAbs_natCast, if_pos h]

/-- A number of too many digits is neither shown nor read. -/
theorem tooManyDigits_of_le {n : Nat} (h : Nat.pow 10 maxDigits ≤ n) (memory : Nat) :
    (Value.int n).inspect = .error .tooManyDigits ∧
      Program.value memory .vm n.repr = .error (.stage (.fault .tooManyDigits)) := by
  have hread : Syntax.read n.repr = .error (.fault .tooManyDigits) := by
    rw [Syntax.read_repr, if_pos h]
  refine ⟨Value.inspectInt_of_le h, ?_⟩
  rw [Program.value, Program.typed, Program.code, hread]
  rfl

/-- **Running the text of a value gives the value back**: of nil, of every string, and of every
integer that is not negative and has no more digits than are converted. Of an integer with more
digits there is no text, and its digits are no program. -/
theorem value_inspect (memory : Nat) :
    Value.RunsToItself memory .nil ∧ (∀ s, Value.RunsToItself memory (.str s)) ∧
    (∀ n : Nat, n < Nat.pow 10 maxDigits → Value.RunsToItself memory (.int n)) ∧
    ∀ n : Nat, Nat.pow 10 maxDigits ≤ n →
      (Value.int n).inspect = .error .tooManyDigits ∧
        Program.value memory .vm n.repr = .error (.stage (.fault .tooManyDigits)) := by
  refine ⟨?_, fun s => ?_, fun n hn => ?_, fun n hn => tooManyDigits_of_le hn memory⟩
  · exact ⟨_, rfl, value_of_literal Syntax.read_nil rfl memory⟩
  · exact ⟨_, rfl, value_of_literal (Syntax.read_inspectString s) rfl memory⟩
  · have hfew : ¬ Nat.pow 10 maxDigits ≤ n := Nat.not_le.mpr hn
    have hread : Syntax.read n.repr = .ok (.block .start [.integer .start n]) := by
      rw [Syntax.read_repr, if_neg hfew]
    exact ⟨n.repr, Value.inspectInt_of_lt hn, value_of_literal hread rfl memory⟩

theorem value_inspect_numbers : 42 < Nat.pow 10 maxDigits ∧
    Value.RunsToItself Sample.memory (.int 42) ∧
    (Value.int (Nat.pow 10 maxDigits)).inspect = .error .tooManyDigits := by
  obtain ⟨-, -, hfew, hmany⟩ := value_inspect Sample.memory
  have hlt : 42 < Nat.pow 10 maxDigits := by decide +kernel
  exact ⟨hlt, hfew 42 hlt, (hmany _ (Nat.le_refl _)).1⟩

/-- **Not every number runs to itself.** A one with as many zeros behind it as digits are converted
has a digit too many to be shown, and its digits cannot be read. -/
theorem powerOfTen_is_not_shown :
    (Value.int (Nat.pow 10 maxDigits)).inspect = .error .tooManyDigits ∧
    Program.value Sample.memory .vm (Nat.pow 10 maxDigits).repr =
      .error (.stage (.fault .tooManyDigits)) ∧
    ¬ ∀ n : Nat, Value.RunsToItself Sample.memory (.int n) := by
  obtain ⟨hshown, hvalue⟩ := tooManyDigits_of_le (Nat.le_refl _) Sample.memory
  refine ⟨hshown, hvalue, fun hall => ?_⟩
  obtain ⟨shown, hinspect, -⟩ := hall (Nat.pow 10 maxDigits)
  cases hshown.symm.trans hinspect

end Rubylet
