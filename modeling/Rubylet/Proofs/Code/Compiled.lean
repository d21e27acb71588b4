import Rubylet.Proofs.Code.Loading
import Rubylet.Proofs.Syntax.Descent
import Rubylet.Proofs.Typing.Exact

/-!
# Compiled programs

What is known of a program text that has been compiled: `Compiled` collects the results of its
stages, which the theorems about the backends start from. Once all its records have types, nothing
can keep a program from being loaded (`compiled_of_code`).
-/

namespace Rubylet

/-- The code of a program that can be typed, and its typed code. -/
theorem typed_eq_ok_iff {source : String} {records : List TypedRecord} :
    Program.typed source = .ok records ↔
      ∃ code, Program.code source = .ok code ∧ infer code = .ok records := by
  cases hc : Program.code source with
  | error e => simp [Program.typed, hc, bind, Except.bind]
  | ok code => simp [Program.typed, hc, bind, Except.bind]

/-- The typed code of a syntax tree. -/
def Node.typed (x : Node) : Except StageError (List TypedRecord) := do
  infer (← Program.codeOf x)

/-- A tree has typed records exactly when it lowers and inference accepts what it lowers to. -/
theorem Node.typed_eq_ok_iff {x : Node} {records : List TypedRecord} : x.typed = .ok records ↔
    ∃ code, Lowering.program x = .ok code ∧ infer code = .ok records := by
  constructor
  · intro h
    obtain ⟨code, hcode, hinfer⟩ := exists_of_bind_eq_ok h
    exact ⟨code, mapError_eq_ok_iff.mp hcode, hinfer⟩
  · rintro ⟨code, hcode, hinfer⟩
    rw [typed, Program.codeOf, mapError_eq_ok_iff.mpr hcode]
    exact hinfer

/-- A program is typed as its syntax tree is. -/
theorem typed_eq_of_read {source : String} {root : Node} (h : Syntax.read source = .ok root) :
    Program.typed source = root.typed := by
  rw [Program.typed, Program.code, h]
  rfl

/-- What can keep a syntax tree from being typed. -/
theorem Node.cases_of_typed_error {x : Node} {error : CompileError}
    (h : x.typed = .error (.compile error)) :
    Lowering.program x = .error error ∨
      ∃ code, Lowering.program x = .ok code ∧ infer code = .error (.compile error) := by
  rw [Node.typed, Program.codeOf] at h
  -- The two stages run in turn: either lowering fails, or inference does on the code it gave.
  cases hcode : Lowering.program x with
  | error e =>
    rw [hcode] at h
    exact .inl (congrArg _ (StageError.compile.inj (Except.error.inj h)))
  | ok code =>
    rw [hcode] at h
    exact .inr ⟨code, rfl, h⟩

/-- The value of a program that can be typed is that of its typed code. -/
theorem value_eq_execute {source : String} {records : List TypedRecord}
    (h : Program.typed source = .ok records) (memory : Nat) (backend : Backend) :
    Program.value memory backend source =
      (Program.execute memory backend records).mapError .run := by
  rw [Program.value, h]
  rfl

/-- The stages of a program that has been compiled: its statements, its code, its graph, its typed
records and its machine. -/
structure Compiled (statements : List Node) (code : List Instruction) (g : Graph)
    (records : List TypedRecord) (m : Machine) : Prop where
  built : Graph.build code = .ok g
  inferred : infer code = .ok records
  loads : Machine.load m.memory records = .ok m
  loaded : Loaded m code statements

/-- The records are the instructions with their types. -/
theorem map_instruction_of_infer {code : List Instruction} {g : Graph}
    {records : List TypedRecord} (h : Graph.build code = .ok g) (hr : infer code = .ok records) :
    records.map TypedRecord.instruction = code := by
  -- Record by record: both lists have one entry for each instruction, and nothing past the end.
  refine List.ext_getElem? fun n => ?_
  cases hi : code[n]? with
  | none =>
    rw [List.getElem?_eq_none_iff] at hi ⊢
    rwa [List.length_map, length_of_infer h hr]
  | some i =>
    obtain ⟨t, ht, -⟩ := getElem?_of_infer h hr hi
    rw [List.getElem?_map, ht]
    rfl

/-- **The code of a program is laid out** as its statements are. -/
theorem exists_layout_of_code {source : String} {code : List Instruction}
    (h : Program.code source = .ok code) :
    ∃ statements, Syntax.read source = .ok (.block .start statements) ∧
      Layout code (fun _ _ => True) none (.statements statements) 0 code.length := by
  obtain ⟨root, hread, hlower⟩ := Program.code_eq_ok_iff.mp h
  obtain ⟨statements, rfl, hsurface⟩ := Syntax.surface_of_read hread
  have hlayout := layout_of_lower hsurface hlower (CodeAt.self code)
  rw [Nat.zero_add] at hlayout
  exact ⟨statements, hread, hlayout⟩

/-- **What can be compiled can be loaded**, however much room there is. -/
theorem compiled_of_code {source : String} {code : List Instruction} {records : List TypedRecord}
    (hcode : Program.code source = .ok code) (hinfer : infer code = .ok records) (memory : Nat) :
    ∃ statements g m, Syntax.read source = .ok (.block .start statements) ∧
      Compiled statements code g records m ∧ m.memory = memory := by
  obtain ⟨statements, hread, hlayout⟩ := exists_layout_of_code hcode
  obtain ⟨g, hg⟩ := exists_build_of_infer hinfer
  obtain ⟨m, hload, hloaded⟩ := load_spec memory hlayout (map_instruction_of_infer hg hinfer)
    (firstUntyped?_of_infer hg hinfer)
  obtain rfl := memory_of_load hload
  exact ⟨statements, g, m, hread, ⟨hg, hinfer, hload, hloaded⟩, rfl⟩

/-- A source with typed records was read, built and loaded on the way, whatever the memory. -/
theorem compiled_of_typed {source : String} {records : List TypedRecord}
    (h : Program.typed source = .ok records) (memory : Nat) :
    ∃ statements code g m, Syntax.read source = .ok (.block .start statements) ∧
      Compiled statements code g records m ∧ m.memory = memory := by
  obtain ⟨code, hcode, hinfer⟩ := typed_eq_ok_iff.mp h
  obtain ⟨statements, g, m, hread, hc, hmemory⟩ := compiled_of_code hcode hinfer memory
  exact ⟨statements, code, g, m, hread, hc, hmemory⟩

/-! ### Programs and their code -/

namespace Sample

/-- Room for texts of a page. -/
def memory : Nat := 4096

/-- A method of a class, with a branch. -/
def pick : String :=
  "class Box\n  def pick(a)\n    if a\n      a + 1\n    else\n      0\n    end\n  end\nend\n" ++
    "b = Box.new\nb.pick(2)\n"

def pickCode : List Instruction := [
  ⟨.classStart "Box", .classDef, 1, 1⟩,
  ⟨.defStart "pick", .methodDef, 2, 3⟩,
  ⟨.pushArg 0, .argument "a", 2, 12⟩,
  ⟨.setVar "a", .argument "a", 2, 12⟩,
  ⟨.pushVar "a", .localRead, 3, 8⟩,
  ⟨.ifStart, .conditional, 3, 5⟩,
  ⟨.pushVar "a", .localRead, 4, 7⟩,
  ⟨.pushInt 1, .integer, 4, 11⟩,
  ⟨.send "+" (some 1), .call, 4, 9⟩,
  ⟨.ifElse, .conditional, 3, 5⟩,
  ⟨.pushInt 0, .integer, 6, 7⟩,
  ⟨.ifEnd, .conditional, 3, 5⟩,
  ⟨.defEnd "pick", .methodDef, 2, 3⟩,
  ⟨.classEnd "Box", .classDef, 1, 1⟩,
  ⟨.pushConst "Box", .constant, 10, 5⟩,
  ⟨.send "new" (some 0), .call, 10, 9⟩,
  ⟨.setVar "b", .assignment, 10, 1⟩,
  ⟨.pushVar "b", .localRead, 11, 1⟩,
  ⟨.pushInt 2, .integer, 11, 8⟩,
  ⟨.send "pick" (some 1), .call, 11, 3⟩]

/-- A method that divides. -/
def half : String := "def half(n)\n  n / 2\nend\nhalf(9)\n"

def halfCode : List Instruction := [
  ⟨.defStart "half", .methodDef, 1, 1⟩,
  ⟨.pushArg 0, .argument "n", 1, 10⟩,
  ⟨.setVar "n", .argument "n", 1, 10⟩,
  ⟨.pushVar "n", .localRead, 2, 3⟩,
  ⟨.pushInt 2, .integer, 2, 7⟩,
  ⟨.send "/" (some 1), .call, 2, 5⟩,
  ⟨.defEnd "half", .methodDef, 1, 1⟩,
  ⟨.pushNil, .call, 4, 1⟩,
  ⟨.pushInt 9, .integer, 4, 6⟩,
  ⟨.send "half" (some 1), .call, 4, 1⟩]

/-- A text that is repeated more often than texts can be. -/
def repetition : String := "\"\" * 9223372036854775808"

def repetitionCode : List Instruction := [
  ⟨.pushStr "", .text, 1, 1⟩,
  ⟨.pushInt 9223372036854775808, .integer, 1, 6⟩,
  ⟨.send "*" (some 1), .call, 1, 4⟩]

def repetitionRecords : List TypedRecord := [
  ⟨⟨.pushStr "", .text, 1, 1⟩, some .str⟩,
  ⟨⟨.pushInt 9223372036854775808, .integer, 1, 6⟩, some .int⟩,
  ⟨⟨.send "*" (some 1), .call, 1, 4⟩, some .str⟩]

/-- A local that is one class first and another one then. -/
def reassigned : String := "class A\nend\nclass B\nend\nx = A\nx = B\nx.new\n"

def reassignedCode : List Instruction := [
  ⟨.classStart "A", .classDef, 1, 1⟩,
  ⟨.classEnd "A", .classDef, 1, 1⟩,
  ⟨.classStart "B", .classDef, 3, 1⟩,
  ⟨.classEnd "B", .classDef, 3, 1⟩,
  ⟨.pushConst "A", .constant, 5, 5⟩,
  ⟨.setVar "x", .assignment, 5, 1⟩,
  ⟨.pushConst "B", .constant, 6, 5⟩,
  ⟨.setVar "x", .assignment, 6, 1⟩,
  ⟨.pushVar "x", .localRead, 7, 1⟩,
  ⟨.send "new" (some 0), .call, 7, 3⟩]

/-- A local that is assigned in a branch that is not taken. -/
def unassigned : String := "if nil\n  x = 1\n  nil\nend\nx\n"

def unassignedCode : List Instruction := [
  ⟨.pushNil, .nil, 1, 4⟩,
  ⟨.ifStart, .conditional, 1, 1⟩,
  ⟨.pushInt 1, .integer, 2, 7⟩,
  ⟨.setVar "x", .assignment, 2, 3⟩,
  ⟨.pushNil, .nil, 3, 3⟩,
  ⟨.ifElse, .conditional, 1, 1⟩,
  ⟨.pushNil, .conditional, 1, 1⟩,
  ⟨.ifEnd, .conditional, 1, 1⟩,
  ⟨.pushVar "x", .localRead, 5, 1⟩]

/-- Two methods that call one another without end. In the body of one of them a class is opened
again, and defines a method once more. -/
def descent : String :=
  "class A\n def f\n  g\n end\n def g\n  1\n end\nend\ndef h\n class A\n  def g\n   2\n  end\n end\n" ++
  " k(A.new.f)\n 0\nend\ndef k(n)\n h\nend\nh\n"

/-- The samples by descent. They are evaluated together, once. -/
theorem descends :
    (Syntax.descend? pick).map (· >>= Program.codeOf) = some (.ok pickCode) ∧
    (Syntax.descend? half).map (· >>= Program.codeOf) = some (.ok halfCode) ∧
    (Syntax.descend? repetition).map (· >>= Program.codeOf) = some (.ok repetitionCode) ∧
    (Syntax.descend? reassigned).map (· >>= Program.codeOf) = some (.ok reassignedCode) ∧
    (Syntax.descend? unassigned).map (· >>= Program.codeOf) = some (.ok unassignedCode) ∧
    ((Syntax.descend? descent).map fun root => (root >>= Node.typed).isOk) = some true := by
  delta pick half repetition reassigned unassigned descent
  rw [Syntax.descend?_append, Syntax.descend?_ofList, Syntax.descend?_ofList,
    Syntax.descend?_ofList, Syntax.descend?_ofList, Syntax.descend?_append]
  decide +kernel

theorem code_pick : Program.code pick = .ok pickCode :=
  Syntax.code_of_descend descends.1

theorem code_half : Program.code half = .ok halfCode :=
  Syntax.code_of_descend descends.2.1

theorem code_repetition : Program.code repetition = .ok repetitionCode :=
  Syntax.code_of_descend descends.2.2.1

theorem code_reassigned : Program.code reassigned = .ok reassignedCode :=
  Syntax.code_of_descend descends.2.2.2.1

theorem code_unassigned : Program.code unassigned = .ok unassignedCode :=
  Syntax.code_of_descend descends.2.2.2.2.1

theorem exists_typed_descent : ∃ code records, Program.code descent = .ok code ∧
    infer code = .ok records := by
  obtain ⟨root, hroot, hok⟩ := Option.map_eq_some_iff.mp descends.2.2.2.2.2
  obtain ⟨records, hrecords⟩ := exists_of_isOk hok
  obtain ⟨x, rfl, htyped⟩ := exists_of_bind_eq_ok hrecords
  have heq : Program.typed descent = .ok records :=
    (typed_eq_of_read (Syntax.read_of_descend hroot)).trans htyped
  obtain ⟨code, hcode, hinfer⟩ := typed_eq_ok_iff.mp heq
  exact ⟨code, records, hcode, hinfer⟩

theorem infer_isOk : (infer pickCode).isOk ∧ (infer halfCode).isOk ∧
    (infer repetitionCode).isOk := by
  decide +kernel

end Sample

end Rubylet
