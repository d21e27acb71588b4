import Rubylet.Proofs.Safety.Run

/-!
# Locals and instances

Two things that a typed program does with its locals. A read pushes a value of the type that was
found for it (`read_has_its_type`), and `new` answers an instance of the class that was found for
the call, whichever way the class came to be the receiver (`new_instantiates_its_type`).

Both hold of a run up to the first read of a local that is not there, in a program in which all
assignments to a local of a frame may stand for the same classes (`SameClasses`). Neither condition
can be left out, and inference checks neither:

* it takes a local for assigned behind every assignment in the text, also if the assignment stands
  in a branch that is not taken (`unassigned_read`);
* it takes the class of a local from the first assignment alone (`reassigned_class`).
-/

namespace Rubylet

open Replay Machine

namespace Checked

variable {code : List Instruction} {g : Graph} {m : Machine} {statements : List Node}
  {i : Instruction} {s : Machine.State} {a : Activation} {outer : List Activation}

variable (c : Checked code g m statements)

include c

/-- The next instruction occurs, and the activations fit the replay before it. -/
theorem occurs_of_visits (h : m.Visits s) (hi : m.code[s.next]? = some i)
    (hframes : s.frames = a :: outer) :
    (∃ e, Occurs code s.next i e) ∧
      FramesFit code g.Holds (Calls code g) s.next (stateAt code s.next).stack (a :: outer) := by
  have hfits := (c.fits h).frames
  rw [hframes] at hfits
  rw [c.loaded.code_eq, List.getElem?_toArray] at hi
  exact ⟨c.built.occurs hi, hfits⟩

/-- **What `new` answers** may come from the call. -/
theorem holds_new {count : Option Int} {cls : String} {rest : List Value} (h : m.Visits s)
    (hi : m.code[s.next]? = some i) (hop : i.op = .send "new" count)
    (hframes : s.frames = a :: outer)
    (hreceiver : (takeArgs i.op.argCount a.stack).2 = .cls cls :: rest) :
    g.Holds s.next (.object cls) := by
  obtain ⟨⟨e, ho⟩, hfits⟩ := c.occurs_of_visits h hi hframes
  obtain ⟨r, args, below, receiver, rest', rfl, -, -, htake, hargs, hr, -⟩ :=
    c.send_operands hfits ho hop
  rw [htake] at hreceiver
  obtain ⟨rfl, -⟩ := List.cons.inj hreceiver
  -- A class object reacts to `new` in one way, so only the first of the four cases is left.
  have hreact : ∀ owner values, m.react owner "new" (.cls cls) values = .answer (.object cls) :=
    fun owner values => by rw [react, if_pos rfl]
  rcases c.react_cases ho hop hr hargs with ⟨v, hv, hholds⟩ | ⟨d, owner, hv, -⟩ | hv |
      ⟨text, k, fault, -, -, -, -, hv⟩
  · rw [hreact] at hv
    obtain rfl := Reaction.answer.inj hv
    exact hholds
  all_goals
    rw [hreact] at hv
    cases hv

/-- **What a read pushes** may come from the read. -/
theorem holds_read {name : String} {v : Value} (h : m.Visits s) (hi : m.code[s.next]? = some i)
    (hop : i.op = .pushVar name) (hframes : s.frames = a :: outer)
    (hv : a.locals.get? name = some v) : g.Holds s.next v := by
  obtain ⟨⟨e, ho⟩, hfits⟩ := c.occurs_of_visits h hi hframes
  obtain ⟨first, hfirst, hd⟩ := c.built.read_edge c.roles ho hop
  exact c.flow ho (hfits.activation.locals name v hv first hfirst) hd (by simp [hop]) (by simp [hop])

end Checked

variable {source : String} {code : List Instruction} {records : List TypedRecord} {g : Graph}

/-- The machine of a typed program, and what is known of it if locals have their classes. -/
theorem exists_checked (hcode : Program.code source = .ok code) (hg : Graph.build code = .ok g)
    (hinfer : infer code = .ok records) (hsame : SameClasses code g) (memory : Nat) :
    ∃ m statements, Machine.load memory records = .ok m ∧ Checked code g m statements := by
  obtain ⟨statements, g', m, -, hc, rfl⟩ := compiled_of_code hcode hinfer memory
  obtain rfl := Except.ok.inj (hc.built.symm.trans hg)
  exact ⟨m, statements, hc.loads, hc.checked hsame⟩

/-! ### Instances -/

/-- **`new` instantiates the class of its type.** When a class object receives `new` in a run of a
typed program, the call has the type of its instances, and the next state has one of them on top. -/
theorem new_instantiates_its_type (hcode : Program.code source = .ok code)
    (hg : Graph.build code = .ok g) (hinfer : infer code = .ok records)
    (hsame : SameClasses code g) (memory : Nat) :
    ∃ m, Machine.load memory records = .ok m ∧
      ∀ s i count a outer cls rest, m.Visits s → m.code[s.next]? = some i →
        i.op = .send "new" count → s.frames = a :: outer →
        (takeArgs i.op.argCount a.stack).2 = .cls cls :: rest →
        typeAt? records s.next = some (.object cls) ∧
        m.step i s = .next { s with
          next := s.next + 1
          frames := { a with stack := .object cls :: rest } :: outer } := by
  obtain ⟨m, statements, hload, c⟩ := exists_checked hcode hg hinfer hsame memory
  refine ⟨m, hload, ?_⟩
  intro s i count a outer cls rest hs hi hop hframes hreceiver
  have hholds := c.holds_new hs hi hop hframes hreceiver
  refine ⟨typeAt?_of_hasType hg hinfer hholds.type, ?_⟩
  -- What the step does can be computed, since the receiver is known.
  unfold Machine.step
  simp only [hframes, hop, Machine.send]
  rw [← hop, hreceiver]
  simp only [react, if_true]

theorem new_instantiates_its_type_pick : ∃ g records, Graph.build Sample.pickCode = .ok g ∧
    infer Sample.pickCode = .ok records ∧ ∃ m, Machine.load Sample.memory records = .ok m ∧
      ∀ s i count a outer cls rest, m.Visits s → m.code[s.next]? = some i →
        i.op = .send "new" count → s.frames = a :: outer →
        (takeArgs i.op.argCount a.stack).2 = .cls cls :: rest →
        typeAt? records s.next = some (.object cls) ∧
        m.step i s = .next { s with
          next := s.next + 1
          frames := { a with stack := .object cls :: rest } :: outer } := by
  obtain ⟨records, hr⟩ := exists_of_isOk Sample.infer_isOk.1
  obtain ⟨g, hg⟩ := exists_build_of_infer hr
  -- The program assigns each class to one local only.
  have hsame := (Sample.oneClass_pick records).sameClasses hg hr
  exact ⟨g, records, hg, hr, new_instantiates_its_type Sample.code_pick hg hr hsame Sample.memory⟩

/-! ### Reads -/

/-- **A read has its type.** When a run of a typed program reads a local that is there, the value it
pushes has the type of the read. -/
theorem read_has_its_type (hcode : Program.code source = .ok code)
    (hg : Graph.build code = .ok g) (hinfer : infer code = .ok records)
    (hsame : SameClasses code g) (memory : Nat) :
    ∃ m, Machine.load memory records = .ok m ∧
      ∀ s i name a outer v, m.Visits s → m.code[s.next]? = some i → i.op = .pushVar name →
        s.frames = a :: outer → a.locals.get? name = some v →
        HasStaticType records s.next v ∧
        m.step i s = .next { s with
          next := s.next + 1
          frames := { a with stack := v :: a.stack } :: outer } := by
  obtain ⟨m, statements, hload, c⟩ := exists_checked hcode hg hinfer hsame memory
  refine ⟨m, hload, ?_⟩
  intro s i name a outer v hs hi hop hframes hv
  -- A local that is bound has been bound by an assignment of this type.
  have hholds := c.holds_read hs hi hop hframes hv
  refine ⟨typeAt?_of_hasType hg hinfer hholds.type, ?_⟩
  unfold Machine.step
  simp only [hframes, hop, hv, Option.getD_some, advance]

theorem read_has_its_type_pick : ∃ g records, Graph.build Sample.pickCode = .ok g ∧
    infer Sample.pickCode = .ok records ∧ ∃ m, Machine.load Sample.memory records = .ok m ∧
      ∀ s i name a outer v, m.Visits s → m.code[s.next]? = some i → i.op = .pushVar name →
        s.frames = a :: outer → a.locals.get? name = some v →
        HasStaticType records s.next v ∧
        m.step i s = .next { s with
          next := s.next + 1
          frames := { a with stack := v :: a.stack } :: outer } := by
  obtain ⟨records, hr⟩ := exists_of_isOk Sample.infer_isOk.1
  obtain ⟨g, hg⟩ := exists_build_of_infer hr
  have hsame := (Sample.oneClass_pick records).sameClasses hg hr
  exact ⟨g, records, hg, hr, read_has_its_type Sample.code_pick hg hr hsame Sample.memory⟩

/-! ### Where the conditions fail -/

/-- What inference finds for the last record of some code, and what the machine ends with. -/
theorem end_of_code {n : Nat} {t : Ty} {v : Value} (hcode : Program.code source = .ok code)
    (h : (infer code).toOption.bind (fun records =>
      (Program.execute Sample.memory .vm records).toOption.map fun w => (typeAt? records n, w)) =
        some (some t, v)) :
    ∃ records, infer code = .ok records ∧ typeAt? records n = some t ∧
      Program.value Sample.memory .vm source = .ok v := by
  -- Both results are there, or the pair would not be.
  cases hr : infer code with
  | error e => rw [hr] at h; cases h
  | ok records =>
    rw [hr] at h
    cases hv : Program.execute Sample.memory .vm records with
    | error e =>
      simp only [Except.toOption, Option.bind_some, hv, Option.map_none, reduceCtorEq] at h
    | ok w =>
      simp only [Except.toOption, Option.bind_some, hv, Option.map_some, Option.some.injEq,
        Prod.mk.injEq] at h
      obtain ⟨htype, rfl⟩ := h
      refine ⟨records, rfl, htype, ?_⟩
      rw [value_eq_execute (typed_eq_ok_iff.mpr ⟨code, hcode, hr⟩), hv]
      rfl

/-- **A class that is assigned over**: the program ends with the call of `new`, whose type is that of
an instance of the first class, and its value is an instance of the second one. -/
theorem reassigned_class : ∃ code records, Program.code Sample.reassigned = .ok code ∧
    infer code = .ok records ∧ code[9]?.map Instruction.op = some (.send "new" (some 0)) ∧
    code.length = 10 ∧ typeAt? records 9 = some (.object "A") ∧
    Program.value Sample.memory .vm Sample.reassigned = .ok (.object "B") := by
  obtain ⟨records, hr, ht, hv⟩ := end_of_code (n := 9) (t := .object "A")
    (v := .object "B") Sample.code_reassigned (by decide +kernel)
  exact ⟨_, records, Sample.code_reassigned, hr, rfl, rfl, ht, hv⟩

/-- **A local that is not assigned**: the program ends with a read of it, whose type is that of
integers, and its value is nil. -/
theorem unassigned_read : ∃ code records, Program.code Sample.unassigned = .ok code ∧
    infer code = .ok records ∧ code[8]?.map Instruction.op = some (.pushVar "x") ∧
    code.length = 9 ∧ typeAt? records 8 = some .int ∧
    Program.value Sample.memory .vm Sample.unassigned = .ok .nil := by
  obtain ⟨records, hr, ht, hv⟩ := end_of_code (n := 8) (t := .int) (v := .nil)
    Sample.code_unassigned (by decide +kernel)
  exact ⟨_, records, Sample.code_unassigned, hr, rfl, rfl, ht, hv⟩

end Rubylet
