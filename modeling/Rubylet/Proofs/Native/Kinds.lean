import Rubylet.Proofs.Native.Declared
import Rubylet.Proofs.Native.Parts
import Rubylet.Proofs.Safety.Step

/-!
# The kinds of records

Native code is emitted for programs without classes (`refuseClasses_eq_ok`), and the operand that a
record stands for has the kind of the record's type. That is checked nowhere but where kinds have to
be equal; it follows from how the types were found: a read has the type of the assignments to its
local (`Emittable.kind_of_slot`), a call that of the method (`Emittable.kind_of_call`), a
conditional that of both its branches (`Emittable.kind_of_branch`), and integers have operators with
integers for results.
-/

namespace Rubylet.Native

open Replay

/-- The kind of machine value that a record stands for. -/
def Declarations.kind? (d : Declarations) (n : Nat) : Option Kind := (d.type? n).bind kindOf?

/-- A program that has been compiled and has no classes, with what is declared before its native
code is emitted. -/
structure Emittable (code : List Instruction) (g : Graph) (m : Machine) (statements : List Node)
    (d : Declarations) : Prop where
  checked : Checked code g m statements
  classless : ∀ i ∈ code, ∀ c, i.op ≠ .classStart c ∧ i.op ≠ .pushConst c
  instructions : d.records.toList.map TypedRecord.instruction = code
  signatures : signaturesFrom 0 d.records.toList = .ok d.signatures.entries
  types : ∀ {n t}, g.HasType (.record n) t → d.type? n = some t

/-- Every slot has the kind of an assignment in a frame. -/
def SlotsFit (code : List Instruction) (d : Declarations) (frame : Option Nat)
    (slots : Table String Kind) : Prop :=
  ∀ name kind, slots.get? name = some kind → ∃ q, Assigns code q name frame ∧ d.kind? q = some kind

theorem Declarations.kindOf_of_kind? {d : Declarations} {n : Nat} {kind : Kind}
    (h : d.kind? n = some kind) :
    kindOf n (d.records.getD n default) = .ok kind := by
  rw [kindOf_eq_ok_iff]
  unfold Declarations.kind? Declarations.type? at h
  cases hn : d.records[n]? with
  | none => rw [hn] at h; cases h
  | some record =>
    rw [hn, Option.bind_some] at h
    rw [Array.getD_eq_getD_getElem?, hn]
    exact h

theorem Declarations.kind?_of_record {d : Declarations} {n : Nat} {kind : Kind}
    {record : TypedRecord} (hr : d.records.toList[n]? = some record)
    (h : record.type?.bind kindOf? = some kind) : d.kind? n = some kind := by
  rw [Array.getElem?_toList] at hr
  rw [Declarations.kind?, Declarations.type?, hr]
  exact h

/-! ### Programs without classes -/

/-- Records that are not refused mention no class. -/
theorem refuseClasses_eq_ok {rs : List TypedRecord} : ∀ {n : Nat}, refuseClasses n rs = .ok () →
    ∀ r ∈ rs, ∀ c, r.instruction.op ≠ .classStart c ∧ r.instruction.op ≠ .pushConst c := by
  induction rs with
  | nil => exact fun _ _ hr => nomatch hr
  | cons r rest ih =>
    intro n h r' hr' c
    rw [refuseClasses] at h
    -- The scan stops at the first record that mentions a class.
    split at h
    · cases h
    · cases h
    · next hstart hconst =>
      rcases List.mem_cons.mp hr' with rfl | hr'
      · exact ⟨hstart c, hconst c⟩
      · exact ih h r' hr' c

/-- No record stands for a class where none is named. -/
theorem not_yields_of_classless {code : List Instruction} {g : Graph} (b : g.Built code)
    (h : ∀ i ∈ code, ∀ c, i.op ≠ .classStart c ∧ i.op ≠ .pushConst c) {n : Nat} {c : String} :
    ¬ g.Yields n c := by
  intro hy
  induction hy with
  | @named n name hnamed =>
    cases hi : code[n]? with
    | none =>
      -- Behind the code there are no records, so none is named there.
      have hsize : g.records.size ≤ n := b.size_eq ▸ List.getElem?_eq_none_iff.mp hi
      have hdefault : g.record n = default := Graph.record_eq_default hsize
      rw [Graph.classNamed?, hdefault] at hnamed
      cases hnamed
    | some i =>
      obtain ⟨hstart, hconst⟩ := h i (List.mem_of_getElem? hi) name
      rw [b.classNamed?_eq hi] at hnamed
      split at hnamed
      · next hop => exact hconst (Option.some.inj hnamed ▸ hop)
      · next hop => exact hstart (Option.some.inj hnamed ▸ hop)
      · cases hnamed
  | record _ _ _ ih => exact ih
  | method _ _ _ _ ih => exact ih

theorem sameClasses_of_classless {code : List Instruction} {g : Graph} (b : g.Built code)
    (h : ∀ i ∈ code, ∀ c, i.op ≠ .classStart c ∧ i.op ≠ .pushConst c) : SameClasses code g :=
  fun _ _ _ _ _ _ _ _ _ hy => absurd hy (not_yields_of_classless b h)

namespace Emittable

variable {code : List Instruction} {g : Graph} {m : Machine} {statements : List Node}
  {d : Declarations} {n r : Nat} {i : Instruction} {e : Event} {o : Operand} {kind : Kind}

variable (u : Emittable code g m statements d)

include u

theorem replayed : (trace code).error? = none := u.checked.replayed

theorem classes_eq_nil (n : Nat) (hn : n ≤ code.length) : (stateAt code n).classes = [] := by
  induction n with
  | zero => rw [stateAt_zero]; rfl
  | succ n ih =>
    obtain ⟨e, ho, -⟩ := exists_occurs u.replayed (List.getElem?_eq_getElem hn)
    rw [ho.classes_succ, ih (Nat.le_of_succ_le hn)]
    split
    · next hop => exact absurd hop (u.classless _ (List.mem_of_getElem? ho.1) _).1
    · rfl
    · rfl

theorem currentClass_eq_none (hn : n ≤ code.length) : (stateAt code n).currentClass = none := by
  rw [State.currentClass, u.classes_eq_nil n hn]
  rfl

theorem not_classEnd (hi : code[n]? = some i) (c : String) : i.op ≠ .classEnd c := by
  intro hop
  obtain ⟨e, ho, -⟩ := exists_occurs u.replayed hi
  obtain ⟨opened, classes, hclasses, -⟩ := ho.classEnd hop
  rw [u.classes_eq_nil n (Nat.le_of_lt ho.lt)] at hclasses
  cases hclasses

theorem not_class {i : Instruction} (hi : i ∈ code) :
    (∀ c, i.op ≠ .classStart c) ∧ ∀ c, i.op ≠ .classEnd c := by
  obtain ⟨n, hn⟩ := List.getElem?_of_mem hi
  exact ⟨fun c => (u.classless i hi c).1, u.not_classEnd hn⟩

/-- The records from a point on hold the instructions from there on. -/
theorem map_instruction_drop (n : Nat) :
    (d.records.toList.drop n).map TypedRecord.instruction = code.drop n := by
  rw [List.map_drop, u.instructions]

/-- The slots of a body have the kinds of the assignments in its frame. -/
theorem slotsFit {base : List Nat} {slots : Table String Kind} (hopeners : openers code n = base)
    (h : slotsFrom n 0 .empty (d.records.toList.drop n) = .ok slots) :
    SlotsFit code d base.head? slots := by
  intro name kind hget
  have hdrop := u.map_instruction_drop n
  -- Where the scan begins, no frame is open within the one it is for.
  have hnested : openers code n = [] ++ base := hopeners
  rcases slotsFrom_assigns (fun _ => u.not_class) _ hdrop hnested h hget with
    hempty | ⟨k, r, hr, hset, hin, hkind⟩
  · cases hempty
  · have hi : code[n + k]? = some r.instruction := by
      rw [← List.getElem?_drop, ← hdrop, List.getElem?_map, hr]
      rfl
    refine ⟨n + k, ⟨⟨_, hi, hset⟩, by rw [frameOf, hin]⟩, ?_⟩
    exact Declarations.kind?_of_record (by rwa [List.getElem?_drop] at hr) hkind

/-! ### Kinds -/

theorem kind_of_type {t : Ty} (ht : g.HasType (.record n) t) : d.kind? n = kindOf? t := by
  rw [Declarations.kind?, u.types ht, Option.bind_some]

/-- A constant has the kind of its type. -/
theorem kind_of_constant (hi : code[n]? = some i) (ho : constant? i.op = some o) :
    d.kind? n = some o.kind := by
  -- A literal carries its type.
  have given : ∀ {t : Ty}, i.op.givenType? = some t → d.kind? n = kindOf? t := fun ht =>
    u.kind_of_type (.given (by rw [u.checked.built.record_eq hi]; exact ht))
  unfold constant? at ho
  split at ho
  · next hop =>
    obtain rfl := Option.some.inj ho
    exact given (t := .int) (by rw [hop]; rfl)
  · next hop =>
    obtain rfl := Option.some.inj ho
    exact given (t := .str) (by rw [hop]; rfl)
  · next hop =>
    obtain rfl := Option.some.inj ho
    exact given (t := .nil) (by rw [hop]; rfl)
  · cases ho

/-- A read has the kind of its slot. -/
theorem kind_of_slot {name : String} {slots : Table String Kind} (hi : code[n]? = some i)
    (hop : i.op = .pushVar name) (hslots : SlotsFit code d (frameOf code n) slots)
    (hget : slots.get? name = some kind) : d.kind? n = some kind := by
  have c := u.checked
  obtain ⟨e, ho⟩ := c.built.occurs hi
  obtain ⟨first, hfirst, hedge⟩ := c.built.read_edge c.roles ho hop
  obtain ⟨q, hq, hkind⟩ := hslots name kind hget
  obtain ⟨t, ht⟩ := c.typed n ho.lt
  obtain ⟨j, hj, -⟩ := hq.1
  obtain ⟨t', ht'⟩ := c.typed q (List.getElem?_eq_some_iff.mp hj).1
  -- The read has the type of the first assignment, the slot that of some assignment.
  obtain rfl := c.assignments_agree hfirst hq (ht.edge c.built.isWired hedge) ht'
  rw [u.kind_of_type ht, ← u.kind_of_type ht', hkind]

/-- A branch has the kind of its conditional. -/
theorem kind_of_branch {k v : Nat} {ifs : List OpenIf} {height : Nat} {rest : List Nat}
    (hi : code[n]? = some i) (hop : i.op = .ifElse ∨ i.op = .ifEnd)
    (hifs : (stateAt code n).ifs = ⟨k, height⟩ :: ifs)
    (hstack : (stateAt code n).stack = v :: rest) : d.kind? v = d.kind? k := by
  have c := u.checked
  obtain ⟨e, ho⟩ := c.built.occurs hi
  obtain ⟨o, ifs', v', rest', hifs', hstack', hedge⟩ := c.built.branch_edge ho hop
  obtain ⟨rfl, -⟩ := List.cons.inj (hifs.symm.trans hifs')
  obtain ⟨rfl, -⟩ := List.cons.inj (hstack.symm.trans hstack')
  -- The conditional is before the end of its branch, so it is in the code and has a type.
  have hlt := ((c.built.opened (Nat.le_of_lt ho.lt)).ifs _ (hifs ▸ List.mem_cons_self)).1
  obtain ⟨t, ht⟩ := c.typed k (Nat.lt_trans hlt ho.lt)
  rw [u.kind_of_type ht, u.kind_of_type (ht.edge c.built.isWired hedge)]

/-- The value of a body has the kind of its method. -/
theorem kind_of_result {k v : Nat} {defs : List Nat} {name : String} {rest : List Nat}
    (hi : code[n]? = some i) (hop : i.op = .defEnd name) (hdefs : (stateAt code n).defs = k :: defs)
    (hstack : (stateAt code n).stack = v :: rest) :
    ∃ t, d.type? k = some t ∧ d.type? v = some t := by
  have c := u.checked
  obtain ⟨e, ho⟩ := c.built.occurs hi
  -- The definition depends on its last value, so they have one type.
  obtain ⟨k', defs', v', rest', hdefs', hstack', hedge⟩ := c.built.defEnd_edge ho hop
  obtain ⟨rfl, -⟩ := List.cons.inj (hdefs.symm.trans hdefs')
  obtain ⟨rfl, -⟩ := List.cons.inj (hstack.symm.trans hstack')
  have hlt := ((c.built.opened (Nat.le_of_lt ho.lt)).defs _ (hdefs ▸ List.mem_cons_self)).1
  obtain ⟨t, ht⟩ := c.typed k (Nat.lt_trans hlt ho.lt)
  exact ⟨t, u.types ht, u.types (ht.edge c.built.isWired hedge)⟩

/-! ### Calls -/

/-- A definition has a signature, whose kinds are those of its records. -/
theorem signature_of_definition {name : String} (hi : code[n]? = some i)
    (hop : i.op = .defStart name) :
    ∃ s, d.signatures.get? n = some s ∧ d.kind? n = some s.result ∧
      paramKinds (n + 1) (d.records.toList.drop (n + 1)) = .ok s.params := by
  have hfound := mem_definitionsFrom (k := 0) hop hi
  -- Definitions and signatures are the same list.
  rw [← u.instructions, ← map_signatures u.signatures, Nat.zero_add] at hfound
  obtain ⟨⟨n', s⟩, hs, heq⟩ := List.mem_map.mp hfound
  obtain ⟨rfl, rfl⟩ := Prod.mk.inj heq
  obtain ⟨k, record, hk, hr, -, hparams, hresult⟩ := mem_signatures u.signatures hs
  rw [Nat.zero_add] at hk
  subst hk
  exact ⟨s, find_signatures u.signatures hs, Declarations.kind?_of_record hr hresult, hparams⟩

variable {name : String} {count : Option Int} {args : List Nat}

/-- The machine calls the same method. -/
theorem methods_get?_eq (name : String) :
    m.methods.get? name = (d.methodNamed? name).map Prod.fst :=
  methods_get?_eq_methodNamed? u.checked.loaded (fun i hi c => (u.classless i hi c).1)
    u.instructions u.signatures name

/-- A method that is called by name is the one of the machine. -/
theorem methods_get? {method : Nat} {s : Signature}
    (h : d.methodNamed? name = some (method, s)) : m.methods.get? name = some method := by
  rw [u.methods_get?_eq, h]
  rfl

theorem signature_of_named {method : Nat} {s : Signature}
    (h : d.methodNamed? name = some (method, s)) : d.signatures.get? method = some s :=
  find_signatures u.signatures (mem_of_methodNamed? h)

/-- What the type of a receiver makes of a call. -/
theorem chosen {R : Ty} (ho : Occurs code n i (.send r args)) (hop : i.op = .send name count)
    (hr : d.type? r = some R) : ∃ t choice, g.HasType (.record n) t ∧ g.HasType (.record r) R ∧
      g.index.choose R i ⟨args, none⟩ = .ok choice ∧ g.Chosen n r args t choice := by
  have c := u.checked
  obtain ⟨t, ht⟩ := c.typed n ho.lt
  obtain ⟨r', args', R', choice, he, hR, hchoose, hchosen⟩ := c.built.send_typed ho hop ht
  obtain ⟨rfl, rfl⟩ := Event.send.inj he
  obtain rfl := Option.some.inj (hr.symm.trans (u.types hR))
  rw [u.currentClass_eq_none (Nat.le_of_lt ho.lt)] at hchoose
  exact ⟨t, choice, ht, hR, hchoose, hchosen⟩

/-- **A message to nil calls the method of its name**, with as many arguments as the method has
parameters, and has the type of the method. -/
theorem method_of_send (ho : Occurs code n i (.send r args)) (hop : i.op = .send name count)
    (hr : d.type? r = some .nil) : ∃ found t, g.index.findMethod name none = some found ∧
      args.length = (g.index.arity.get? found).getD 0 ∧
      g.HasType (.record n) t ∧ g.HasType (.record found) t := by
  obtain ⟨t, choice, ht, hR, hchoose, hchosen⟩ := u.chosen ho hop hr
  have hname : i.op.name? = some name := by rw [hop]; rfl
  cases choice with
  | instantiate => cases Index.choose_instantiate hchoose
  | operator =>
    -- Nil has no operators.
    obtain ⟨R', o, arg, hR', ho', -⟩ := Graph.HasType.of_operator hchosen
    obtain rfl := hR'.unique hR
    rw [u.checked.built.record_eq ho.1, hname] at ho'
    cases ho'
  | method found =>
    obtain ⟨hlen, ⟨-, hfound⟩ | ⟨cls, hcls, -⟩⟩ := Index.choose_method hchoose
    · rw [hname, Option.bind_some, Index.implicitMethod, Option.bind_none,
        Option.none_or] at hfound
      exact ⟨found, t, hfound, hlen, ht, hchosen.1⟩
    -- Nil is no object.
    · cases hcls

/-- **A message to an integer is one of its operators**, with one argument of the type that the
operator asks for. -/
theorem operator_of_send (ho : Occurs code n i (.send r args)) (hop : i.op = .send name count)
    (hr : d.type? r = some .int) : ∃ o arg, Operator.find? .int name = some o ∧ args = [arg] ∧
      g.HasType (.record arg) o.argType ∧ g.HasType (.record n) o.resultType := by
  obtain ⟨t, choice, ht, hR, hchoose, hchosen⟩ := u.chosen ho hop hr
  cases choice with
  | instantiate => cases Index.choose_instantiate hchoose
  | method found =>
    obtain ⟨-, ⟨hnil, -⟩ | ⟨cls, hcls, -⟩⟩ := Index.choose_method hchoose
    -- An integer is neither nil nor an object, so no method is found for it.
    · cases hnil
    · cases hcls
  | operator =>
    obtain ⟨R', o, arg, hR', ho', hargs, harg, rfl⟩ := Graph.HasType.of_operator hchosen
    obtain rfl := hR'.unique hR
    have hname : i.op.name? = some name := by rw [hop]; rfl
    rw [u.checked.built.record_eq ho.1, hname, Option.bind_some] at ho'
    exact ⟨o, arg, ho', hargs, harg, ht⟩

/-- A call has the kind of the method's result. -/
theorem kind_of_call {method : Nat} {s : Signature} (ho : Occurs code n i (.send r args))
    (hop : i.op = .send name count) (hr : d.type? r = some .nil)
    (h : d.methodNamed? name = some (method, s)) : d.kind? n = some s.result := by
  have c := u.checked
  obtain ⟨found, t, hfound, -, ht, htype⟩ := u.method_of_send ho hop hr
  -- Inference and native code have the same method in mind.
  rw [← c.built.methods_get?_eq c.loaded, u.methods_get? h] at hfound
  obtain rfl := Option.some.inj hfound
  rw [u.kind_of_type ht, ← u.kind_of_type htype]
  obtain ⟨k, record, hk, hrecord, -, -, hresult⟩ :=
    mem_signatures u.signatures (mem_of_methodNamed? h)
  rw [Nat.zero_add] at hk
  exact Declarations.kind?_of_record (hk ▸ hrecord) hresult

/-- An operator of integers answers an integer. -/
theorem kind_of_arith (ho : Occurs code n i (.send r args)) (hop : i.op = .send name count)
    (hr : d.type? r = some .int) : d.kind? n = some .word := by
  obtain ⟨o, arg, ho', -, -, ht⟩ := u.operator_of_send ho hop hr
  rw [u.kind_of_type ht]
  unfold Operator.find? at ho'
  grind [Operator.resultType, kindOf?]

end Emittable

end Rubylet.Native
