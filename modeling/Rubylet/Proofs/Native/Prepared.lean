import Rubylet.Proofs.Code.Definitions
import Rubylet.Proofs.Native.Kinds
import Rubylet.Proofs.Safety.Run

/-!
# What native code finds prepared

The emission of native code looks things up in tables that were made beforehand, each by a scan of
its own: the signatures of the methods, the slots of a body, the last method of a name. Here it is
shown that no look-up in them fails, for code without classes all of whose records have types.

* Without classes every type has a kind (`Graph.HasType.exists_kind`), so the tables can be made at
  all (`exists_emittable`, `Emittable.exists_slots`).
* Every local that is assigned in a frame has a slot in the body of the frame, although the scan for
  slots leaves the bodies of other definitions out (`Emittable.slots_cover`).
* A message to nil is found by its name, and its arguments are of the kinds that the signature asks
  for (`Emittable.callee`). The signature's parameters are read off the records behind the
  definition; the arguments of a call are counted by the replay.
* A message to an integer is an arithmetic operator with one integer (`Emittable.operator`).
-/

namespace Rubylet

open Replay

/-! ### Parameters stand in front -/

/-- **No part begins with a parameter**: where the parameters of a method end, its body begins. -/
theorem Layout.ne_pushArg {code : List Instruction} {links : Nat → Nat → Prop}
    {inside : Option String} {p : Part} {n n' : Nat} (h : Layout code links inside p n n')
    {i : Instruction} (hlt : n < n') (hi : code[n]? = some i) (k : Int) : i.op ≠ .pushArg k := by
  -- On the layout: the record at the start of a part is that of its first part, or the marker it
  -- puts there.
  induction h with
  | leaf hx hj =>
    obtain rfl := Option.some.inj (hj.symm.trans hi)
    exact ne_pushArg_of_leaf hx k
  | @call _ _ _ _ _ n q j hr hargs hj ihr ihargs =>
    have hle := hr.le
    have hle' := hargs.le
    -- A part that is empty starts where the next one does.
    rcases Nat.lt_or_eq_of_le hle with hlt' | rfl
    · exact ihr hlt' hi
    · rcases Nat.lt_or_eq_of_le hle' with hlt' | rfl
      · exact ihargs hlt' hi
      · obtain rfl := Option.some.inj (hj.symm.trans hi)
        simp
  | @conditional _ _ _ _ _ n q j m hc hj _ _ _ _ _ _ ihc _ _ =>
    rcases Nat.lt_or_eq_of_le hc.le with hlt' | rfl
    · exact ihc hlt' hi
    · obtain rfl := Option.some.inj (hj.symm.trans hi)
      simp
  | absent hj | methodDef hj | classDef hj | missing hj | empty hj =>
    obtain rfl := Option.some.inj (hj.symm.trans hi)
    simp
  | present _ ih | expression _ ih | left _ _ _ ih => exact ih hlt hi
  | noExprs | noStatements => exact absurd hlt (Nat.lt_irrefl _)
  | moreExprs hx _ ihx ihxs | moreStatements hx _ ihx ihxs =>
    rcases Nat.lt_or_eq_of_le hx.le with hlt' | rfl
    · exact ihx hlt' hi
    · exact ihxs hlt hi
  | assign hv hj ih =>
    rcases Nat.lt_or_eq_of_le hv.le with hlt' | rfl
    · exact ih hlt' hi
    · obtain rfl := Option.some.inj (hj.symm.trans hi)
      simp
  | closed hxs hc hj ih =>
    rcases Nat.lt_or_eq_of_le hxs.le with hlt' | rfl
    · exact ih hlt' hi
    · obtain rfl := Option.some.inj (hj.symm.trans hi)
      exact ne_pushArg_of_closing hc k

/-- A list splits at every place in it. -/
theorem exists_split {α : Type} {xs : List α} {k : Nat} (hk : k < xs.length) :
    ∃ front x rest, xs = front ++ x :: rest ∧ front.length = k :=
  ⟨xs.take k, xs[k], xs.drop (k + 1), by rw [← List.drop_eq_getElem_cons hk, List.take_append_drop],
    List.length_take_of_le (Nat.le_of_lt hk)⟩

/-- The parameters in front, and those behind them. -/
theorem ParamsAt.split {code : List Instruction} {n : Nat} {ps qs : List Param}
    (h : ParamsAt code n (ps ++ qs)) :
    ParamsAt code n ps ∧ ParamsAt code (n + 2 * ps.length) qs := by
  rw [ParamsAt, List.flatMap_append] at h
  have hright := h.right
  rw [length_lowerParams] at hright
  exact ⟨h.left, hright⟩

/-- The parameters of a method fetch its arguments in turn. -/
theorem pushArg_of_paramsAt {code : List Instruction} {n : Nat} {f : Instruction} {name : String}
    {p : Param} {front rest : List Param} (hr : (trace code).error? = none) (hf : code[n]? = some f)
    (hop : f.op = .defStart name) (hp : ParamsAt code (n + 1) (front ++ p :: rest))
    (hn : Numbered (front ++ p :: rest)) : ∃ i, code[n + 1 + 2 * front.length]? = some i ∧
      i.op = .pushArg front.length ∧
      (stateAt code (n + 1 + 2 * front.length)).defs = n :: (stateAt code n).defs := by
  obtain ⟨hfront, hbehind⟩ := hp.split
  -- The parameters are numbered from the left.
  have hindex : p.index = front.length := hn _ p (by
    rw [List.getElem?_append_right (Nat.le_refl _), Nat.sub_self]
    rfl)
  obtain ⟨e, ho, -⟩ := exists_occurs hr hf
  refine ⟨_, CodeAt.head hbehind, congrArg Operation.pushArg hindex, ?_⟩
  rw [(Replays.params hr _ (n + 1) hfront).state_eq, (ho.defStart hop).2]
  rfl

/-! ### Types and kinds -/

namespace Graph

variable {code : List Instruction} {g : Graph} {links : Nat → Nat → Prop}

mutual

/-- **Without classes every type has a kind.** -/
theorem HasType.exists_kind {d : Dependency} {t : Ty} (b : g.Built code)
    (hcls : ∀ i ∈ code, ∀ c, i.op ≠ .classStart c ∧ i.op ≠ .pushConst c) :
    g.HasType d t → ∃ kind, Native.kindOf? t = some kind
  | .given (n := n) h => by
    cases hi : code[n]? with
    | none =>
      rw [record_eq_default (b.size_eq ▸ List.getElem?_eq_none_iff.mp hi)] at h
      cases h
    | some i =>
      have hstart := fun c => (hcls i (List.mem_of_getElem? hi) c).1
      rw [b.record_eq hi] at h
      -- Only a class gives a record the type that has no kind.
      cases hop : i.op with
      | classStart c => exact absurd hop (hstart c)
      | _ =>
        rw [hop] at h
        cases h <;> exact ⟨_, rfl⟩
  | .agreed _ hne h => by
    obtain ⟨d, hd⟩ := List.exists_mem_of_ne_nil _ hne
    exact HasType.exists_kind b hcls (h d hd)
  | .operator (o := o) _ _ _ _ => by cases o <;> exact ⟨_, rfl⟩
  | .method _ h => HasType.exists_kind b hcls h
  | .primitive _ h => HasType.exists_kind b hcls h
  | .object h => absurd rfl (HasTarget.ne_object b hcls h)

/-- No class is instantiated. -/
theorem HasTarget.ne_object {site : CallSite} {found : Target} {c : String} (b : g.Built code)
    (hcls : ∀ i ∈ code, ∀ c, i.op ≠ .classStart c ∧ i.op ≠ .pushConst c) :
    g.HasTarget site found → found ≠ .object c
  | .dispatched hr _ _ hd => by
    rintro rfl
    obtain ⟨kind, hkind⟩ := HasType.exists_kind b hcls hr
    obtain ⟨choice, hchoose, hchosen⟩ := dispatch_cases hd
    -- An object is the target of an instantiation, whose receiver is a class.
    cases choice with
    | method n => cases hchosen
    | operator => cases hchosen
    | instantiate =>
      obtain rfl := Index.choose_instantiate hchoose
      cases hkind

end

end Graph

namespace Native

/-! ### Tables of records with kinds -/

section

variable {rs : List TypedRecord}

/-- All records have kinds. -/
def HaveKinds (rs : List TypedRecord) : Prop :=
  ∀ r ∈ rs, ∃ kind, r.type?.bind kindOf? = some kind

theorem HaveKinds.kindOf {r : TypedRecord} (h : HaveKinds rs) (hr : r ∈ rs) (n : Nat) :
    ∃ kind, kindOf n r = .ok kind := by
  obtain ⟨kind, hkind⟩ := h r hr
  exact ⟨kind, kindOf_eq_ok_iff.mpr hkind⟩

theorem HaveKinds.exists_paramKinds (h : HaveKinds rs) (n : Nat) :
    ∃ kinds, paramKinds n rs = .ok kinds := by
  fun_induction paramKinds n rs with
  | case1 n => exact ⟨_, rfl⟩
  | case2 n r hparam =>
    obtain ⟨kind, hkind⟩ := h.kindOf (.head _) n
    exact ⟨[kind], by rw [hkind]; rfl⟩
  | case3 n r hparam => exact ⟨_, rfl⟩
  | case4 n r r' rest hparam ih =>
    obtain ⟨kind, hkind⟩ := h.kindOf (.head _) n
    obtain ⟨kinds, hkinds⟩ := ih fun q hq => h q (.tail _ (.tail _ hq))
    exact ⟨kind :: kinds, by rw [hkind, hkinds]; rfl⟩
  | case5 n r r' rest hparam => exact ⟨_, rfl⟩

theorem HaveKinds.exists_signatures (h : HaveKinds rs) (n : Nat) :
    ∃ sigs, signaturesFrom n rs = .ok sigs := by
  induction rs generalizing n with
  | nil => exact ⟨_, rfl⟩
  | cons r rest ih =>
    have hrest : HaveKinds rest := fun q hq => h q (.tail _ hq)
    obtain ⟨sigs, hsigs⟩ := ih hrest (n + 1)
    rw [signaturesFrom]
    split
    · next name ho =>
      -- The parameters stand behind the definition, and the definition has a kind.
      obtain ⟨kinds, hkinds⟩ := hrest.exists_paramKinds (n + 1)
      obtain ⟨kind, hkind⟩ := h.kindOf (.head _) n
      exact ⟨(n, ⟨name, kinds, kind⟩) :: sigs, by rw [hkinds, hkind, hsigs]; rfl⟩
    · exact ⟨sigs, hsigs⟩

/-- The slots of a frame can be collected when every record has a kind. -/
theorem HaveKinds.exists_slots (h : HaveKinds rs) (n depth : Nat) (slots : Table String Kind) :
    ∃ slots', slotsFrom n depth slots rs = .ok slots' := by
  -- On the records, with the depth and the slots collected so far.
  induction rs generalizing n depth slots with
  | nil => exact ⟨_, rfl⟩
  | cons r rest ih =>
    have hrest : HaveKinds rest := fun q hq => h q (.tail _ hq)
    rw [slotsFrom]
    split
    · exact ih hrest _ _ _
    · split
      · exact ⟨_, rfl⟩
      · exact ih hrest _ _ _
    · split
      · obtain ⟨kind, hkind⟩ := h.kindOf (.head _) n
        rw [hkind]
        exact ih hrest _ _ _
      · exact ih hrest _ _ _
    · exact ih hrest _ _ _

end

variable {code : List Instruction} {g : Graph} {m : Machine} {statements : List Node}
  {records : List TypedRecord} {d : Declarations} {n r : Nat} {i : Instruction} {name : String}

/-- Without classes every type is that of a word, a text or nil. -/
theorem haveKinds_of_classless (h : Compiled statements code g records m)
    (hcls : ∀ i ∈ code, ∀ c, i.op ≠ .classStart c ∧ i.op ≠ .pushConst c) : HaveKinds records := by
  have b := Graph.built_of_build h.built
  intro r hr
  obtain ⟨n, hn⟩ := List.getElem?_of_mem hr
  have hlt : n < code.length := by
    rw [← length_of_infer h.built h.inferred]
    exact (List.getElem?_eq_some_iff.mp hn).1
  -- Every record is typed, and its type has a kind.
  obtain ⟨t, ht⟩ := (h.checked (sameClasses_of_classless b hcls)).typed n hlt
  obtain ⟨kind, hkind⟩ := ht.exists_kind b hcls
  have htype := typeAt?_of_hasType h.built h.inferred ht
  rw [typeAt?, hn, Option.bind_some] at htype
  exact ⟨kind, by rw [htype, Option.bind_some, hkind]⟩

/-- The operators of integers have instructions, and take integers. -/
theorem arith_of_find? {o : Operator} (h : Operator.find? .int name = some o) :
    ∃ op, Arith.named? name = some op ∧ o.argType = .int := by
  rw [Arith.named?, h]
  unfold Operator.find? at h
  cases o <;> first | exact ⟨_, rfl, rfl⟩ | grind

/-- **The declarations of a program without classes** can be made. -/
theorem exists_emittable (h : Compiled statements code g records m)
    (hcls : ∀ i ∈ code, ∀ c, i.op ≠ .classStart c ∧ i.op ≠ .pushConst c) :
    ∃ sigs, Emittable code g m statements ⟨records.toArray, ⟨sigs⟩⟩ := by
  obtain ⟨sigs, hsigs⟩ := (haveKinds_of_classless h hcls).exists_signatures 0
  have b := Graph.built_of_build h.built
  exact ⟨sigs, h.checked (sameClasses_of_classless b hcls), hcls,
    map_instruction_of_infer h.built h.inferred, hsigs, fun ht => by
      rw [Declarations.type?, List.getElem?_toArray]
      exact typeAt?_of_hasType h.built h.inferred ht⟩

namespace Emittable

variable (u : Emittable code g m statements d)

include u

/-- Every record has a kind. -/
theorem exists_kind (hn : n < code.length) : ∃ kind, d.kind? n = some kind := by
  obtain ⟨t, ht⟩ := u.checked.typed n hn
  obtain ⟨kind, hkind⟩ := ht.exists_kind u.checked.built u.classless
  exact ⟨kind, (u.kind_of_type ht).trans hkind⟩

theorem haveKinds : HaveKinds d.records.toList := by
  intro record hmem
  obtain ⟨n, hn⟩ := List.getElem?_of_mem hmem
  have hlt : n < code.length := by
    rw [← u.instructions, List.length_map]
    exact (List.getElem?_eq_some_iff.mp hn).1
  obtain ⟨kind, hkind⟩ := u.exists_kind hlt
  rw [Declarations.kind?, Declarations.type?, ← Array.getElem?_toList, hn] at hkind
  exact ⟨kind, hkind⟩

/-! ### Slots -/

/-- The slots of a body can be found. -/
theorem exists_slots (n : Nat) :
    ∃ slots, slotsFrom n 0 .empty (d.records.toList.drop n) = .ok slots :=
  HaveKinds.exists_slots (fun r hr => u.haveKinds r (List.mem_of_mem_drop hr)) _ _ _

/-- **Every local that is assigned in a frame has a slot** in its body, which begins at a point. -/
theorem slots_cover {base : List Nat} {slots : Table String Kind} (hopeners : openers code n = base)
    (h : slotsFrom n 0 .empty (d.records.toList.drop n) = .ok slots)
    (hfrom : ∀ q name, Assigns code q name base.head? → n ≤ q) {q : Nat}
    (hq : Assigns code q name base.head?) : (slots.get? name).isSome := by
  -- A definition that closes was open.
  have hcloses : ∀ n i name, code[n]? = some i → i.op = .defEnd name → openers code n ≠ [] := by
    intro n i name hi hop
    obtain ⟨e, ho, -⟩ := exists_occurs u.replayed hi
    have hrole := u.checked.role ho
    rw [hop] at hrole
    obtain ⟨_, _, _, _, _, hcloses, -⟩ := hrole
    exact hcloses.openers_eq ▸ List.cons_ne_nil _ _
  have hnested : openers code n = [] ++ base := hopeners
  exact slotsFrom_covers (fun _ => u.not_class) hcloses hq _ (u.map_instruction_drop n) hnested h
    (.inr (hfrom q name hq))

/-- The value that is assigned has the kind of the assignment. -/
theorem kind_of_assigned {v : Nat} (ho : Occurs code n i (.setVar v)) : d.kind? v = d.kind? n := by
  have c := u.checked
  obtain ⟨name, hop⟩ := ho.op_of_setVar
  obtain ⟨v', rest, hstack, hedge⟩ := c.built.setVar_edge ho hop
  obtain ⟨v'', rest', hstack', he, -⟩ := ho.setVar hop
  obtain ⟨rfl, -⟩ := List.cons.inj (hstack.symm.trans hstack')
  obtain rfl := Event.setVar.inj he
  obtain ⟨t, ht⟩ := c.typed n ho.lt
  rw [u.kind_of_type ht, u.kind_of_type (ht.edge c.built.isWired hedge)]

/-- An assignment has the kind of its slot. -/
theorem kind_of_assignment {slots : Table String Kind} {kind : Kind} (hi : code[n]? = some i)
    (hop : i.op = .setVar name) (hslots : SlotsFit code d (frameOf code n) slots)
    (hget : slots.get? name = some kind) : d.kind? n = some kind := by
  have c := u.checked
  obtain ⟨q, hq, hkind⟩ := hslots name kind hget
  obtain ⟨j, hj, -⟩ := hq.1
  obtain ⟨t, ht⟩ := c.typed n (List.getElem?_eq_some_iff.mp hi).1
  obtain ⟨t', ht'⟩ := c.typed q (List.getElem?_eq_some_iff.mp hj).1
  obtain rfl := c.assignments_agree ⟨⟨i, hi, hop⟩, rfl⟩ hq ht ht'
  rw [u.kind_of_type ht, ← u.kind_of_type ht', hkind]

/-! ### Calls -/

/-- The kinds of a signature's parameters are those of the records that fetch the arguments. -/
theorem kinds_of_params {ps : List Param} {q : Nat} {kinds : List Kind} (hp : ParamsAt code q ps)
    (hnext : ∀ i k, code[q + 2 * ps.length]? = some i → i.op ≠ .pushArg k)
    (h : paramKinds q (d.records.toList.drop q) = .ok kinds) :
    kinds.length = ps.length ∧ ∀ j < ps.length, d.kind? (q + 2 * j) = kinds[j]? := by
  have instruction : ∀ {q : Nat} (hq : q < d.records.toList.length),
      code[q]? = some d.records.toList[q].instruction := by
    intro q hq
    rw [← u.instructions, List.getElem?_map, List.getElem?_eq_getElem hq]
    rfl
  induction ps generalizing q kinds with
  | nil =>
    refine ⟨?_, fun j hj => absurd hj (Nat.not_lt_zero j)⟩
    -- What comes behind the last parameter fetches no argument, so the signature ends here too.
    rcases Nat.lt_or_ge q d.records.toList.length with hq | hq
    · have hparam : isParam d.records.toList[q] = false := by
        unfold isParam
        split
        · next k hop => exact absurd hop (hnext _ k (instruction hq))
        · rfl
      rw [List.drop_eq_getElem_cons hq] at h
      cases hrest : d.records.toList.drop (q + 1) <;>
      · simp only [hrest, paramKinds, hparam, Bool.false_eq_true, if_false] at h
        obtain rfl := Except.ok.inj h
        rfl
    · rw [List.drop_of_length_le hq] at h
      obtain rfl := Except.ok.inj h
      rfl
  | cons p ps ih =>
    -- A parameter has two records; the second one, which assigns it, is passed over.
    have hset := (List.getElem?_eq_some_iff.mp (CodeAt.head (CodeAt.tail hp))).1
    rw [← u.instructions, List.length_map] at hset
    have hq : q < d.records.toList.length := Nat.lt_of_succ_lt hset
    have hpush := Option.some.inj ((CodeAt.head hp).symm.trans (instruction hq))
    have hparam : isParam d.records.toList[q] = true := by rw [isParam, ← hpush]
    rw [List.drop_eq_getElem_cons hq, List.drop_eq_getElem_cons hset, paramKinds,
      if_pos hparam] at h
    obtain ⟨kind, hkind, h⟩ := exists_of_bind_eq_ok h
    obtain ⟨others, hothers, h⟩ := exists_of_bind_eq_ok h
    obtain rfl := Except.ok.inj h
    have hlater : q + 2 * (p :: ps).length = q + 2 + 2 * ps.length := by
      rw [List.length_cons]
      omega
    obtain ⟨hlen, hkinds⟩ := ih (CodeAt.tail (CodeAt.tail hp)) (hlater ▸ hnext) hothers
    refine ⟨congrArg (· + 1) hlen, fun j hj => ?_⟩
    cases j with
    | zero =>
      exact Declarations.kind?_of_record (List.getElem?_eq_getElem hq) (kindOf_eq_ok_iff.mp hkind)
    | succ j =>
      rw [List.getElem?_cons_succ, ← hkinds j (Nat.lt_of_succ_lt_succ hj)]
      congr 1
      omega

/-- **A signature has the parameters of its method**, in number and in kind. -/
theorem params_of_signature {ps : List Param} {j : Nat} {f e : Instruction} {other : String}
    {owner : Origin} {body : Option Node} {links : Nat → Nat → Prop} {inside : Option String}
    {s : Signature} (hf : code[n]? = some f) (hop : f.op = .defStart name)
    (hp : ParamsAt code (n + 1) ps)
    (hb : Layout code links inside (.body owner body) (n + 1 + 2 * ps.length) j)
    (he : code[j]? = some e) (hend : e.op = .defEnd other) (hs : d.signatures.get? n = some s) :
    s.params.length = ps.length ∧ ∀ k < ps.length, d.kind? (n + 1 + 2 * k) = s.params[k]? := by
  obtain ⟨s', hs', -, hkinds⟩ := u.signature_of_definition hf hop
  obtain rfl := Option.some.inj (hs.symm.trans hs')
  refine u.kinds_of_params hp (fun i k hi => ?_) hkinds
  -- Behind the parameters comes the body, or the end of the definition.
  rcases Nat.lt_or_eq_of_le hb.le with hlt | heq
  · exact hb.ne_pushArg hlt hi k
  · rw [heq, he] at hi
    obtain rfl := Option.some.inj hi
    simp [hend]

/-- **A message to nil is a call of a method of its name**, with arguments of the kinds that the
method's parameters have, and as many. -/
theorem callee {count : Option Int} {args : List Nat} (ho : Occurs code n i (.send r args))
    (hop : i.op = .send name count) (hr : d.type? r = some .nil) :
    ∃ method s, d.methodNamed? name = some (method, s) ∧
      List.Forall₂ (fun arg kind => d.kind? arg = some kind) args s.params := by
  have c := u.checked
  -- Outside of classes a name leads to one method, for the index as for the declarations.
  obtain ⟨found, t, hfound, hlen, -⟩ := u.method_of_send ho hop hr
  obtain ⟨f, hf, hdef, -⟩ := c.built.method_definition hfound
  rw [← c.built.methods_get?_eq c.loaded] at hfound
  obtain ⟨⟨method, s⟩, hnamed, rfl⟩ := Option.map_eq_some_iff.mp (u.methods_get?_eq name ▸ hfound)
  rw [c.loaded.method name] at hfound
  obtain ⟨definition, hfind, hrecord⟩ := Option.map_eq_some_iff.mp hfound
  have hdeclared := Direct.mem_of_find? hfind
  obtain ⟨pos, j, -, -, hlaid⟩ := c.loaded.layout.laidOut hdeclared
  have harity := c.built.arity_eq c.loaded.layout hdeclared
  obtain ⟨opener, hnumbered, hparams, hbody, hcloser, -⟩ := hlaid
  simp only [hrecord] at opener hparams hbody harity hlen
  rw [harity, Option.getD_some] at hlen
  obtain ⟨hcount, hkind⟩ := u.params_of_signature opener rfl hparams hbody hcloser rfl
    (u.signature_of_named hnamed)
  refine ⟨_, s, hnamed, List.forall₂_iff_get.mpr ⟨hlen.trans hcount.symm, fun l hl hl' => ?_⟩⟩
  -- The parameter depends on the argument, so both have one type and thus one kind.
  have hlt : l < definition.params.length := hlen ▸ hl
  obtain ⟨front, p, rest, hsplit, rfl⟩ := exists_split hlt
  rw [hsplit] at hparams hnumbered
  obtain ⟨q, hq, hqop, hdefs⟩ := pushArg_of_paramsAt u.replayed opener rfl hparams hnumbered
  obtain ⟨e, hocc⟩ := c.built.occurs hq
  obtain ⟨t', ht'⟩ := c.typed _ hocc.lt
  have hedge := c.built.argument_edge ho hop hocc hqop hdefs hf hdef
    (List.getElem?_eq_getElem hl)
  have hpassed := ht'.edge c.built.isWired hedge
  rw [List.get_eq_getElem, u.kind_of_type hpassed, ← u.kind_of_type ht', hkind _ hlt]
  exact List.getElem?_eq_getElem hl'

/-- **A message to an integer is an arithmetic operator**, with one integer. -/
theorem operator {count : Option Int} {args : List Nat} (ho : Occurs code n i (.send r args))
    (hop : i.op = .send name count) (hr : d.type? r = some .int) :
    ∃ op arg, Arith.named? name = some op ∧ args = [arg] ∧ d.kind? arg = some .word := by
  obtain ⟨o, arg, ho', hargs, harg, -⟩ := u.operator_of_send ho hop hr
  obtain ⟨op, hnamed, htype⟩ := arith_of_find? ho'
  exact ⟨op, arg, hnamed, hargs, by rw [u.kind_of_type harg, htype]; rfl⟩

end Emittable

end Native

end Rubylet
