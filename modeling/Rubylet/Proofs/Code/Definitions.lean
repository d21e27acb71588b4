import Rubylet.Proofs.Code.Compiled
import Rubylet.Proofs.Code.Tables

/-!
# Definitions

The definitions of a program are read three times. The source has them in text order, each in the
class whose body it stands in or in none (`Direct.declared`); the index finds them in a replay, which
keeps a stack of the open classes; the machine finds them while it loads the code, with one class
that is set and reset. `definitions_agree` says that the three readings map the same names to the
same definitions, and that it is the last one that counts.

The index also counts parameters and lists calls. What a part of a program adds to the counts is
`Counts`: it counts the parameters of the methods that it declares and of no other ones.
-/

namespace Rubylet

open Replay Direct Rubylet.Graph

/-! ### Definitions as statements -/

namespace Node

/-- Is it the definition of a method? -/
def isMethodDef : Node → Bool
  | .methodDef _ _ _ _ => true
  | _ => false

/-- Is it the definition of a class? -/
def isClassDef : Node → Bool
  | .classDef _ _ _ => true
  | _ => false

end Node

/-! ### The last definition of a name -/

namespace Direct

variable {ds : List Declaration} {owner : Option String} {name : String} {d : Definition}

/-- A method is the last one of its name in its class, or outside of classes. -/
def IsLast (ds : List Declaration) (owner : Option String) (name : String) (d : Definition) : Prop :=
  ∃ earlier later, ds = earlier ++ .method d :: later ∧ d.owner = owner ∧ d.name = name ∧
    ∀ d', .method d' ∈ later → ¬ (d'.owner = owner ∧ d'.name = name)

/-- A declaration answers a search when it is a method of that owner and that name. -/
theorem Declaration.method?_eq_some_iff {declaration : Declaration} :
    declaration.method? owner name = some d ↔
      declaration = .method d ∧ d.owner = owner ∧ d.name = name := by
  cases declaration with
  | cls c => simp [Declaration.method?]
  | method d' =>
    simp only [Declaration.method?, Option.ite_none_right_eq_some, Option.some.injEq,
      Declaration.method.injEq]
    constructor
    · rintro ⟨h, rfl⟩
      exact ⟨rfl, h⟩
    · rintro ⟨rfl, h⟩
      exact ⟨h, rfl⟩

theorem Declaration.method?_eq_none_iff {declaration : Declaration} :
    declaration.method? owner name = none ↔
      ∀ d, declaration = .method d → ¬ (d.owner = owner ∧ d.name = name) := by
  rw [Option.eq_none_iff_forall_ne_some]
  exact forall_congr' fun d => by rw [Ne, Declaration.method?_eq_some_iff, not_and]

/-- **A look-up finds the last method of a name.** -/
theorem find?_eq_some_iff : find? ds owner name = some d ↔ IsLast ds owner name d := by
  -- The search runs backwards, so what it skips first are the later declarations.
  rw [find?, List.findSome?_eq_some_iff]
  constructor
  · rintro ⟨later, declaration, earlier, hds, hd, hlater⟩
    obtain ⟨rfl, howner, hname⟩ := Declaration.method?_eq_some_iff.mp hd
    refine ⟨earlier.reverse, later.reverse, ?_, howner, hname, fun d' hd' => ?_⟩
    · simpa using congrArg List.reverse hds
    · exact Declaration.method?_eq_none_iff.mp (hlater _ (List.mem_reverse.mp hd')) d' rfl
  · rintro ⟨earlier, later, rfl, howner, hname, hlater⟩
    refine ⟨later.reverse, .method d, earlier.reverse, by simp,
      Declaration.method?_eq_some_iff.mpr ⟨rfl, howner, hname⟩, fun declaration hmem => ?_⟩
    rw [Declaration.method?_eq_none_iff]
    rintro d' rfl
    exact hlater d' (List.mem_reverse.mp hmem)

/-- A search comes back empty when no declaration is a method of that owner and that name. -/
theorem find?_eq_none_iff : find? ds owner name = none ↔
    ∀ d, .method d ∈ ds → ¬ (d.owner = owner ∧ d.name = name) := by
  rw [find?, List.findSome?_eq_none_iff]
  constructor
  · exact fun h d hd => Declaration.method?_eq_none_iff.mp (h _ (List.mem_reverse.mpr hd)) d rfl
  · intro h declaration hmem
    rw [Declaration.method?_eq_none_iff]
    rintro d rfl
    exact h d (List.mem_reverse.mp hmem)

/-- The record of a method. -/
def Declaration.record? : Declaration → Option Nat
  | .method d => some d.record
  | .cls _ => none

end Direct

/-! ### Definitions in the code -/

/-- Does the operation begin a method? -/
def Operation.isDefStart : Operation → Bool
  | .defStart _ => true
  | _ => false

variable {code : List Instruction} {links : Nat → Nat → Prop} {inside : Option String} {p : Part}
  {n k n' : Nat}

/-- The records from one point to another that begin methods. -/
def definitionsIn (code : List Instruction) (n n' : Nat) : List Nat :=
  (List.range' n (n' - n)).filter fun k => code[k]?.any (·.op.isDefStart)

theorem definitionsIn_self : definitionsIn code n n = [] := by
  rw [definitionsIn, Nat.sub_self]
  rfl

/-- The definitions of a stretch of code are those of its two parts, in order. -/
theorem definitionsIn_append (h : n ≤ k) (h' : k ≤ n') :
    definitionsIn code n n' = definitionsIn code n k ++ definitionsIn code k n' := by
  have hsplit := List.range'_append_1 (s := n) (m := k - n) (n := n' - k)
  rw [show n + (k - n) = k by omega, show k - n + (n' - k) = n' - n by omega] at hsplit
  rw [definitionsIn, definitionsIn, definitionsIn, ← List.filter_append, hsplit]

/-- One record adds itself to the definitions when it opens one. -/
theorem definitionsIn_succ {i : Instruction} (hi : code[n]? = some i) :
    definitionsIn code n (n + 1) = if i.op.isDefStart then [n] else [] := by
  rw [definitionsIn, Nat.add_sub_cancel_left, List.range'_one]
  simp only [List.filter_cons, List.filter_nil, hi, Option.any_some]

/-- One more instruction that begins no method. -/
theorem definitionsIn_snoc {i : Instruction} (h : n ≤ k) (hi : code[k]? = some i)
    (ho : i.op.isDefStart = false) : definitionsIn code n (k + 1) = definitionsIn code n k := by
  rw [definitionsIn_append h (Nat.le_succ k), definitionsIn_succ hi, ho]
  simp

/-- The records of a parameter list define nothing: each parameter is pushed and stored. -/
theorem definitionsIn_params : ∀ (ps : List Param) (n : Nat), ParamsAt code n ps →
    definitionsIn code n (n + 2 * ps.length) = [] := by
  intro ps
  -- On the parameters: each takes two records, a push and an assignment.
  induction ps with
  | nil => exact fun n _ => definitionsIn_self
  | cons p ps ih =>
    intro n h
    have hrest := ih (n + 2) (CodeAt.tail (CodeAt.tail h))
    rw [show n + 2 + 2 * ps.length = n + 2 * (p :: ps).length by
      rw [List.length_cons]; omega] at hrest
    rw [definitionsIn_append (k := n + 1 + 1) (by omega) (by rw [List.length_cons]; omega), hrest,
      definitionsIn_snoc (Nat.le_succ n) (CodeAt.head (CodeAt.tail h)) rfl,
      definitionsIn_succ (CodeAt.head h)]
    rfl

theorem isDefStart_of_leaf {x : Node} {i : Instruction} (h : x.leaf? = some i) :
    i.op.isDefStart = false := by
  cases x <;> first | cases h; rfl | cases h

theorem isDefStart_of_closing {xs : List Node} {i : Instruction}
    (h : Lowering.closingLast xs = [i]) : i.op.isDefStart = false := by
  unfold Lowering.closingLast at h
  split at h
  · next x _ => cases x <;> first | cases h; rfl | cases h
  · cases h

/-- **The methods that a part declares** are those that begin in it, in text order. -/
theorem Layout.definitions (h : Layout code links inside p n n') :
    (p.declarations inside n).filterMap Declaration.record? = definitionsIn code n n' := by
  induction h with
  | leaf hx hi =>
    rw [Part.declarations, declarations_of_leaf hx, definitionsIn_succ hi, isDefStart_of_leaf hx]
    rfl
  | call hr hargs hi ihr ihargs =>
    have hk := hr.eq_add_count
    rw [definitionsIn_snoc (Nat.le_trans hr.le hargs.le) hi rfl,
      definitionsIn_append hr.le hargs.le, ← ihr, ← ihargs, hk]
    simp only [Part.declarations, declarations, List.filterMap_append, Part.count]
  -- `ifElse` and `ifEnd` define nothing, so the three branches are taken off from the back.
  | @conditional _ _ _ _ _ n k j m hc hs ht he hf hd _ _ ihc iht ihf =>
    have hk := hc.eq_add_count
    have hj := ht.eq_add_count
    have hle := hc.le
    have hle' := ht.le
    have hle'' := hf.le
    rw [definitionsIn_snoc (by omega) hd rfl, definitionsIn_append (k := j + 1) (by omega) hle'',
      definitionsIn_snoc (by omega) he rfl, definitionsIn_append (k := k + 1) (by omega) hle',
      definitionsIn_snoc hle hs rfl, ← ihc, ← iht, ← ihf, hj, hk]
    simp only [Part.declarations, declarations, List.filterMap_append, Part.count]
  | absent hi | missing hi | empty hi =>
    rw [definitionsIn_succ hi]
    simp [Part.declarations, declarationsIn, declarations, declarationsAll, Operation.isDefStart]
  | present _ ih | expression _ ih => exact ih
  | noExprs | noStatements => exact definitionsIn_self.symm
  | moreExprs hx hxs ihx ihxs | moreStatements hx hxs ihx ihxs =>
    have hk := hx.eq_add_count
    rw [definitionsIn_append hx.le hxs.le, ← ihx, ← ihxs, hk]
    simp only [Part.declarations, declarationsAll, List.filterMap_append, Part.count]
  | assign hv hi ih => rw [definitionsIn_snoc hv.le hi rfl, ← ih]; rfl
  | @methodDef _ _ _ params _ n j hs _ hp hb he _ ih =>
    have hle := hb.le
    rw [definitionsIn_snoc (by omega) he rfl,
      definitionsIn_append (k := n + 1 + 2 * params.length) (by omega) hle,
      definitionsIn_append (k := n + 1) (by omega) (by omega), definitionsIn_params _ _ hp,
      definitionsIn_succ hs, ← ih]
    rfl
  | classDef hs hb he _ ih =>
    have hle := hb.le
    rw [definitionsIn_snoc (by omega) he rfl, definitionsIn_append (Nat.le_succ _) hle,
      definitionsIn_succ hs, ← ih]
    rfl
  | left _ _ _ ih => exact ih
  | closed hxs hc hi ih =>
    rw [definitionsIn_snoc hxs.le hi (isDefStart_of_closing hc), ← ih]
    rfl

/-! ### Counting parameters -/

/-- From one point to another the parameters of some methods are counted, and of no others before
them. -/
structure Counts (code : List Instruction) (n n' : Nat) (ds : List Declaration) : Prop where
  kept : ∀ d < n, (indexAt code n').arity.get? d = (indexAt code n).arity.get? d
  within : ∀ d, .method d ∈ ds → n ≤ d.record ∧ d.record < n'
  counted : ∀ d, .method d ∈ ds → (indexAt code n').arity.get? d.record = some d.params.length

namespace Counts

variable {ds ds' : List Declaration} {i : Instruction} {e : Event} {x : Index}

theorem refl (code : List Instruction) (n : Nat) : Counts code n n [] :=
  ⟨fun _ _ => rfl, fun _ => (absurd · List.not_mem_nil), fun _ => (absurd · List.not_mem_nil)⟩

theorem trans (h : Counts code n k ds) (h' : Counts code k n' ds') (hn : n ≤ k) (hn' : k ≤ n') :
    Counts code n n' (ds ++ ds') := by
  refine ⟨fun d hd => ?_, fun d hd => ?_, fun d hd => ?_⟩
  · rw [h'.kept d (Nat.lt_of_lt_of_le hd hn), h.kept d hd]
  · rcases List.mem_append.mp hd with hd | hd
    · exact ⟨(h.within d hd).1, Nat.lt_of_lt_of_le (h.within d hd).2 hn'⟩
    · exact ⟨Nat.le_trans hn (h'.within d hd).1, (h'.within d hd).2⟩
  · rcases List.mem_append.mp hd with hd | hd
    · rw [h'.kept _ (h.within d hd).2, h.counted d hd]
    · exact h'.counted d hd

variable (b : Indexed code x)

include b

/-- An instruction that takes no argument counts nothing that began before it. -/
theorem single (hi : code[n]? = some i) (ho : ∀ k, i.op ≠ .pushArg k) :
    Counts code n (n + 1) [] := by
  obtain ⟨e, h⟩ := b.occurs hi
  refine ⟨fun d hd => ?_, fun _ => (absurd · List.not_mem_nil), fun _ => (absurd · List.not_mem_nil)⟩
  refine b.index_cases h (P := fun x => x.arity.get? d = _) ?_ ?_ ?_ ?_ rfl
  · intro name _
    rw [Index.arity_openClass]
  · intro name _
    rw [Index.arity_define, Table.get?_set, if_neg (Nat.ne_of_gt hd)]
  · exact fun k _ _ hop => absurd hop (ho k)
  · exact fun _ _ _ _ _ _ => rfl

theorem snoc (h : Counts code n k ds) (hn : n ≤ k) (hi : code[k]? = some i)
    (ho : ∀ k, i.op ≠ .pushArg k) : Counts code n (k + 1) ds := by
  have := h.trans (single b hi ho) hn (Nat.le_succ k)
  rwa [List.append_nil] at this

/-- A method has its parameters counted, and so have those that are declared in its body. -/
theorem method {d : Definition} {start : Instruction} {name name' : String}
    (hi : code[d.record]? = some start) (ho : start.op = .defStart name)
    (hp : ParamsAt code (d.record + 1) d.params) (hk : d.record + 1 + 2 * d.params.length ≤ k)
    (h : Counts code (d.record + 1 + 2 * d.params.length) k ds) (he : code[k]? = some i)
    (hend : i.op = .defEnd name') : Counts code d.record (k + 1) (.method d :: ds) := by
  obtain ⟨e, hocc⟩ := b.occurs hi
  have hfirst := Counts.single b hi (by simp [ho])
  have hdefs : (stateAt code (d.record + 1)).defs = d.record :: (stateAt code d.record).defs := by
    rw [hocc.defs_succ, ho]
  -- While the parameters are read the definition is the innermost one that is open.
  have hparams := b.indexAt_params d.params (d.record + 1) hp ⟨_, hdefs⟩
  have hrest := h.snoc b hk he (by simp [hend])
  refine ⟨fun a ha => ?_, fun a ha => ?_, fun a ha => ?_⟩
  · rw [hrest.kept a (by omega), hparams, Index.arity_iterate_countParam_of_ne _ (Nat.ne_of_gt ha),
      hfirst.kept a ha]
  · rcases List.mem_cons.mp ha with ha | ha
    · obtain rfl := Declaration.method.inj ha
      exact ⟨Nat.le_refl _, by omega⟩
    · have := hrest.within a ha
      omega
  · rcases List.mem_cons.mp ha with ha | ha
    · obtain rfl := Declaration.method.inj ha
      rw [hrest.kept _ (by omega), b.arity_after_params hi ho hp]
    · exact hrest.counted a ha

end Counts

theorem ne_pushArg_of_leaf {x : Node} {i : Instruction} (h : x.leaf? = some i) (k : Int) :
    i.op ≠ .pushArg k := by
  cases x <;> cases h <;> simp

theorem ne_pushArg_of_closing {xs : List Node} {i : Instruction}
    (h : Lowering.closingLast xs = [i]) (k : Int) : i.op ≠ .pushArg k := by
  unfold Lowering.closingLast at h
  split at h
  · next x _ => cases x <;> first | (cases h; simp) | cases h
  · cases h

/-- **A part counts the parameters of the methods it declares.** -/
theorem Layout.counts {x : Index} (b : Indexed code x) (h : Layout code links inside p n n') :
    Counts code n n' (p.declarations inside n) := by
  induction h with
  | leaf hx hi =>
    rw [Part.declarations, declarations_of_leaf hx]
    exact .single b hi (ne_pushArg_of_leaf hx)
  | call hr hargs hi ihr ihargs =>
    have hle := hr.le
    have hle' := hargs.le
    obtain rfl := hr.eq_add_count
    exact (ihr.trans ihargs hle hle').snoc b (by omega) hi (by simp)
  | conditional hc hs ht he hf hd _ _ ihc iht ihf =>
    have hle := hc.le
    have hle' := ht.le
    have hle'' := hf.le
    obtain rfl := hc.eq_add_count
    obtain rfl := ht.eq_add_count
    have hfirst := (ihc.snoc b hle hs (by simp)).trans iht (by omega) hle'
    exact ((hfirst.snoc b (by omega) he (by simp)).trans ihf (by omega) hle'').snoc b (by omega) hd
      (by simp)
  | absent hi | missing hi | empty hi => exact .single b hi (by simp)
  | present _ ih | expression _ ih => exact ih
  | noExprs | noStatements => exact .refl code _
  | moreExprs hx hxs ihx ihxs | moreStatements hx hxs ihx ihxs =>
    have hle := hx.le
    have hle' := hxs.le
    obtain rfl := hx.eq_add_count
    exact ihx.trans ihxs hle hle'
  | assign hv hi ih => exact ih.snoc b hv.le hi (by simp)
  | @methodDef inside pos name params body n j hs _ hp hb he _ ih =>
    exact Counts.method b (d := ⟨n, inside, name, params, body⟩) hs rfl hp hb.le ih he rfl
  | classDef hs hb he _ ih =>
    have hall := ((Counts.single b hs (by simp)).trans ih (Nat.le_succ _) hb.le).snoc b
      (Nat.le_trans (Nat.le_succ _) hb.le) he (by simp)
    -- The class itself counts for nothing.
    refine ⟨hall.kept, fun d hd => hall.within d ?_, fun d hd => hall.counted d ?_⟩ <;>
      exact (List.mem_cons.mp hd).resolve_left (by simp)
  | left _ _ _ ih => exact ih
  | closed hxs hc hi ih => exact ih.snoc b hxs.le hi (ne_pushArg_of_closing hc)

/-! ### The three readings -/

namespace Graph.Indexed

variable {x : Index} (b : Indexed code x)

include b

/-- **The index has the methods and the classes of the source.** -/
theorem findMethod_eq {statements : List Node}
    (h : Layout code links none (.statements statements) 0 code.length) :
    (∀ owner name, x.findMethod name owner =
      (find? (declared statements) owner name).map Definition.record) ∧
    ∀ c, (x.classes.get? c).isSome = hasClass (declared statements) c := by
  -- The loader is the go-between: its tables are taught by the same declarations, and at the end of
  -- the code they agree with the index of the graph.
  obtain ⟨l, hl, -⟩ := h.loads .initial rfl (by simp)
  have hagree := b.tables_agree hl.loads
  rw [b.indexAt_length] at hagree
  constructor
  · intro owner name
    rw [← hagree.method, hl.teaches.methods]
    -- Before the code nothing is defined, so the tables hold the declarations and no more.
    cases owner <;> exact Option.or_none
  · intro c
    rw [← hagree.classes, hl.teaches.classes]
    exact Bool.or_false _

/-- Every method of the source has its parameters counted. -/
theorem arity_eq {statements : List Node}
    (h : Layout code links none (.statements statements) 0 code.length) {d : Definition}
    (hd : .method d ∈ declared statements) : x.arity.get? d.record = some d.params.length := by
  rw [← b.indexAt_length]
  exact (h.counts b).counted d hd

end Graph.Indexed

/-- The definitions of a program as its source, its index and its machine have them. -/
structure DefinitionsAgree (statements : List Node) (code : List Instruction) (x : Index)
    (m : Machine) : Prop where
  /-- The records that begin methods are those of the declared methods, in text order. -/
  definitions : (declared statements).filterMap Declaration.record? =
    (List.range code.length).filter fun n => code[n]?.any (·.op.isDefStart)
  /-- A name means the last method of that name, in its class or outside of classes. -/
  index : ∀ owner name n, x.findMethod name owner = some n ↔
    ∃ d, IsLast (declared statements) owner name d ∧ d.record = n
  methods : ∀ name, m.methods.get? name = x.findMethod name none
  methodOf : ∀ c name, m.methodOf? (some c) name = x.findMethod name (some c)
  classes : ∀ c, (x.classes.get? c).isSome = hasClass (declared statements) c ∧
    m.classes.contains c = hasClass (declared statements) c
  /-- The record of a method begins it, and its parameters are counted. -/
  arity : ∀ d, .method d ∈ declared statements →
    (∃ pos, code[d.record]? = some ⟨.defStart d.name, ⟨.methodDef, pos⟩⟩) ∧
      x.arity.get? d.record = some d.params.length
  /-- The callers of a name are its calls, each of them once and in order. -/
  callers : ∀ name, (x.callers.get? name).getD [] =
    (List.range code.length).filter fun n => code[n]?.any (·.op.sends name)

/-- **The three readings of the definitions agree**, for every program that can be typed. -/
theorem definitions_agree {source : String} {code : List Instruction} {records : List TypedRecord}
    (hcode : Program.code source = .ok code) (hinfer : infer code = .ok records) (memory : Nat) :
    ∃ statements g m, Syntax.read source = .ok (.block .start statements) ∧
      Graph.build code = .ok g ∧ Machine.load memory records = .ok m ∧
      DefinitionsAgree statements code g.index m := by
  obtain ⟨statements, g, m, hread, hc, rfl⟩ := compiled_of_code hcode hinfer memory
  have b := Graph.built_of_build hc.built
  have hlayout := hc.loaded.layout
  obtain ⟨hmethods, hclasses⟩ := b.findMethod_eq hlayout
  -- Each clause is one agreement: source with records, index with source, machine with index.
  refine ⟨statements, g, m, hread, hc.built, hc.loads, ?_, ?_, b.methods_get?_eq hc.loaded,
    b.methodOf?_eq hc.loaded, fun c => ⟨hclasses c, hc.loaded.hasClass c⟩, ?_, b.callers_eq⟩
  · rw [List.range_eq_range']
    exact hlayout.definitions
  · intro owner name n
    rw [hmethods, Option.map_eq_some_iff]
    simp only [find?_eq_some_iff]
  -- The record of a declaration is where the layout puts its opener.
  · intro d hd
    obtain ⟨pos, j, -, -, hlaid⟩ := hlayout.laidOut hd
    exact ⟨⟨pos, hlaid.opener⟩, b.arity_eq hlayout hd⟩

theorem definitions_agree_descent : ∃ code records, Program.code Sample.descent = .ok code ∧
    infer code = .ok records ∧ ∃ statements g m,
      Syntax.read Sample.descent = .ok (.block .start statements) ∧
      Graph.build code = .ok g ∧ Machine.load Sample.memory records = .ok m ∧
      DefinitionsAgree statements code g.index m := by
  obtain ⟨code, records, hcode, hinfer⟩ := Sample.exists_typed_descent
  exact ⟨code, records, hcode, hinfer, definitions_agree hcode hinfer Sample.memory⟩

end Rubylet
