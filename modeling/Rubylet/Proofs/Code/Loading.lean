import Rubylet.Machine
import Rubylet.Proofs.Code.Layout
import Rubylet.Proofs.Direct.Evaluation

/-!
# Loading laid out code

The code of a program is always loaded. A part of it leaves the open blocks and the current class as
they were, links its openers to its closers and no others, and teaches the tables its declarations
(`loads`).

`Loaded` is what the proofs about the machine know of a program: its layout, with the links that the
machine jumps by, and its tables, which are those of direct evaluation. `load_spec` says that
loading establishes it.
-/

namespace Rubylet

open Machine Direct

/-! ### Counting records -/

/-- The number of records of a part. -/
def Part.count : Part → Nat
  | .expr x | .statement x => x.count
  | .exprs xs | .statements xs => Node.countAll xs
  | .receiver _ r => Node.countReceiver r
  | .body _ b => Node.countBody b

/-- The declarations in a part. -/
def Part.declarations (inside : Option String) (n : Nat) : Part → List Declaration
  | .expr x | .statement x => Direct.declarations inside n x
  | .exprs xs | .statements xs => declarationsAll inside n xs
  | .receiver _ r => declarationsIn inside n r
  | .body _ b => declarationsIn inside n b

section Layout

variable {code : List Instruction} {links : Nat → Nat → Prop} {inside : Option String}
  {p : Part} {n n' : Nat}

theorem Node.count_of_leaf {x : Node} {i : Instruction} (h : x.leaf? = some i) : x.count = 1 := by
  cases x <;> first | rfl | cases h

theorem declarations_of_leaf {x : Node} {i : Instruction} (h : x.leaf? = some i) :
    declarations inside n x = [] := by
  cases x <;> first | rfl | cases h

/-- **A part reaches as far as it has records.** -/
theorem Layout.eq_add_count (h : Layout code links inside p n n') : n' = n + p.count := by
  induction h with
  | leaf hx _ => rw [Part.count, Node.count_of_leaf hx]
  | call _ _ _ ihr ihargs =>
    rw [ihargs, ihr]
    simp only [Part.count, Node.count, Nat.add_assoc]
  | conditional _ _ _ _ _ _ _ _ ihc iht ihf =>
    rw [ihf, iht, ihc]
    simp only [Part.count, Node.count, Nat.add_assoc]
  | absent | noExprs | noStatements | missing | empty => rfl
  | present _ ih | expression _ ih => exact ih
  | moreExprs _ _ ihx ihxs | moreStatements _ _ ihx ihxs =>
    rw [ihxs, ihx]
    simp only [Part.count, Node.countAll, Nat.add_assoc]
  | assign _ _ ih => rw [ih]; rfl
  | methodDef _ _ _ _ _ _ ih =>
    rw [ih]
    simp only [Part.count, Node.count, Nat.add_assoc]
  | classDef _ _ _ _ ih =>
    rw [ih]
    simp only [Part.count, Node.count, Nat.add_assoc]
  -- A body whose last statement leaves a value has no record behind it, any other has one.
  | @left _ _ _ xs _ _ hne _ hc ih =>
    obtain ⟨x, xs, rfl⟩ := List.exists_cons_of_ne_nil hne
    rw [ih]
    simp only [Part.count, Node.countAll, Node.countBody, hc, List.length_nil, Nat.add_zero]
  | @closed _ _ _ xs _ _ _ _ hc _ ih =>
    cases xs with
    | nil => cases hc
    | cons x xs =>
      rw [ih]
      simp only [Part.count, Node.countAll, Node.countBody, hc, List.length_cons, List.length_nil,
        Nat.add_assoc]

/-- Where the code of a method stands. -/
structure Direct.Definition.LaidOut (code : List Instruction) (links : Nat → Nat → Prop)
    (d : Definition) (pos : Pos) (j : Nat) : Prop where
  opener : code[d.record]? = some ⟨.defStart d.name, ⟨.methodDef, pos⟩⟩
  numbered : Numbered d.params
  params : ParamsAt code (d.record + 1) d.params
  body : Layout code links d.owner (.body ⟨.methodDef, pos⟩ d.body)
    (d.record + 1 + 2 * d.params.length) j
  closer : code[j]? = some ⟨.defEnd d.name, ⟨.methodDef, pos⟩⟩
  link : links d.record j

/-- **Every method that a part declares is laid out in it.** -/
theorem Layout.laidOut (h : Layout code links inside p n n') {d : Definition}
    (hd : .method d ∈ p.declarations inside n) :
    ∃ pos j, n ≤ d.record ∧ j < n' ∧ d.LaidOut code links pos j := by
  -- A definition is declared by one of the parts, which begins where those before it have ended.
  induction h with
  | leaf hx _ =>
    rw [Part.declarations, declarations_of_leaf hx] at hd
    cases hd
  | call hr hargs _ ihr ihargs =>
    have hk := hr.eq_add_count
    have hle := hr.le
    have hle' := hargs.le
    simp only [Part.declarations, declarations, List.mem_append] at hd
    rcases hd with hd | hd
    · obtain ⟨pos, j, hn, hj, h⟩ := ihr hd
      exact ⟨pos, j, hn, by omega, h⟩
    · obtain ⟨pos, j, hn, hj, h⟩ := ihargs (by rwa [hk])
      exact ⟨pos, j, by omega, by omega, h⟩
  | conditional hc _ ht _ hf _ _ _ ihc iht ihf =>
    have hk := hc.eq_add_count
    have hj := ht.eq_add_count
    have hle := hc.le
    have hle' := ht.le
    have hle'' := hf.le
    simp only [Part.declarations, declarations, List.mem_append] at hd
    rcases hd with (hd | hd) | hd
    · obtain ⟨pos, j, hn, hj, h⟩ := ihc hd
      exact ⟨pos, j, hn, by omega, h⟩
    · obtain ⟨pos, j, hn, hj, h⟩ := iht (by rwa [hk])
      exact ⟨pos, j, by omega, by omega, h⟩
    · obtain ⟨pos, j, hn, hj, h⟩ := ihf (by rwa [hj, hk])
      exact ⟨pos, j, by omega, by omega, h⟩
  | absent | noExprs | noStatements | missing | empty =>
    simp [Part.declarations, declarationsIn, declarationsAll, declarations] at hd
  | present _ ih | expression _ ih => exact ih hd
  | moreExprs hx hxs ihx ihxs | moreStatements hx hxs ihx ihxs =>
    have hk := hx.eq_add_count
    have hle := hx.le
    have hle' := hxs.le
    simp only [Part.declarations, declarationsAll, List.mem_append] at hd
    rcases hd with hd | hd
    · obtain ⟨pos, j, hn, hj, h⟩ := ihx hd
      exact ⟨pos, j, hn, by omega, h⟩
    · obtain ⟨pos, j, hn, hj, h⟩ := ihxs (by rwa [hk])
      exact ⟨pos, j, by omega, by omega, h⟩
  | assign hv _ ih =>
    obtain ⟨pos, j, hn, hj, h⟩ := ih hd
    exact ⟨pos, j, hn, by omega, h⟩
  | @methodDef _ pos _ _ _ n j hs hn hp hb he hlink ih =>
    have hle := hb.le
    rcases List.mem_cons.mp hd with hd | hd
    · obtain rfl := Declaration.method.inj hd
      exact ⟨pos, j, Nat.le_refl _, by omega, hs, hn, hp, hb, he, hlink⟩
    · obtain ⟨pos, j, hn, hj, h⟩ := ih hd
      exact ⟨pos, j, by omega, by omega, h⟩
  | classDef hs hb he hlink ih =>
    rcases List.mem_cons.mp hd with hd | hd
    · cases hd
    · -- A class is no method; those of the class stand in its body.
      obtain ⟨pos, j, hn, hj, h⟩ := ih hd
      exact ⟨pos, j, by omega, by omega, h⟩
  | left _ _ _ ih => exact ih hd
  | closed _ _ _ ih =>
    obtain ⟨pos, j, hn, hj, h⟩ := ih hd
    exact ⟨pos, j, hn, by omega, h⟩

end Layout

/-! ### What loading teaches the tables -/

namespace Machine.Loading

variable {l l' l'' : Loading} {ds ds' : List Declaration} {n : Nat} {name : String}

/-- The method of a name, in a class or outside of classes. -/
def method? (l : Loading) (owner : Option String) (name : String) : Option Nat :=
  match owner with
  | none => l.methods.get? name
  | some c => (l.classes.get? c).bind fun methods => methods.get? name

/-- The tables go on to hold some declarations. -/
structure Teaches (l l' : Loading) (ds : List Declaration) : Prop where
  methods : ∀ owner name, l'.method? owner name =
    ((find? ds owner name).map Definition.record).or (l.method? owner name)
  classes : ∀ name, l'.classes.contains name = (hasClass ds name || l.classes.contains name)

/-- What leaves the tables as they are teaches nothing. -/
theorem Teaches.of_eq (hm : l'.methods = l.methods) (hc : l'.classes = l.classes) :
    Teaches l l' [] := by
  refine ⟨fun owner name => ?_, fun name => by rw [hc]; rfl⟩
  cases owner <;> simp only [method?, hm, hc] <;> rfl

/-- The later declarations are searched first. -/
theorem find?_append (ds ds' : List Declaration) (owner : Option String) (name : String) :
    find? (ds ++ ds') owner name = (find? ds' owner name).or (find? ds owner name) := by
  rw [find?, List.reverse_append, List.findSome?_append]
  rfl

/-- What two stretches teach in turn is both lists of declarations. -/
theorem Teaches.trans (h : Teaches l l' ds) (h' : Teaches l' l'' ds') :
    Teaches l l'' (ds ++ ds') := by
  constructor
  · intro owner name
    rw [h'.methods, h.methods, find?_append]
    cases find? ds' owner name <;> cases find? ds owner name <;> rfl
  · intro name
    rw [h'.classes, h.classes, hasClass, hasClass, hasClass, List.any_append, Bool.or_left_comm,
      Bool.or_assoc]

/-- Entering a method of the open class, or of none, teaches that method. -/
theorem teaches_define {d : Definition} (hinside : l.currentClass = d.owner)
    (hin : ∀ c, d.owner = some c → l.classes.contains c) :
    Teaches l (l.define d.name d.record) [.method d] := by
  constructor
  -- The definition is found under its own name and owner, and hides no other one.
  · intro owner name
    have hfind : find? [.method d] owner name =
        if d.owner = owner ∧ d.name = name then some d else none := by
      rw [find?, List.reverse_singleton, List.findSome?_singleton]
      rfl
    rw [hfind, define]
    cases howner : d.owner with
    | none =>
      rw [hinside, howner]
      cases owner with
      | none =>
        by_cases hname : d.name = name <;> simp [method?, Table.get?_set, hname]
      | some c => simp [method?]
    | some c =>
      rw [hinside, howner]
      obtain ⟨methods, hmethods⟩ := Option.isSome_iff_exists.mp (hin c howner)
      cases owner with
      | none => simp [method?]
      | some c' =>
        by_cases hc : c = c'
        · subst hc
          by_cases hname : d.name = name <;> simp [method?, Table.get?_set, hname, hmethods]
        · simp [method?, Table.get?_set, hc]
  · intro name
    rw [define]
    cases howner : d.owner with
    | none => rw [hinside, howner]; rfl
    | some c =>
      rw [hinside, howner]
      have hc := hin c howner
      simp only [Table.contains, Table.get?_set] at hc ⊢
      by_cases heq : c = name
      · subst heq; simp [hasClass, hc]
      · simp [hasClass, heq]

theorem opened_define (l : Loading) (name : String) (n : Nat) :
    (l.define name n).opened = l.opened := by
  unfold define; split <;> rfl

theorem currentClass_define (l : Loading) (name : String) (n : Nat) :
    (l.define name n).currentClass = l.currentClass := by
  unfold define; split <;> rfl

theorem jumps_define (l : Loading) (name : String) (n : Nat) :
    (l.define name n).jumps = l.jumps := by
  unfold define; split <;> rfl

/-- Entering a class teaches its name. -/
theorem teaches_enterClass (l : Loading) (name : String) :
    Teaches l (l.enterClass name) [.cls name] := by
  constructor
  · intro owner other
    change (l.enterClass name).method? owner other = l.method? owner other
    cases owner with
    | none => rfl
    | some c =>
      simp only [method?, enterClass]
      split
      · rfl
      · next hnew =>
        rw [Table.get?_set]
        split
        -- A new class has no methods, as little as a name that is no class.
        · next heq =>
          subst heq
          rw [Table.contains, Bool.not_eq_true, Option.isSome_eq_false_iff,
            Option.isNone_iff_eq_none] at hnew
          rw [hnew]
          rfl
        · rfl
  · intro other
    simp only [enterClass, hasClass, List.any_cons, List.any_nil, Bool.or_false]
    split
    · next hin =>
      by_cases heq : name = other
      · subst heq; simp [hin]
      · simp [heq]
    · by_cases heq : name = other
      · subst heq; simp [Table.contains]
      · simp [Table.contains, Table.get?_set, heq]

/-! ### Going through the code -/

/-- Loading goes from one point of the code to another. -/
inductive Loads (code : List Instruction) : Nat → Loading → Nat → Loading → Prop
  | refl (n : Nat) (l : Loading) : Loads code n l n l
  | step {n n' : Nat} {i : Instruction} {l l₁ l' : Loading} : code[n]? = some i →
      l.learn n i.op = .ok l₁ → Loads code (n + 1) l₁ n' l' → Loads code n l n' l'

variable {code : List Instruction} {n' n'' : Nat} {i : Instruction}

/-- Loading one stretch and then the next. -/
theorem Loads.trans (h : Loads code n l n' l') (h' : Loads code n' l' n'' l'') :
    Loads code n l n'' l'' := by
  induction h with
  | refl => exact h'
  | step hi hl _ ih => exact .step hi hl (ih h')

theorem Loads.snoc (h : Loads code n l n' l') (hi : code[n']? = some i)
    (hl : l'.learn n' i.op = .ok l'') : Loads code n l (n' + 1) l'' :=
  h.trans (.step hi hl (.refl _ _))

/-- Loading up to the end of the code is what the machine does before it runs. -/
theorem learnAll_of_loads (h : Loads code n l n' l') (hn : n' = code.length) :
    l.learnAll n (code.drop n) = .ok l' := by
  induction h with
  | refl =>
    rw [List.drop_of_length_le (Nat.le_of_eq hn.symm)]
    rfl
  | step hi hl _ ih =>
    obtain ⟨hlt, rfl⟩ := List.getElem?_eq_some_iff.mp hi
    rw [List.drop_eq_getElem_cons hlt, learnAll, hl]
    exact ih hn

/-- Closing a block links it; it learns no name. -/
theorem tables_of_closeBlock (h : l.closeBlock n = .ok l') :
    l'.methods = l.methods ∧ l'.classes = l.classes ∧ l'.currentClass = l.currentClass := by
  unfold closeBlock at h
  split at h
  · cases h
  · obtain rfl := Except.ok.inj h
    exact ⟨rfl, rfl, rfl⟩

/-- A class is never forgotten, and its opener enters it. -/
theorem contains_learn {op : Operation} (h : l.learn n op = .ok l') :
    (∀ c, l.classes.contains c → l'.classes.contains c) ∧
      ∀ name, op = .classStart name → l'.classes.contains name := by
  -- Only an opener adds a class; a closing record at most unlinks, and the others leave the tables.
  cases op with
  | defStart name =>
    obtain rfl := Except.ok.inj h
    refine ⟨fun c hc => ?_, fun _ h => by cases h⟩
    unfold define
    split
    · exact hc
    · simp only [Table.contains, Table.get?_set]
      split
      · rfl
      · exact hc
  | classStart name =>
    obtain rfl := Except.ok.inj h
    have hteach := teaches_enterClass (l.openBlock n) name
    constructor
    · intro c hc
      rw [hteach.classes, show (l.openBlock n).classes = l.classes from rfl, hc, Bool.or_true]
    · rintro _ ⟨⟩
      rw [hteach.classes]
      simp [hasClass]
  | ifElse | classEnd =>
    obtain ⟨l₁, h₁, h₂⟩ := exists_of_bind_eq_ok h
    obtain rfl := Except.ok.inj h₂
    exact ⟨fun c hc => by rw [← (tables_of_closeBlock h₁).2.1] at hc; exact hc,
      fun _ h => by cases h⟩
  | defEnd | ifEnd =>
    exact ⟨fun c hc => by rw [(tables_of_closeBlock h).2.1]; exact hc, fun _ h => by cases h⟩
  | _ =>
    obtain rfl := Except.ok.inj h
    exact ⟨fun _ hc => hc, fun _ h => by cases h⟩

/-- **Every class that is opened is registered.** -/
theorem Loads.entered (h : Loads code n l n' l') :
    (∀ c, l.classes.contains c → l'.classes.contains c) ∧
      ∀ k name origin, n ≤ k → k < n' → code[k]? = some ⟨.classStart name, origin⟩ →
        l'.classes.contains name := by
  induction h with
  | refl => exact ⟨fun _ hc => hc, fun k _ _ hn hn' _ => by omega⟩
  | @step n n' i l l₁ l' hi hl _ ih =>
    obtain ⟨hkeep, hnew⟩ := contains_learn hl
    refine ⟨fun c hc => ih.1 c (hkeep c hc), fun k name origin hn hn' hk => ?_⟩
    -- The record sought is the first of the stretch, or one of those behind it.
    rcases Nat.eq_or_lt_of_le hn with rfl | hlt
    · obtain rfl := Option.some.inj (hi.symm.trans hk)
      exact ih.1 name (hnew name rfl)
    · exact ih.2 k name origin hlt hn' hk

/-- What a part does to loading: the blocks that were open stay open, the class stays the same, the
tables learn the declarations of the part, and only openers in the part are linked. -/
structure Takes (code : List Instruction) (n n' : Nat) (l l' : Loading)
    (ds : List Declaration) : Prop where
  loads : Loads code n l n' l'
  opened : l'.opened = l.opened
  currentClass : l'.currentClass = l.currentClass
  teaches : Teaches l l' ds
  outside : ∀ a, a < n ∨ n' ≤ a → l'.jumps.get? a = l.jumps.get? a

theorem Takes.refl (n : Nat) (l : Loading) : Takes code n n l l [] :=
  ⟨.refl n l, rfl, rfl, .of_eq rfl rfl, fun _ _ => rfl⟩

/-- An instruction that neither opens nor closes a block. -/
theorem Takes.single (l : Loading) (hi : code[n]? = some i) (hl : l.learn n i.op = .ok l) :
    Takes code n (n + 1) l l [] :=
  ⟨.step hi hl (.refl _ _), rfl, rfl, .of_eq rfl rfl, fun _ _ => rfl⟩

/-- Two stretches taken in turn, with the links that each makes. -/
theorem Takes.trans (h : Takes code n n' l l' ds) (h' : Takes code n' n'' l' l'' ds')
    (hn : n ≤ n') (hn' : n' ≤ n'') : Takes code n n'' l l'' (ds ++ ds') := by
  refine ⟨h.loads.trans h'.loads, h'.opened.trans h.opened,
    h'.currentClass.trans h.currentClass, h.teaches.trans h'.teaches, fun a ha => ?_⟩
  rw [h'.outside a (by omega), h.outside a (by omega)]

/-- The same with one such instruction behind it. -/
theorem Takes.snoc (h : Takes code n n' l l' ds) (hn : n ≤ n') (hi : code[n']? = some i)
    (hl : l'.learn n' i.op = .ok l') : Takes code n (n' + 1) l l' ds := by
  have := h.trans (.single l' hi hl) hn (Nat.le_succ _)
  rwa [List.append_nil] at this

/-- A class that is known stays known. -/
theorem Takes.contains (h : Takes code n n' l l' ds) {inside : Option String}
    (hin : ∀ c, inside = some c → l.classes.contains c) :
    ∀ c, inside = some c → l'.classes.contains c := by
  intro c hc
  rw [h.teaches.classes, hin c hc, Bool.or_true]

/-- The parameters of a method open and close nothing. -/
theorem takes_params (l : Loading) :
    ∀ {params : List Param} {n : Nat}, ParamsAt code n params →
      Takes code n (n + 2 * params.length) l l [] := by
  intro params
  induction params with
  | nil => exact fun _ => .refl _ l
  | cons p rest ih =>
    intro n h
    -- A push and an assignment for this parameter, then the rest of the list.
    have hrest := (Takes.single l h.head rfl).snoc (Nat.le_succ _) h.tail.head rfl
    have hall := hrest.trans (ih h.tail.tail) (by omega) (by omega)
    rwa [show n + 2 * (p :: rest).length = n + 1 + 1 + 2 * rest.length by
      rw [List.length_cons]; omega]

/-- The links that loading has set. -/
def Linked (l : Loading) (a b : Nat) : Prop := l.jumps.get? a = some b

/-- A part keeps its links while loading goes on behind it. -/
theorem Takes.relink {inside : Option String} {p : Part}
    (h : Takes code n' n'' l l' ds) (hp : Layout code l.Linked inside p n n') :
    Layout code l'.Linked inside p n n' :=
  hp.relink fun a _ _ ha hl => (h.outside a (.inl ha)).trans hl

/-! ### Closing a block -/

/-- Loading when the innermost block has been closed. -/
def link (l : Loading) (a b : Nat) : Loading :=
  { l with opened := l.opened.tail, jumps := l.jumps.set a b }

variable {a b : Nat} {r : List Nat}

/-- **The closer of a block** finds the opener of that block, whatever stands between them. -/
theorem Takes.closeBlock (h : Takes code (a + 1) b l l' ds) (ho : l.opened = a :: r) :
    l'.closeBlock b = .ok (l'.link a b) ∧ (l'.link a b).opened = r := by
  have ho' : l'.opened = a :: r := h.opened.trans ho
  constructor
  · simp only [Loading.closeBlock, ho', link, List.tail_cons]
  · rw [link, ho', List.tail_cons]

/-- The block is linked, and no opener outside of it. -/
theorem Takes.link_outside (h : Takes code (a + 1) b l l' ds) (hab : a < b) (x : Nat)
    (hx : x < a ∨ b ≤ x) : (l'.link a b).jumps.get? x = l.jumps.get? x := by
  rw [link, Table.get?_set, if_neg (by omega)]
  exact h.outside x (by omega)

/-- A link is no entry of a table. -/
theorem Teaches.link (h : Teaches l l' ds) : Teaches l (l'.link a b) ds := ⟨h.methods, h.classes⟩

theorem Teaches.opened (h : Teaches (l.openBlock n) l' ds) : Teaches l l' ds :=
  ⟨h.methods, h.classes⟩

theorem linked_link (l : Loading) (a b : Nat) : (l.link a b).Linked a b :=
  Table.get?_set_self _ _ _

/-- What stands in the block keeps its links. -/
theorem relink_link {inside : Option String} {p : Part}
    (hp : Layout code l.Linked inside p n n') (ha : a < n) :
    Layout code (l.link a b).Linked inside p n n' := by
  refine hp.relink fun x y hx _ hl => ?_
  rw [Linked, link, Table.get?_set, if_neg (by omega)]
  exact hl

end Machine.Loading

open Machine.Loading

/-- Leaves teach nothing. -/
theorem learn_of_leaf {x : Node} {i : Instruction} (h : x.leaf? = some i) (l : Loading) (n : Nat) :
    l.learn n i.op = .ok l := by
  cases x <;> first | cases h; rfl | cases h

/-- The closing record of a body teaches nothing. -/
theorem learn_of_closing {xs : List Node} {i : Instruction} (h : Lowering.closingLast xs = [i])
    (l : Loading) (n : Nat) : l.learn n i.op = .ok l := by
  unfold Lowering.closingLast at h
  split at h
  · next x _ => cases x <;> first | cases h; rfl | cases h
  · cases h

/-! ### Loading the parts of a program -/

/-- A part is loaded wherever loading comes to it, and its openers are linked to their closers. -/
def LoadsPart (code : List Instruction) (inside : Option String) (p : Part) (n n' : Nat) : Prop :=
  ∀ l : Loading, l.currentClass = inside → (∀ c, inside = some c → l.classes.contains c) →
    ∃ l', Takes code n n' l l' (p.declarations inside n) ∧ Layout code l'.Linked inside p n n'

section

variable {code : List Instruction} {inside : Option String} {n k j n' : Nat} {pos start : Pos}
  {name : String} {condition : Node} {body body' : Option Node} {params : List Param} {xs : List Node}

/-- Two parts, one behind the other. -/
theorem LoadsPart.both {p q : Part} {l : Loading} (hp : LoadsPart code inside p n k)
    (hq : LoadsPart code inside q k n') (hle : n ≤ k) (hle' : k ≤ n') (hl : l.currentClass = inside)
    (hin : ∀ c, inside = some c → l.classes.contains c) :
    ∃ l', Takes code n n' l l' (p.declarations inside n ++ q.declarations inside k) ∧
      Layout code l'.Linked inside p n k ∧ Layout code l'.Linked inside q k n' := by
  obtain ⟨l₁, h₁, hp₁⟩ := hp l hl hin
  obtain ⟨l₂, h₂, hq₂⟩ := hq l₁ (h₁.currentClass.trans hl) (h₁.contains hin)
  exact ⟨l₂, h₁.trans h₂ hle hle', h₂.relink hp₁, hq₂⟩

/-- A conditional is taken when its condition and branches are: the markers between them open and
close the block, and the links go from each to the next. -/
theorem loads_conditional (ihc : LoadsPart code inside (.expr condition) n k)
    (hs : code[k]? = some ⟨.ifStart, ⟨.conditional, pos⟩⟩)
    (iht : LoadsPart code inside (.body ⟨.conditional, pos⟩ body) (k + 1) j)
    (he : code[j]? = some ⟨.ifElse, ⟨.conditional, pos⟩⟩)
    (ihf : LoadsPart code inside (.body ⟨.conditional, pos⟩ body') (j + 1) n')
    (hd : code[n']? = some ⟨.ifEnd, ⟨.conditional, pos⟩⟩)
    (hk : k = n + (Part.expr condition).count)
    (hj : j = k + 1 + (Part.body ⟨.conditional, pos⟩ body).count) (hle : j + 1 ≤ n') :
    LoadsPart code inside (.expr (.conditional pos condition body body')) n (n' + 1) := by
  intro l hl hin
  have hle' : k + 1 ≤ j := by omega
  obtain ⟨l₁, h₁, hc₁⟩ := ihc l hl hin
  -- The first branch stands in the block that `ifStart` opens and `ifElse` closes.
  obtain ⟨l₂, h₂, ht₂⟩ := iht (l₁.openBlock k) (h₁.currentClass.trans hl) (h₁.contains hin)
  obtain ⟨hclose, hopened⟩ := h₂.closeBlock (r := l₁.opened) rfl
  -- The second one stands in the block that `ifElse` opens and `ifEnd` closes.
  obtain ⟨l₄, h₄, hf₄⟩ := ihf ((l₂.link k j).openBlock j)
    ((h₂.currentClass.trans h₁.currentClass).trans hl) (h₂.contains (h₁.contains hin))
  obtain ⟨hclose', hopened'⟩ := h₄.closeBlock (r := l₁.opened)
    (congrArg (List.cons j) hopened)
  refine ⟨l₄.link j n', ⟨?_, ?_, ?_, ?_, ?_⟩, ?_⟩
  · have hstart : Loads code n l (k + 1) (l₁.openBlock k) := h₁.loads.snoc hs rfl
    have helse : Loads code n l (j + 1) ((l₂.link k j).openBlock j) :=
      (hstart.trans h₂.loads).snoc he (by simp only [learn, hclose]; rfl)
    exact (helse.trans h₄.loads).snoc hd hclose'
  · exact hopened'.trans h₁.opened
  · exact h₄.currentClass.trans (h₂.currentClass.trans h₁.currentClass)
  · rw [hj] at h₄
    rw [hk] at h₂ h₄
    exact (h₁.teaches.trans h₂.teaches.opened.link).trans h₄.teaches.opened.link
  · intro a ha
    rw [h₄.link_outside hle a (by omega)]
    exact (h₂.link_outside hle' a (by omega)).trans (h₁.outside a (by omega))
  -- What the second branch and its closer link lies behind `j`, so the links before it stay.
  · have hout : ∀ a, a < j → (l₄.link j n').jumps.get? a = (l₂.link k j).jumps.get? a :=
      fun a ha => h₄.link_outside hle a (.inl ha)
    have hc₄ : Layout code (l₄.link j n').Linked _ _ n k := hc₁.relink fun a _ _ ha hlink => by
      rw [Linked, hout a (by omega), h₂.link_outside hle' a (.inl ha)]
      exact hlink
    have ht₄ : Layout code (l₄.link j n').Linked _ _ (k + 1) j :=
      (relink_link ht₂ (Nat.lt_succ_self k)).relink fun a _ _ ha hlink => (hout a ha).trans hlink
    exact .conditional hc₄ hs ht₄ he (relink_link hf₄ (Nat.lt_succ_self j)) hd
      ((hout k (by omega)).trans (linked_link _ _ _)) (linked_link _ _ _)

/-- A definition is taken when its body is: the opener enters the method, the parameters teach
nothing, and the closing record links the two. -/
theorem loads_methodDef (hs : code[n]? = some ⟨.defStart name, ⟨.methodDef, pos⟩⟩)
    (hn : Numbered params) (hp : ParamsAt code (n + 1) params)
    (ih : LoadsPart code inside (.body ⟨.methodDef, pos⟩ body) (n + 1 + 2 * params.length) j)
    (he : code[j]? = some ⟨.defEnd name, ⟨.methodDef, pos⟩⟩)
    (hle : n + 1 + 2 * params.length ≤ j) :
    LoadsPart code inside (.statement (.methodDef pos name params body)) n (j + 1) := by
  intro l hl hin
  have hdefine := teaches_define (l := l.openBlock n) (d := ⟨n, inside, name, params, body⟩) hl hin
  -- The body is loaded with the method entered, so that a call inside it finds its own definition.
  obtain ⟨l₁, h₁, hb₁⟩ := ih ((l.openBlock n).define name n)
    ((currentClass_define _ _ _).trans hl) fun c hc => by
      rw [hdefine.classes, show (l.openBlock n).classes = l.classes from rfl, hin c hc,
        Bool.or_true]
  have h₂ := (takes_params _ hp).trans h₁ (by omega) hle
  -- The opener is still on top when the closing record comes: the body leaves the open blocks
  -- alone.
  obtain ⟨hclose, hopened⟩ := h₂.closeBlock (r := l.opened) (opened_define _ _ _)
  refine ⟨l₁.link n j, ⟨?_, ?_, ?_, ?_, ?_⟩, ?_⟩
  · exact (Loads.step hs rfl h₂.loads).snoc he hclose
  · exact hopened
  · exact h₂.currentClass.trans (currentClass_define _ _ _)
  · exact hdefine.opened.trans h₂.teaches.link
  · intro a ha
    rw [h₂.link_outside (by omega) a (by omega), jumps_define]
    rfl
  · exact .methodDef hs hn hp (relink_link hb₁ (by omega)) he (linked_link _ _ _)

/-- A class is taken when its statements are, with the class as the one they stand in. -/
theorem loads_classDef (hs : code[n]? = some ⟨.classStart name, ⟨.classDef, pos⟩⟩)
    (ih : LoadsPart code (some name) (.statements xs) (n + 1) j)
    (he : code[j]? = some ⟨.classEnd name, ⟨.classDef, pos⟩⟩) (hle : n + 1 ≤ j) :
    LoadsPart code none (.statement (.classDef pos name (.block start xs))) n (j + 1) := by
  intro l hl _
  have henter := teaches_enterClass (l.openBlock n) name
  obtain ⟨l₁, h₁, hb₁⟩ := ih ((l.openBlock n).enterClass name) rfl fun c hc => by
    obtain rfl := Option.some.inj hc
    rw [henter.classes]
    simp [hasClass]
  obtain ⟨hclose, hopened⟩ := h₁.closeBlock (r := l.opened) rfl
  refine ⟨{ l₁.link n j with currentClass := none }, ⟨?_, ?_, ?_, ?_, ?_⟩, ?_⟩
  · refine (Loads.step hs rfl h₁.loads).snoc he ?_
    simp only [learn, hclose]
    rfl
  · exact hopened
  · exact hl.symm
  -- Going back to no class changes no table.
  · have hall := henter.opened.trans (h₁.teaches.link (a := n) (b := j))
    exact ⟨hall.methods, hall.classes⟩
  · intro a ha
    exact h₁.link_outside (by omega) a (by omega)
  · exact .classDef hs (relink_link hb₁ (Nat.lt_succ_self n)) he (linked_link l₁ n j)

end

/-- **A part is loaded.** The machine links the openers in it to their closers. -/
theorem Layout.loads {code : List Instruction} {links : Nat → Nat → Prop} {inside : Option String}
    {p : Part} {n n' : Nat} (h : Layout code links inside p n n') : LoadsPart code inside p n n' := by
  -- On the layout: a part loads when its parts do, one after the other.
  induction h with
  | @leaf inside x _ n hx hi =>
    intro l _ _
    refine ⟨l, ?_, .leaf hx hi⟩
    rw [Part.declarations, declarations_of_leaf hx]
    exact .single l hi (learn_of_leaf hx l n)
  | call hr hargs hi ihr ihargs =>
    intro l hl hin
    obtain ⟨l', h, hr', hargs'⟩ := ihr.both ihargs hr.le hargs.le hl hin
    have hle := Nat.le_trans hr.le hargs.le
    -- The length of the receiver tells where the arguments start.
    obtain rfl := hr.eq_add_count
    exact ⟨l', h.snoc hle hi rfl, .call hr' hargs' hi⟩
  | conditional hc hs ht he hf hd _ _ ihc iht ihf =>
    exact loads_conditional ihc hs iht he ihf hd hc.eq_add_count ht.eq_add_count hf.le
  | absent hi =>
    intro l _ _
    exact ⟨l, .single l hi rfl, .absent hi⟩
  | present _ ih =>
    intro l hl hin
    obtain ⟨l', h, hx⟩ := ih l hl hin
    exact ⟨l', h, .present hx⟩
  | noExprs => exact fun l _ _ => ⟨l, .refl _ l, .noExprs⟩
  | moreExprs hx hxs ihx ihxs =>
    intro l hl hin
    obtain ⟨l', h, hx', hxs'⟩ := ihx.both ihxs hx.le hxs.le hl hin
    obtain rfl := hx.eq_add_count
    exact ⟨l', h, .moreExprs hx' hxs'⟩
  | expression _ ih =>
    intro l hl hin
    obtain ⟨l', h, hx⟩ := ih l hl hin
    exact ⟨l', h, .expression hx⟩
  | assign hv hi ih =>
    intro l hl hin
    obtain ⟨l', h, hx⟩ := ih l hl hin
    exact ⟨l', h.snoc hv.le hi rfl, .assign hx hi⟩
  | methodDef hs hn hp hb he _ ih => exact loads_methodDef hs hn hp ih he hb.le
  | classDef hs hb he _ ih => exact loads_classDef hs ih he hb.le
  | noStatements => exact fun l _ _ => ⟨l, .refl _ l, .noStatements⟩
  | moreStatements hx hxs ihx ihxs =>
    intro l hl hin
    obtain ⟨l', h, hx', hxs'⟩ := ihx.both ihxs hx.le hxs.le hl hin
    obtain rfl := hx.eq_add_count
    exact ⟨l', h, .moreStatements hx' hxs'⟩
  | missing hi =>
    intro l _ _
    exact ⟨l, .single l hi rfl, .missing hi⟩
  | empty hi =>
    intro l _ _
    exact ⟨l, .single l hi rfl, .empty hi⟩
  | left hne _ hc ih =>
    intro l hl hin
    obtain ⟨l', h, hx⟩ := ih l hl hin
    exact ⟨l', h, .left hne hx hc⟩
  | closed hxs hc hi ih =>
    intro l hl hin
    obtain ⟨l', h, hx⟩ := ih l hl hin
    exact ⟨l', h.snoc hxs.le hi (learn_of_closing hc _ _), .closed hx hc hi⟩

/-! ### Loaded programs -/

/-- The machine goes on behind `b` when it passes the block that `a` opens. -/
def Machine.Linked (m : Machine) (a b : Nat) : Prop := m.jumps.get? a = some b

/-- A machine that was loaded with the code of a program. -/
structure Loaded (m : Machine) (code : List Instruction) (statements : List Node) : Prop where
  code_eq : m.code = code.toArray
  layout : Layout code m.Linked none (.statements statements) 0 code.length
  method : ∀ name, m.methods.get? name =
    (find? (declared statements) none name).map Definition.record
  methodOf : ∀ c name, m.methodOf? (some c) name =
    (find? (declared statements) (some c) name).map Definition.record
  hasClass : ∀ name, m.classes.contains name = hasClass (declared statements) name
  entered : ∀ {n : Nat} {name : String} {origin : Origin},
    code[n]? = some ⟨.classStart name, origin⟩ → m.classes.contains name
  loads : ∃ l, Loading.Loads code 0 .initial code.length l ∧ m.methods = l.methods ∧ m.classes = l.classes

/-- A loaded machine has the room that it is given. -/
theorem memory_of_load {memory : Nat} {records : List TypedRecord} {m : Machine}
    (h : Machine.load memory records = .ok m) : m.memory = memory := by
  obtain ⟨_, -, h⟩ := exists_of_bind_eq_ok h
  obtain ⟨l, -, h⟩ := exists_of_bind_eq_ok h
  split at h
  · exact (Except.ok.inj h) ▸ rfl
  · cases h

/-- **Code that is laid out can be loaded.** -/
theorem load_spec (memory : Nat) {code : List Instruction} {links : Nat → Nat → Prop}
    {statements : List Node} {records : List TypedRecord} (h : Layout code links none (.statements statements) 0 code.length)
    (hcode : records.map TypedRecord.instruction = code) (htyped : firstUntyped? records = none) :
    ∃ m, Machine.load memory records = .ok m ∧ Loaded m code statements := by
  obtain ⟨l, hl, hlayout⟩ := h.loads .initial rfl nofun
  have hall : Loading.initial.learnAll 0 code = .ok l := learnAll_of_loads hl.loads rfl
  -- The tables start out empty, so they hold the declarations of the program and no others.
  refine ⟨⟨code.toArray, l.methods, l.classes, l.jumps, memory⟩, ?_, rfl, hlayout, ?_, ?_, ?_, ?_,
    l, hl.loads, rfl, rfl⟩
  · simp only [Machine.load, requireTypes, htyped, hcode, bind, Except.bind, hall, hl.opened]
    rfl
  · intro name
    exact (hl.teaches.methods none name).trans (Option.or_none)
  · intro c name
    exact (hl.teaches.methods (some c) name).trans (Option.or_none)
  · intro name
    exact (hl.teaches.classes name).trans (Bool.or_false _)
  · intro n name origin hi
    exact hl.loads.entered.2 n name origin (Nat.zero_le n) (List.getElem?_eq_some_iff.mp hi).1 hi

end Rubylet
