import Rubylet.Proofs.Code.Loading
import Rubylet.Proofs.Graph.Edges

/-!
# One set of tables

The machine and the graph builder each collect the methods and the classes of a program, the one
while it loads the code, the other from a replay. `tables_agree` says that they find the same, so
that a call means at run time what it meant to inference.

A parameter has its argument because the index counts the parameters of every definition
(`Indexed.le_arity`).
-/

namespace Rubylet

open Replay Machine

variable {code : List Instruction} {n : Nat} {i : Instruction} {e : Event}

/-- Does the operation close a class? -/
def Operation.isClassEnd : Operation → Bool
  | .classEnd _ => true
  | _ => false

/-- Does the operation send a message of a name? -/
def Operation.sends (name : String) : Operation → Bool
  | .send other _ => other = name
  | _ => false

namespace Machine.Loading

variable {l l' : Loading}

/-- An instruction that defines nothing leaves the tables as they are. -/
theorem learn_other {op : Operation} (h : l.learn n op = .ok l') (hd : ∀ name, op ≠ .defStart name)
    (hc : ∀ name, op ≠ .classStart name) :
    l'.methods = l.methods ∧ l'.classes = l.classes ∧
      l'.currentClass = if op.isClassEnd then none else l.currentClass := by
  cases op with
  | defStart name => exact absurd rfl (hd name)
  | classStart name => exact absurd rfl (hc name)
  | ifElse =>
    -- The closing record unlinks first and only then links or leaves the class.
    obtain ⟨l₁, h₁, h₂⟩ := exists_of_bind_eq_ok h
    obtain rfl := Except.ok.inj h₂
    have hclosed := tables_of_closeBlock h₁
    exact ⟨hclosed.1, hclosed.2.1, hclosed.2.2⟩
  | classEnd =>
    obtain ⟨l₁, h₁, h₂⟩ := exists_of_bind_eq_ok h
    obtain rfl := Except.ok.inj h₂
    have hclosed := tables_of_closeBlock h₁
    exact ⟨hclosed.1, hclosed.2.1, rfl⟩
  | defEnd | ifEnd => exact tables_of_closeBlock h
  | _ =>
    obtain rfl := Except.ok.inj h
    exact ⟨rfl, rfl, rfl⟩

end Machine.Loading

/-- What loading and indexing have found is the same. -/
structure Agree (l : Loading) (x : Index) (s : Replay.State) : Prop where
  method : ∀ owner name, l.method? owner name = x.findMethod name owner
  classes : ∀ c, l.classes.contains c = (x.classes.get? c).isSome
  current : l.currentClass = s.currentClass
  single : s.classes.length ≤ 1
  entered : ∀ c, s.currentClass = some c → (x.classes.get? c).isSome

/-- The tables agree still when the classes and the methods are the same. -/
theorem Agree.of_eq {l l' : Loading} {x x' : Index} {s s' : Replay.State} (h : Agree l x s)
    (hm : l'.methods = l.methods) (hc : l'.classes = l.classes)
    (hx : ∀ name owner, x'.findMethod name owner = x.findMethod name owner)
    (hxc : ∀ c, (x'.classes.get? c).isSome = (x.classes.get? c).isSome)
    (hcurrent : l'.currentClass = s'.currentClass) (hsingle : s'.classes.length ≤ 1)
    (hsub : ∀ c, s'.currentClass = some c → s.currentClass = some c) : Agree l' x' s' := by
  -- The two searches, the classes, and the class that is open.
  refine ⟨?_, ?_, hcurrent, hsingle, ?_⟩
  · intro owner name
    rw [hx, ← h.method]
    cases owner <;> simp only [Loading.method?, hm, hc]
  · intro c
    rw [hc, hxc, h.classes]
  · intro c hcc
    rw [hxc]
    exact h.entered c (hsub c hcc)

/-- The tables agree still when a method has been defined in the current class. -/
theorem Agree.define {l : Loading} {x : Index} {s s' : Replay.State} (h : Agree l x s)
    (name : String) (line : Int) (hs : s'.classes = s.classes) :
    Agree ((l.openBlock n).define name n) (x.define n name s.currentClass line) s' := by
  have hcurrent : s'.currentClass = s.currentClass := by
    rw [State.currentClass, hs, State.currentClass]
  have hin : ∀ c, s.currentClass = some c → l.classes.contains c := by
    intro c hc
    rw [h.classes]
    exact h.entered c hc
  -- A class that is open has been entered, so the method goes to its table.
  have hteach := Loading.teaches_define (l := l.openBlock n) (d := ⟨n, s.currentClass, name, [], none⟩)
    h.current hin
  refine ⟨?_, ?_, ?_, ?_, ?_⟩
  · intro owner other
    rw [hteach.methods, x.findMethod_define name n s.currentClass line other owner h.entered,
      Direct.find?, List.reverse_singleton, List.findSome?_singleton, Direct.Declaration.method?]
    dsimp only
    by_cases heq : s.currentClass = owner ∧ name = other
    · rw [if_pos heq, if_pos ⟨heq.1.symm, heq.2⟩]
      rfl
    · rw [if_neg heq, if_neg fun h => heq ⟨h.1.symm, h.2⟩]
      exact h.method owner other
  · intro c
    rw [Index.isSome_classes_define, ← h.classes, hteach.classes]
    rfl
  · exact (Loading.currentClass_define _ _ _).trans (h.current.trans hcurrent.symm)
  · rw [hs]
    exact h.single
  · intro c hc
    rw [Index.isSome_classes_define]
    exact h.entered c (hcurrent ▸ hc)

/-- The tables agree still when a class has been opened. -/
theorem Agree.openClass {l : Loading} {x : Index} {s s' : Replay.State} (h : Agree l x s)
    (name : String) (line : Int) (hs : s'.classes = [⟨n, name⟩]) :
    Agree ((l.openBlock n).enterClass name) (x.openClass n name line) s' := by
  have hteach := Loading.teaches_enterClass (l.openBlock n) name
  -- The grammar has no class in a class, so the one that is entered is the only one open.
  have hcurrent : s'.currentClass = some name := by
    rw [State.currentClass, hs]
    rfl
  refine ⟨?_, ?_, hcurrent.symm, ?_, ?_⟩
  · intro owner other
    rw [hteach.methods, Index.findMethod_openClass]
    exact h.method owner other
  · intro c
    rw [hteach.classes, Index.isSome_classes_openClass, ← h.classes]
    simp [Direct.hasClass, Loading.openBlock]
  · rw [hs]
    exact Nat.le_refl 1
  · intro c hc
    obtain rfl := Option.some.inj (hcurrent.symm.trans hc)
    rw [Index.isSome_classes_openClass, decide_eq_true rfl, Bool.true_or]

namespace Graph.Indexed

variable {x : Index} (b : Indexed code x)

include b

/-- One record keeps the tables of the loader and of the graph in agreement. -/
theorem agree_succ {l l' : Loading} (h : Occurs code n i e)
    (ha : Agree l (indexAt code n) (stateAt code n)) (hl : l.learn n i.op = .ok l') :
    Agree l' (indexAt code (n + 1)) (stateAt code (n + 1)) := by
  cases ho : i.op with
  | defStart name =>
    rw [ho] at hl
    obtain rfl := Except.ok.inj hl
    rw [b.indexAt_defStart h ho]
    exact ha.define name i.origin.pos.line (by rw [h.classes_succ, ho])
  | classStart name =>
    rw [ho] at hl
    obtain rfl := Except.ok.inj hl
    rw [b.indexAt_classStart h ho]
    exact ha.openClass name i.origin.pos.line (by rw [h.classes_succ, ho])
  | classEnd name =>
    obtain ⟨hm, hc, hcurrent⟩ := Loading.learn_other hl (by simp [ho]) (by simp [ho])
    -- At most one class is open, so the end of it leaves none.
    have hnone : (stateAt code (n + 1)).classes = [] := by
      rw [h.classes_succ, ho]
      have := ha.single
      cases hcls : (stateAt code n).classes with
      | nil => rfl
      | cons c cs => rw [hcls] at this; exact List.eq_nil_of_length_eq_zero (by simpa using this)
    rw [b.indexAt_other h (by simp [ho]) (by simp [ho]) (by simp [ho]) (by simp [ho])]
    rw [ho, Operation.isClassEnd, if_pos rfl] at hcurrent
    refine ha.of_eq hm hc (fun _ _ => rfl) (fun _ => rfl) ?_ ?_ ?_
    · rw [hcurrent, State.currentClass, hnone]
      rfl
    · rw [hnone]
      exact Nat.zero_le 1
    · rw [State.currentClass, hnone]
      exact fun _ h => by cases h
  | unknown opcode operand => exact absurd ho h.ne_unknown
  | _ =>
    obtain ⟨hm, hc, hcurrent⟩ := Loading.learn_other hl (by simp [ho]) (by simp [ho])
    have hclasses : (stateAt code (n + 1)).classes = (stateAt code n).classes := by
      simp only [h.classes_succ, ho]
    simp only [ho, Operation.isClassEnd, Bool.false_eq_true, if_false] at hcurrent
    refine ha.of_eq hm hc ?_ ?_ ?_ (hclasses ▸ ha.single) ?_
    · exact b.index_cases h (P := fun x => ∀ name owner,
        x.findMethod name owner = (indexAt code n).findMethod name owner)
        (by simp [ho]) (by simp [ho]) (fun _ _ _ _ _ _ _ => rfl) (fun _ _ _ _ _ _ _ _ => rfl)
        (fun _ _ => rfl)
    · exact b.index_cases h (P := fun x => ∀ c,
        (x.classes.get? c).isSome = ((indexAt code n).classes.get? c).isSome)
        (by simp [ho]) (by simp [ho]) (fun _ _ _ _ _ _ => rfl) (fun _ _ _ _ _ _ _ => rfl)
        (fun _ => rfl)
    · rw [hcurrent, State.currentClass, hclasses]
      exact ha.current
    · rw [State.currentClass, hclasses]
      exact fun c hc => hc

/-- **The machine and the graph have the same tables.** -/
theorem tables_agree {l : Loading} {n' : Nat} (h : Loading.Loads code 0 .initial n' l) :
    Agree l (indexAt code n') (stateAt code n') := by
  -- The induction is on the run of the loader, so the point where it starts has to vary.
  suffices hall : ∀ {m l₀}, Loading.Loads code m l₀ n' l → Agree l₀ (indexAt code m) (stateAt code m) →
      Agree l (indexAt code n') (stateAt code n') by
    refine hall h ⟨?_, fun _ => rfl, ?_, ?_, ?_⟩
    · intro owner name
      cases owner <;> rfl
    · rw [stateAt_zero]
      rfl
    · rw [stateAt_zero]
      exact Nat.zero_le 1
    · rw [stateAt_zero]
      exact nofun
  intro m l₀ h
  induction h with
  | refl => exact fun ha => ha
  | step hi hl _ ih =>
    intro ha
    obtain ⟨e, ho⟩ := b.occurs hi
    exact ih h (b.agree_succ ho ha hl)

section Loaded

variable {m : Machine} {statements : List Node} (hl : Loaded m code statements)

include hl

/-- The machine finds for a class the method that the index of the graph finds. -/
theorem methodOf?_eq (c name : String) :
    m.methodOf? (some c) name = x.findMethod name (some c) := by
  obtain ⟨l, hloads, -, hc⟩ := hl.loads
  rw [← b.indexAt_length, ← (b.tables_agree hloads).method, Machine.methodOf?, hc]
  rfl

/-- The methods of a class, or of none, are the same at run time. -/
theorem methodOf?_eq_bind (owner : Option String) (name : String) :
    m.methodOf? owner name = owner.bind fun c => x.findMethod name (some c) := by
  cases owner with
  | none => rfl
  | some c => exact b.methodOf?_eq hl c name

theorem methods_get?_eq (name : String) : m.methods.get? name = x.findMethod name none := by
  obtain ⟨l, hloads, hm, -⟩ := hl.loads
  rw [← b.indexAt_length, ← (b.tables_agree hloads).method, hm]
  rfl

theorem classes_contains_eq (c : String) :
    m.classes.contains c = (x.classes.get? c).isSome := by
  obtain ⟨l, hloads, -, hc⟩ := hl.loads
  rw [← b.indexAt_length, ← (b.tables_agree hloads).classes, hc]

/-- A message runs a method that the index knows, in the class that the method belongs to. -/
theorem findMethod_of_react {owner cls : Option String} {name : String} {receiver : Value}
    {args : List Value} {d : Nat} (h : m.react owner name receiver args = .call d cls) :
    x.findMethod name cls = some d := by
  -- A primitive answers with a value or with an error, and never with a call.
  have showing_ne : ∀ cause, Reaction.showing cause ≠ .call d cls := by
    rintro (_ | _) <;> nofun
  have primitive_ne : ∀ v : Value, primitive m.memory name v args ≠ .call d cls := by
    intro v
    unfold primitive
    split
    · exact showing_ne _
    · split
      · split
        · split <;> nofun
        · exact showing_ne _
      · exact showing_ne _
  have found : ∀ {owner : Option String}, m.methodOf? owner name = some d →
      x.findMethod name owner = some d := by
    intro owner hm
    cases owner with
    | none => cases hm
    | some c => rwa [b.methodOf?_eq hl] at hm
  unfold react at h
  split at h
  · split at h
    · next method hm =>
      obtain ⟨rfl, rfl⟩ := Reaction.call.inj h
      exact found hm
    · split at h
      · next method hm =>
        obtain ⟨rfl, rfl⟩ := Reaction.call.inj h
        rwa [b.methods_get?_eq hl] at hm
      · cases h
  · split at h <;> cases h
  · split at h
    · next method hm =>
      obtain ⟨rfl, rfl⟩ := Reaction.call.inj h
      exact found hm
    · exact absurd h (primitive_ne _)
  · exact absurd h (primitive_ne _)

end Loaded

/-! ### Parameters and callers -/

/-- What is counted of a definition is never lost. -/
theorem arity_succ {d k : Nat} (h : Occurs code n i e) (hd : d < n)
    (ha : ∃ c, (indexAt code n).arity.get? d = some c ∧ k ≤ c) :
    ∃ c, (indexAt code (n + 1)).arity.get? d = some c ∧ k ≤ c := by
  obtain ⟨c, hc, hk⟩ := ha
  -- Only a parameter raises an arity, and a definition that opens starts its own.
  refine b.index_cases h (P := fun x => ∃ c, x.arity.get? d = some c ∧ k ≤ c) ?_ ?_ ?_ ?_ ?_
  · intro name _
    exact ⟨c, by rw [Index.arity_openClass, hc], hk⟩
  · intro name _
    exact ⟨c, by rw [Index.arity_define, Table.get?_set, if_neg (Nat.ne_of_gt hd), hc], hk⟩
  · intro index d' defs _ _
    rw [Index.arity_countParam, hc, Option.getD_some]
    split
    · exact ⟨c + 1, rfl, Nat.le_succ_of_le hk⟩
    · exact ⟨c, rfl, hk⟩
  · intro name count r args _ _
    exact ⟨c, hc, hk⟩
  · exact ⟨c, hc, hk⟩

/-- The parameters of the definition that is open are counted one by one. -/
theorem indexAt_params {d : Nat} : ∀ (ps : List Param) (q : Nat), ParamsAt code q ps →
    (∃ defs, (stateAt code q).defs = d :: defs) →
    indexAt code (q + 2 * ps.length) = (Index.countParam · d)^[ps.length] (indexAt code q) := by
  intro ps
  -- On the parameters: the push counts one for the open definition, the assignment none.
  induction ps with
  | nil => exact fun q _ _ => rfl
  | cons p ps ih =>
    intro q h hdefs
    obtain ⟨defs, hdefs⟩ := hdefs
    obtain ⟨e, ho⟩ := b.occurs (CodeAt.head h)
    obtain ⟨e', ho'⟩ := b.occurs (CodeAt.head (CodeAt.tail h))
    obtain ⟨d', defs', hd', hx⟩ := b.indexAt_pushArg ho rfl
    obtain ⟨rfl, rfl⟩ := List.cons.inj (hdefs.symm.trans hd')
    -- Neither record opens or closes a definition, so the next parameter counts for the same.
    have hstate : (stateAt code (q + 1 + 1)).defs = d :: defs := by
      rw [ho'.defs_succ, ho.defs_succ, hdefs]
    have hset : indexAt code (q + 1 + 1) = indexAt code (q + 1) :=
      b.indexAt_other ho' (by simp) (by simp) (by simp) (by simp)
    have hrest := ih (q + 1 + 1) (CodeAt.tail (CodeAt.tail h)) ⟨defs, hstate⟩
    rw [hset, hx] at hrest
    rw [List.length_cons, Function.iterate_succ_apply, ← hrest]
    congr 1
    omega

/-- Behind its parameters a definition has them all counted. -/
theorem arity_after_params {d : Nat} {name : String} {ps : List Param} (hd : code[d]? = some i)
    (ho : i.op = .defStart name) (hp : ParamsAt code (d + 1) ps) :
    (indexAt code (d + 1 + 2 * ps.length)).arity.get? d = some ps.length := by
  obtain ⟨e, h⟩ := b.occurs hd
  have hfirst : (indexAt code (d + 1)).arity.get? d = some 0 := by
    rw [b.indexAt_defStart h ho, Index.arity_define, Table.get?_set_self]
  have hdefs : (stateAt code (d + 1)).defs = d :: (stateAt code d).defs := by
    rw [h.defs_succ, ho]
  rw [b.indexAt_params ps (d + 1) hp ⟨_, hdefs⟩, Index.arity_iterate_countParam_self _ hfirst,
    Nat.zero_add]

/-- **A definition has all its parameters counted.** -/
theorem le_arity {d : Nat} {name : String} {ps : List Param} (hd : code[d]? = some i)
    (ho : i.op = .defStart name) (hp : ParamsAt code (d + 1) ps) :
    ps.length ≤ (x.arity.get? d).getD 0 := by
  have hlen : d + 1 + 2 * ps.length ≤ code.length := by
    rw [← length_lowerParams]
    exact CodeAt.le_length hp (List.getElem?_eq_some_iff.mp hd).1
  -- Right behind the parameters the count is theirs, and no later record lowers it.
  have hend := (b.point_mono (P := fun m => d < m ∧
    ∃ c, (indexAt code m).arity.get? d = some c ∧ ps.length ≤ c) (fun hocc hm =>
      ⟨Nat.lt_succ_of_lt hm.1, b.arity_succ hocc hm.1 hm.2⟩) hlen (Nat.le_refl _)
      ⟨by omega, _, b.arity_after_params hd ho hp, Nat.le_refl _⟩).2
  obtain ⟨c, hc, hle⟩ := hend
  rw [← b.indexAt_length, hc]
  exact hle

/-- A call is added to the callers of its name; nothing else changes the callers of a name. -/
theorem callers_succ (h : Occurs code n i e) (name : String) :
    ((indexAt code (n + 1)).callers.get? name).getD [] =
      ((indexAt code n).callers.get? name).getD [] ++ if i.op.sends name then [n] else [] := by
  -- A send is added to the callers of its name, and no other record touches them.
  cases ho : i.op with
  | send other count =>
    obtain ⟨r, args, -, hx⟩ := b.indexAt_send h ho
    rw [hx, Index.callers_addCall, Operation.sends]
    simp only [decide_eq_true_eq]
  | _ =>
    simp only [Operation.sends, Bool.false_eq_true, if_false, List.append_nil]
    refine b.index_cases h (P := fun x => (x.callers.get? name).getD [] = _) ?_ ?_ ?_ ?_ rfl
    · intro _ _; rw [Index.callers_openClass]
    · intro _ _; rw [Index.callers_define]
    · exact fun _ _ _ _ _ => rfl
    · simp [ho]

/-- **The callers of a name** are the calls of that name, each of them once and in text order. -/
theorem callers_eq (name : String) :
    (x.callers.get? name).getD [] =
      (List.range code.length).filter fun n => code[n]?.any (·.op.sends name) := by
  rw [← b.indexAt_length]
  refine b.point_induction (P := fun m => ((indexAt code m).callers.get? name).getD [] =
    (List.range m).filter fun n => code[n]?.any (·.op.sends name)) rfl ?_ _ (Nat.le_refl _)
  intro n i e h ih
  rw [b.callers_succ h, ih, List.range_succ, List.filter_append]
  simp only [List.filter_cons, List.filter_nil, h.1, Option.any_some]

/-- **Every call is listed under its name.** -/
theorem mem_callers {name : String} {count : Option Int} (h : Occurs code n i e)
    (ho : i.op = .send name count) : n ∈ (x.callers.get? name).getD [] := by
  rw [b.callers_eq, List.mem_filter, List.mem_range]
  exact ⟨h.lt, by rw [h.1, Option.any_some, ho]; exact decide_eq_true rfl⟩

end Graph.Indexed

end Rubylet
