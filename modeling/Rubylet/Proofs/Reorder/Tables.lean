import Rubylet.Proofs.Reorder.Code

/-!
# Tables and edges in another order

The index of reordered statements has the same tables under the other numbers
(`Index.Renumbers`, `Reorders.index`): the methods and classes are the declared ones, each found by
its name wherever it stands; the calls of a name are the same calls, in another order.

So the index chooses alike (`Index.Renumbers.choose`), and a record depends on the same records as
before (`Edge.renumber`). Constants are left out: a class that is opened twice may be opened first
by another record than before.
-/

namespace Rubylet

open Replay Direct

/-! ### Under other numbers -/

section Renumber

variable (π : Nat → Nat)

def CallSite.renumber (s : CallSite) : CallSite := ⟨π s.receiver, π s.call, s.args.map π⟩

def CallInfo.renumber (c : CallInfo) : CallInfo := { c with args := c.args.map π }

def Dependency.renumber : Dependency → Dependency
  | .record n => .record (π n)
  | .operator site => .operator (site.renumber π)
  | .send site => .send (site.renumber π)

def Choice.renumber : Choice → Choice
  | .method n => .method (π n)
  | .operator => .operator
  | .instantiate => .instantiate

end Renumber

section Symm

variable (π : Equiv.Perm Nat)

@[simp] theorem CallSite.renumber_symm (s : CallSite) :
    (s.renumber π).renumber π.symm = s := by
  simp [renumber, Function.comp_def]

@[simp] theorem Dependency.renumber_symm (d : Dependency) :
    (d.renumber π).renumber π.symm = d := by
  cases d <;> simp [renumber]

@[simp] theorem Dependency.renumber_of_symm (d : Dependency) :
    (d.renumber π.symm).renumber π = d := d.renumber_symm π.symm

@[simp] theorem CallInfo.renumber_symm (c : CallInfo) : (c.renumber π).renumber π.symm = c := by
  simp [renumber, Function.comp_def]

end Symm

/-! ### Locals -/

namespace Renumbers

variable {π : Equiv.Perm Nat} {code code' : List Instruction} {n q f : Nat} {i : Instruction}
  {name : String} {frame : Option Nat}

variable (r : Renumbers π code code')

include r

theorem assigns_iff : Assigns code' (π q) name (frame.map π) ↔ Assigns code q name frame := by
  unfold Assigns
  rw [r.instruction]
  refine and_congr_right ?_
  rintro ⟨i, hi, -⟩
  rw [r.frame q (List.getElem?_eq_some_iff.mp hi).1, (Option.map_injective π.injective).eq_iff]

/-- The first assignment of a local is the first one in the other order, too. -/
theorem firstIn (hi : code[n]? = some i) (ho : i.op.isLocal)
    (hf : FirstIn code n (frameOf code n) name f) :
    FirstIn code' (π n) (frameOf code' (π n)) name (π f) := by
  obtain ⟨⟨j, hj, hset⟩, hframe⟩ := hf.assigns
  have hlocal : j.op.isLocal := by rw [hset]; rfl
  rw [r.frame n (List.getElem?_eq_some_iff.mp hi).1]
  refine ⟨r.order f n j i hj hlocal hi ho hframe hf.lt, r.assigns_iff.mpr hf.assigns, ?_⟩
  intro q hq ha
  obtain ⟨q, rfl⟩ := π.surjective q
  obtain ⟨⟨k, hk, hkset⟩, hframe'⟩ := r.assigns_iff.mp ha
  -- An assignment before the first one would be before it in the other order, and the other way
  -- around.
  rcases Nat.lt_trichotomy q f with hlt | rfl | hlt
  · exact hf.first q hlt ⟨⟨k, hk, hkset⟩, hframe'⟩
  · exact Nat.lt_irrefl _ hq
  · have := r.order f q j k hj hlocal hk (by rw [hkset]; rfl) (hframe.trans hframe'.symm) hlt
    omega

end Renumbers

/-! ### The index -/

/-- Only calls are remembered as such. -/
theorem Graph.Indexed.op_of_calls {code : List Instruction} {x : Index} (b : Graph.Indexed code x)
    {n : Nat} {info : CallInfo} (h : x.calls.get? n = some info) :
    ∃ i e name count, Occurs code n i e ∧ i.op = .send name count := by
  rw [← b.indexAt_length] at h
  -- On the code: an entry of the table is made at a call, and no later record touches it.
  revert n info
  refine b.point_induction (P := fun m => ∀ {n info}, (indexAt code m).calls.get? n = some info →
    ∃ i e name count, Occurs code n i e ∧ i.op = .send name count) (fun h => by cases h) ?_ _
    (Nat.le_refl _)
  intro m i e hocc ih
  refine b.index_cases hocc (P := fun x => ∀ {n info}, x.calls.get? n = some info →
    ∃ i e name count, Occurs code n i e ∧ i.op = .send name count) ?_ ?_ ?_ ?_ ih
  · intro name _ n info h
    rw [Index.calls_openClass] at h
    exact ih h
  · intro name _ n info h
    rw [Index.calls_define] at h
    exact ih h
  · exact fun _ _ _ _ _ _ _ h => ih h
  · intro name count _ _ ho _ n info h
    rw [Index.calls_addCall] at h
    split at h
    · next heq => exact ⟨i, e, name, count, heq ▸ hocc, ho⟩
    · exact ih h

/-- An index has the tables of another one under other numbers. -/
structure Index.Renumbers (π : Equiv.Perm Nat) (x x' : Index) : Prop where
  findMethod : ∀ name owner, x'.findMethod name owner = (x.findMethod name owner).map π
  classes : ∀ c, (x'.classes.get? c).isSome = (x.classes.get? c).isSome
  /-- The methods that are found have as many parameters. -/
  arity : ∀ {name owner n}, x.findMethod name owner = some n → x'.arity.get? (π n) = x.arity.get? n
  callers : ∀ name n,
    π n ∈ (x'.callers.get? name).getD [] ↔ n ∈ (x.callers.get? name).getD []
  calls : ∀ n, x'.calls.get? (π n) = (x.calls.get? n).map (CallInfo.renumber π)

/-- **Reordered statements have the same index**, under the other numbers. -/
theorem Reorders.index {σ : Equiv.Perm Nat} {xs ys : List Node} {code code' : List Instruction}
    {x x' : Index} (h : Reorders σ xs ys) (hd : Distinct (declared xs)) (l : Lowered xs code)
    (l' : Lowered ys code') (b : Graph.Indexed code x) (b' : Graph.Indexed code' x') :
    Index.Renumbers h.relocation x x' := by
  have r := h.renumbers l l'
  obtain ⟨hmethods, hclasses⟩ := b.findMethod_eq l.layout
  obtain ⟨hmethods', hclasses'⟩ := b'.findMethod_eq l'.layout
  refine ⟨fun name owner => ?_, fun c => ?_, ?_, fun name n => ?_, fun n => ?_⟩
  · rw [hmethods, hmethods', h.find?_eq hd, Option.map_map, Option.map_map]
    rfl
  · rw [hclasses, hclasses', h.hasClass_eq]
  · intro name owner n hn
    rw [hmethods, Option.map_eq_some_iff] at hn
    obtain ⟨d, hfind, rfl⟩ := hn
    have hmem := (hd.find?_eq_some_iff.mp hfind).1
    rw [b.arity_eq l.layout hmem]
    exact b'.arity_eq l'.layout (h.mem_declared hmem)
  · -- What satisfies the filter is an instruction, so the range does not matter.
    have hmem : ∀ (code : List Instruction) (n : Nat), n ∈ (List.range code.length).filter
        (fun n => code[n]?.any (·.op.sends name)) ↔ code[n]?.any (·.op.sends name) := by
      intro code n
      rw [List.mem_filter, List.mem_range, and_iff_right_iff_imp]
      intro hany
      obtain ⟨i, hi, -⟩ := Option.any_eq_true _ _ |>.mp hany
      exact (List.getElem?_eq_some_iff.mp hi).1
    rw [b.callers_eq, b'.callers_eq, hmem, hmem, r.instruction]
  · cases hn : x.calls.get? n with
    | some info =>
      obtain ⟨i, e, name, count, hocc, ho⟩ := b.op_of_calls hn
      obtain ⟨receiver, args, rfl, hcalls⟩ := b.calls_eq hocc ho
      obtain ⟨receiver', args', he, hcalls'⟩ := b'.calls_eq (r.event hocc) ho
      -- A call has the arguments that the replay gives it, and the class that is open around it.
      obtain ⟨-, rfl⟩ := Event.send.inj he
      obtain rfl := Option.some.inj (hn.symm.trans hcalls)
      rw [hcalls', r.currentClass n hocc.lt]
      rfl
    | none =>
      -- What is a call in the other order is one in this order.
      cases hn' : x'.calls.get? (h.relocation n) with
      | none => rfl
      | some info =>
        obtain ⟨i, e, name, count, hocc, ho⟩ := b'.op_of_calls hn'
        obtain ⟨e', hocc'⟩ := b.occurs ((r.instruction n).symm.trans hocc.1)
        obtain ⟨_, _, -, hcalls⟩ := b.calls_eq hocc' ho
        rw [hn] at hcalls
        cases hcalls

/-- As many arguments are asked for by a method with as many parameters. -/
theorem Index.checkArity_renumber {π : Nat → Nat} {x x' : Index} {n : Nat}
    (hn : x'.arity.get? (π n) = x.arity.get? n) (i : Instruction) (given : Nat)
    (methodName : String) : x'.checkArity i given (π n) methodName =
      (x.checkArity i given n methodName).map (Choice.renumber π) := by
  unfold Index.checkArity
  dsimp only
  rw [hn]
  split <;> rfl

namespace Index.Renumbers

variable {π : Equiv.Perm Nat} {x x' : Index} (hx : Renumbers π x x')

include hx

theorem symm : Renumbers π.symm x' x where
  findMethod name owner := by simp [hx.findMethod, Function.comp_def]
  classes c := (hx.classes c).symm
  arity {name owner n} hn := by
    rw [hx.findMethod, Option.map_eq_some_iff] at hn
    obtain ⟨n, hn, rfl⟩ := hn
    rw [Equiv.symm_apply_apply, hx.arity hn]
  callers name n := by rw [← hx.callers, Equiv.apply_symm_apply]
  calls n := by
    obtain ⟨n, rfl⟩ := π.surjective n
    simp [hx.calls, Function.comp_def]

theorem argsOf (call : Nat) : x'.argsOf (π call) = (x.argsOf call).map π := by
  rw [Index.argsOf, Index.argsOf, hx.calls]
  cases x.calls.get? call <;> rfl

theorem implicitMethod (name : String) (owner : Option String) :
    x'.implicitMethod name owner = (x.implicitMethod name owner).map π := by
  unfold Index.implicitMethod
  rw [hx.findMethod]
  cases owner with
  | none => rfl
  | some o =>
    simp only [Option.bind_some, hx.findMethod]
    cases x.findMethod name (some o) <;> rfl

/-- **The index chooses alike**, and refuses alike. -/
theorem choose (t : Ty) (i : Instruction) (info : CallInfo) :
    x'.choose t i (info.renumber π) = (x.choose t i info).map (Choice.renumber π) := by
  have hlen : (info.renumber π).args.length = info.args.length := List.length_map _
  cases t with
  | nil =>
    have hfind : (i.op.name?.bind fun name => x'.implicitMethod name (info.renumber π).owner) =
        (i.op.name?.bind fun name => x.implicitMethod name info.owner).map π := by
      cases i.op.name? with
      | none => rfl
      | some name => exact hx.implicitMethod name info.owner
    simp only [Index.choose, hfind, hlen]
    cases hm : i.op.name?.bind fun name => x.implicitMethod name info.owner with
    | none => rfl
    | some n =>
      refine Index.checkArity_renumber ?_ i _ _
      obtain ⟨name, -, hn⟩ := Option.bind_eq_some_iff.mp hm
      -- Whether the method is of a class or not, it has the same arity.
      rcases Option.or_eq_some_iff.mp hn with hn | ⟨-, hn⟩
      · obtain ⟨o, -, hn⟩ := Option.bind_eq_some_iff.mp hn
        exact hx.arity hn
      · exact hx.arity hn
  | cls =>
    simp only [Index.choose]
    split <;> rfl
  | object c =>
    have hfind : (i.op.name?.bind fun name => x'.findMethod name (some c)) =
        (i.op.name?.bind fun name => x.findMethod name (some c)).map π := by
      cases i.op.name? with
      | none => rfl
      | some name => exact hx.findMethod name (some c)
    simp only [Index.choose, hfind, hlen]
    cases hm : i.op.name?.bind fun name => x.findMethod name (some c) with
    | none => rfl
    | some n =>
      obtain ⟨name, -, hn⟩ := Option.bind_eq_some_iff.mp hm
      exact Index.checkArity_renumber (hx.arity hn) i _ _
  | _ => rfl

/-- A call depends on the same target. -/
theorem sendDependency (t? : Option Ty) (i : Instruction) (info : CallInfo) (site : CallSite) :
    Wiring.sendDependency x' t? i (info.renumber π) (site.renumber π) =
      (Wiring.sendDependency x t? i info site).map (Dependency.renumber π) := by
  unfold Wiring.sendDependency
  split
  · rfl
  · rfl
  · rw [hx.choose]
    cases x.choose _ i info with
    | error e => rfl
    | ok choice => cases choice <;> rfl

end Index.Renumbers

/-! ### Edges -/

/-- **A record depends on the same records in both orders**, unless it is a constant. -/
theorem Edge.renumber {π : Equiv.Perm Nat} {code code' : List Instruction} {x x' : Index} {n : Nat}
    {d : Dependency} (r : Renumbers π code code') (hx : Index.Renumbers π x x')
    (hn : ∀ i name, code[n]? = some i → i.op ≠ .pushConst name) (h : Edge code x n d) :
    Edge code' x' (π n) (d.renumber π) := by
  have instructions : ∀ n, code'.toArray[π n]? = code.toArray[n]? := fun n => by
    rw [List.getElem?_toArray, List.getElem?_toArray, r.instruction]
  cases h with
  | assigned h => exact .assigned (r.event h)
  | again h ho hf hj =>
    exact .again (r.event h) ho (r.firstIn h.1 (by rw [ho]; rfl) hf) (r.event hj)
  | read h ho hf => exact .read (r.event h) ho (r.firstIn h.1 (by rw [ho]; rfl) hf)
  | const h ho _ => exact absurd ho (hn _ _ h.1)
  | @passed _ i m index call arg h ho hcall hlt harg =>
    have hcall' : π call ∈ (x'.callers.get? (Wiring.methodName code'.toArray (π m))).getD [] := by
      rw [Wiring.methodName, instructions]
      exact (hx.callers _ call).mpr hcall
    refine .passed (r.event h) ho hcall' ?_ ?_
    · rwa [hx.argsOf, List.length_map]
    · rw [hx.argsOf, elementAt?_map, harg]
      rfl
  | @sent _ i receiver args d h hd =>
    refine .sent (r.event h) ?_
    rw [r.instruction, r.currentClass n h.lt]
    have hsend := hx.sendDependency ((code[receiver]?).bind fun i => i.op.givenType?) i
      ⟨args, (stateAt code n).currentClass⟩ ⟨receiver, n, args⟩
    -- The type of the receiver, if it has one from the start, is the same.
    rw [hd] at hsend
    exact hsend
  | result h => exact .result (r.event h)
  | branch h => exact .branch (r.event h)
  | join h => exact .join (r.event h)

end Rubylet
