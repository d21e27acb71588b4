import Mathlib.Data.List.Forall2
import Rubylet.Proofs.Code.Layout
import Rubylet.Proofs.Native.Parts

/-!
# Bodies under construction

What emission makes of one instruction. The records that an instruction consumes must be known in
the body that is being built (`Emission.Knows`); then nothing is looked up in vain, no defect is
noted, and the body is extended by the code of the instruction (`Emission.Extends`). The code of a
conditional is put together from that of its branches (`emit_ifStart`, `emit_ifElse`, `emit_ifEnd`).

Names never matter for what runs. They decide whether a record can be used at all: outside the
branch that it was computed in it is not visible.
-/

namespace Rubylet.Native

open Replay

namespace Emission

variable {d : Declarations} {e e' e'' : Emission} {n k r : Nat} {o : Operand} {is js : List Inst}
  {i : Instruction} {after : Replay.State} {name : String}

/-! ### Records that are known -/

/-- In the current body a record stands for an operand. -/
def Knows (e : Emission) (r : Nat) (o : Operand) : Prop :=
  ∃ p, e.values.get? r = some p ∧ p.operand = o ∧ ∀ name, p.name? = some name →
    p.method? = e.current.method? ∧ (e.current.visible.lookup name).isSome

/-- What has its name in the current body is found there. -/
theorem Knows.locate? {p : Placed} (hname : ∀ name, p.name? = some name →
    p.method? = e.current.method? ∧ (e.current.visible.lookup name).isSome) :
    e.locate? p = some p.operand := by
  unfold Emission.locate?
  cases hp : p.name? with
  | none => rfl
  | some name =>
    obtain ⟨hmethod, hvisible⟩ := hname name hp
    obtain ⟨found, hfound⟩ := Option.isSome_iff_exists.mp hvisible
    simp only [hfound, Option.map_some, if_pos hmethod]

/-- What is known is used without a change. -/
theorem Knows.use (h : e.Knows r o) : e.use r = .ok (o, e) := by
  obtain ⟨p, hp, rfl, hname⟩ := h
  simp only [Emission.use, hp, locate? hname, Option.filter_some, decide_true, if_true]

theorem Knows.useUnkinded (h : e.Knows r o) : e.useUnkinded r = .ok (o, e) := by
  obtain ⟨p, hp, rfl, hname⟩ := h
  simp only [Emission.useUnkinded, hp, locate? hname]

/-- Operands that are known are used without a change. -/
theorem Knows.useAll {rs : List Nat} {os : List Operand} (h : List.Forall₂ e.Knows rs os) :
    e.useAll rs = .ok (os, e) := by
  induction h with
  | nil => rfl
  | cons ho _ ih =>
    rw [Emission.useAll, ho.use]
    change (e.useAll _).bind _ = _
    rw [ih]
    rfl

theorem expect_true (e : Emission) : e.expect true = e := by
  rw [expect, Bool.and_true]

/-! ### Bodies that are extended -/

/-- An emission goes on: the current body is extended by some code, and what was known of records
before one with a number is kept. -/
structure Extends (e e' : Emission) (n : Nat) (is : List Inst) : Prop where
  scope : ∃ names new, e'.current = { e.current with
    names, visible := new ++ e.current.visible, code := is.reverse ++ e.current.code }
  outer : e'.outer = e.outer
  isSound : e'.isSound = e.isSound
  values : ∀ r < n, e'.values.get? r = e.values.get? r
  bodies : ∀ r < n, e'.bodies.get? r = e.bodies.get? r

namespace Extends

theorem refl (e : Emission) (n : Nat) : e.Extends e n [] :=
  ⟨⟨e.current.names, [], rfl⟩, rfl, rfl, fun _ _ => rfl, fun _ _ => rfl⟩

/-- Two stretches of emission, one behind the other. -/
theorem trans (h : e.Extends e' n is) (h' : e'.Extends e'' k js) (hn : n ≤ k) :
    e.Extends e'' n (is ++ js) := by
  obtain ⟨names, new, hscope⟩ := h.scope
  obtain ⟨names', new', hscope'⟩ := h'.scope
  refine ⟨⟨names', new' ++ new, ?_⟩, h'.outer.trans h.outer, h'.isSound.trans h.isSound, ?_, ?_⟩
  · rw [hscope', hscope]
    simp only [List.append_assoc, List.reverse_append]
  · exact fun r hr => (h'.values r (by omega)).trans (h.values r hr)
  · exact fun r hr => (h'.bodies r (by omega)).trans (h.bodies r hr)

theorem mono (h : e.Extends e' n is) (hk : k ≤ n) : e.Extends e' k is :=
  ⟨h.scope, h.outer, h.isSound, fun r hr => h.values r (by omega),
    fun r hr => h.bodies r (by omega)⟩

theorem slots (h : e.Extends e' n is) : e'.current.slots = e.current.slots := by
  obtain ⟨names, new, hscope⟩ := h.scope
  rw [hscope]

theorem isEnded (h : e.Extends e' n is) : e'.current.isEnded = e.current.isEnded := by
  obtain ⟨names, new, hscope⟩ := h.scope
  rw [hscope]

theorem method (h : e.Extends e' n is) : e'.current.method? = e.current.method? := by
  obtain ⟨names, new, hscope⟩ := h.scope
  rw [hscope]

theorem arguments (h : e.Extends e' n is) : e'.current.arguments = e.current.arguments := by
  obtain ⟨names, new, hscope⟩ := h.scope
  rw [hscope]

theorem branches (h : e.Extends e' n is) : e'.current.branches = e.current.branches := by
  obtain ⟨names, new, hscope⟩ := h.scope
  rw [hscope]

theorem code (h : e.Extends e' n is) :
    e'.current.code = is.reverse ++ e.current.code := by
  obtain ⟨names, new, hscope⟩ := h.scope
  rw [hscope]

/-- What is visible stays visible. -/
theorem lookup (h : e.Extends e' n is) (hname : (e.current.visible.lookup name).isSome) :
    (e'.current.visible.lookup name).isSome := by
  obtain ⟨names, new, hscope⟩ := h.scope
  rw [hscope, List.lookup_append, Option.isSome_or, hname, Bool.or_true]

/-- What was known before a stretch is known after it. -/
theorem knows (h : e.Extends e' n is) (hr : r < n) (ho : e.Knows r o) : e'.Knows r o := by
  obtain ⟨p, hp, hop, hname⟩ := ho
  refine ⟨p, (h.values r hr).trans hp, hop, fun name hpn => ?_⟩
  obtain ⟨hmethod, hvisible⟩ := hname name hpn
  exact ⟨hmethod.trans h.method.symm, h.lookup hvisible⟩

end Extends

/-- An instruction is added, and nothing else changes. -/
theorem extends_add (e : Emission) (n : Nat) (i : Inst) : e.Extends (e.add i) n [i] :=
  ⟨⟨e.current.names, [], rfl⟩, rfl, rfl, fun _ _ => rfl, fun _ _ => rfl⟩

/-- Nothing but names is taken. -/
theorem exists_reserve_eq (e : Emission) (bases : List String) :
    ∃ names, e.reserve bases = { e with current := { e.current with names } } := ⟨_, rfl⟩

theorem extends_reserve (e : Emission) (n : Nat) (bases : List String) :
    e.Extends (e.reserve bases) n [] :=
  ⟨⟨_, [], rfl⟩, rfl, rfl, fun _ _ => rfl, fun _ _ => rfl⟩

/-- A constant is known from then on, and costs no instruction. -/
theorem extends_defineConstant (e : Emission) (n : Nat) (o : Operand) :
    e.Extends (e.defineConstant n o) n [] ∧ (e.defineConstant n o).Knows n o := by
  refine ⟨⟨⟨e.current.names, [], rfl⟩, rfl, rfl, fun r hr => ?_, fun _ _ => rfl⟩,
    ⟨o, none, none⟩, Table.get?_set_self _ _ _, rfl, nofun⟩
  exact (Table.get?_set _ _ _ _).trans (if_neg (by omega))

theorem define_eq (e : Emission) (n : Nat) (base : String) (o : Operand) :
    e.define n base o = { e with
      current := { e.current with
        names := (e.current.names.take base).2
        visible := ((e.current.names.take base).1, o) :: e.current.visible }
      values := e.values.set n ⟨o, some (e.current.names.take base).1, e.current.method?⟩ } := rfl

/-- A record that is defined is known from then on. -/
theorem extends_define (e : Emission) (n : Nat) (base : String) (o : Operand) :
    e.Extends (e.define n base o) n [] ∧ (e.define n base o).Knows n o := by
  rw [define_eq]
  refine ⟨⟨⟨_, [(_, o)], rfl⟩, rfl, rfl, fun r hr => ?_, fun _ _ => rfl⟩,
    _, Table.get?_set_self _ _ _, rfl, ?_⟩
  · exact (Table.get?_set _ _ _ _).trans (if_neg (by omega))
  · intro name hname
    obtain rfl := Option.some.inj hname
    exact ⟨rfl, by rw [List.lookup_cons_self]; rfl⟩

/-- Code is added, and a record stands for its result. -/
theorem extends_result (e : Emission) (n : Nat) (base : String) (i : Inst) (o : Operand) :
    e.Extends ((e.add i).define n base o) n [i] ∧ ((e.add i).define n base o).Knows n o := by
  obtain ⟨h, hknows⟩ := extends_define (e.add i) n base o
  exact ⟨(extends_add e n i).trans h (Nat.le_refl n), hknows⟩

/-- A block that has not ended is left for the next one. -/
theorem leaveBlock_eq (h : e.current.isEnded = false) : e.leaveBlock = .ok (e.reserve [""]) := by
  rw [leaveBlock, h]
  rfl

/-! ### Instructions without branches -/

/-- A constant has no code. -/
theorem emit_constant (ho : constant? i.op = some o)
    (h : d.emit e ⟨n, i, .literal, after⟩ = .ok e') : e.Extends e' n [] ∧ e'.Knows n o := by
  unfold constant? at ho
  unfold Declarations.emit at h
  -- The three literals: a word, a text and nil.
  split at ho
  · next hop =>
    obtain rfl := Option.some.inj ho
    simp only [hop] at h
    obtain rfl := Except.ok.inj h
    exact extends_defineConstant e n _
  · next hop =>
    obtain rfl := Option.some.inj ho
    simp only [hop] at h
    obtain rfl := Except.ok.inj h
    exact extends_define e n "" _
  · next hop =>
    obtain rfl := Option.some.inj ho
    simp only [hop] at h
    obtain rfl := Except.ok.inj h
    exact extends_defineConstant e n _
  · cases ho

/-- A slot that was found is the one of the local. -/
theorem slot_eq_ok {kind : Kind} (h : e.slot n i name = .ok kind) :
    e.current.slots.get? name = some kind := by
  unfold slot at h
  split at h
  · next hget => rw [hget, Except.ok.inj h]
  · cases h

/-- A local is read from its slot. -/
theorem emit_pushVar (hop : i.op = .pushVar name)
    (h : d.emit e ⟨n, i, .pushVar, after⟩ = .ok e') :
    ∃ kind, e.current.slots.get? name = some kind ∧ e.Extends e' n [.load n name] ∧
      e'.Knows n (.result n kind) := by
  simp only [Declarations.emit, hop] at h
  obtain ⟨kind, hslot, h⟩ := exists_of_bind_eq_ok h
  obtain rfl := Except.ok.inj h
  exact ⟨kind, slot_eq_ok hslot, extends_result e n name _ _⟩

/-- A local is written to its slot. -/
theorem emit_setVar {v : Nat} (hop : i.op = .setVar name) (hv : e.Knows v o)
    (h : d.emit e ⟨n, i, .setVar v, after⟩ = .ok e') :
    e.current.slots.get? name = some o.kind ∧ e.Extends e' n [.store name o] := by
  simp only [Declarations.emit, hop] at h
  obtain ⟨kind, hslot, h⟩ := exists_of_bind_eq_ok h
  -- The operand is found, so all that can be wrong is its kind.
  rw [hv.use] at h
  change (if o.kind = kind then _ else _) = _ at h
  split at h
  · next heq =>
    obtain rfl := Except.ok.inj h
    refine ⟨heq ▸ slot_eq_ok hslot, ?_⟩
    exact (extends_reserve e n [""]).trans (extends_add _ n _) (Nat.le_refl n)
  · cases h

/-- A parameter is an argument of the function. -/
theorem emit_pushArg {index method : Nat} (hop : i.op = .pushArg index)
    (hvisible : ∀ a ∈ e.current.arguments, (e.current.visible.lookup a.1).isSome)
    (h : d.emit e ⟨n, i, .pushArg method, after⟩ = .ok e') :
    ∃ name o, e.current.arguments[index]? = some (name, o) ∧ e.Extends e' n [] ∧ e'.Knows n o := by
  simp only [Declarations.emit, hop, elementAt?_natCast] at h
  split at h
  · next name o hat =>
    obtain rfl := Except.ok.inj h
    refine ⟨name, o, hat, ⟨⟨e.current.names, [], rfl⟩, rfl, rfl, fun r hr => ?_, fun _ _ => rfl⟩,
      _, Table.get?_set_self _ _ _, rfl, ?_⟩
    · exact (Table.get?_set _ _ _ _).trans (if_neg (by omega))
    -- The record goes by the name of the argument, which is visible from the start.
    · intro name' hname
      obtain rfl := Option.some.inj hname
      exact ⟨rfl, hvisible _ (List.mem_of_getElem? hat)⟩
  · cases h

/-- A message to nil is a call of the last method of that name. -/
theorem emit_call {count : Option Int} {args : List Nat} {os : List Operand}
    (hop : i.op = .send name count) (htype : d.type? r = some .nil)
    (hargs : List.Forall₂ e.Knows args os)
    (h : d.emit e ⟨n, i, .send r args, after⟩ = .ok e') :
    ∃ method s, d.methodNamed? name = some (method, s) ∧ requireArgs s.params os = .ok () ∧
      e.Extends e' n [.call n method os] ∧ e'.Knows n (.result n s.result) := by
  simp only [Declarations.emit, hop, Declarations.emitSend, htype, Declarations.emitCall] at h
  -- The method is known by its name, or the call is refused.
  split at h
  · cases h
  · next method s hm =>
    obtain ⟨⟨os', e''⟩, hall, h⟩ := exists_of_bind_eq_ok h
    obtain ⟨rfl, rfl⟩ := Prod.mk.inj (Except.ok.inj ((Knows.useAll hargs).symm.trans hall))
    obtain ⟨⟨⟩, hreq, h⟩ := exists_of_bind_eq_ok h
    obtain rfl := Except.ok.inj h
    exact ⟨method, s, hm, hreq, extends_result e n _ _ _⟩

/-- A message to an integer is an arithmetic instruction. -/
theorem emit_arith {count : Option Int} {args : List Nat} {os : List Operand}
    (hop : i.op = .send name count) (htype : d.type? r = some .int) (hr : e.Knows r o)
    (hkind : o.kind = .word) (hargs : List.Forall₂ e.Knows args os)
    (h : d.emit e ⟨n, i, .send r args, after⟩ = .ok e') :
    ∃ op o' os', os = o' :: os' ∧ Arith.named? name = some op ∧ o'.kind = .word ∧
      e.Extends e' n [.arith n op o o'] ∧ e'.Knows n (.result n .word) := by
  simp only [Declarations.emit, hop, Declarations.emitSend, htype] at h
  cases hargs with
  | nil => cases h
  | @cons arg o' args' os' harg _ =>
    simp only [Declarations.emitArith, hr.use, harg.use, bind, Except.bind] at h
    split at h
    · cases h
    · next hnamed =>
      -- The names of the parts of a division are taken before its own.
      unfold Declarations.emitDivision at h
      split at h
      · cases h
      · next hright =>
        rw [if_neg (by rw [hkind]; exact not_not_intro rfl)] at h
        obtain rfl := Except.ok.inj h
        obtain ⟨hextends, hknows⟩ := extends_result (e.reserve Declarations.divisionParts) n ""
          (.arith n .divide o o') (.result n .word)
        refine ⟨.divide, o', os', rfl, hnamed, not_not.mp hright, ?_, hknows⟩
        exact (extends_reserve e n Declarations.divisionParts).trans hextends (Nat.le_refl n)
    · next op _ hnamed =>
      split at h
      · next heq =>
        -- What is expected of the receiver holds of it, so no defect is noted.
        have hword : decide (o.kind = .word) = true := decide_eq_true hkind
        rw [hword, expect_true, hkind] at h
        obtain rfl := Except.ok.inj h
        exact ⟨op, o', os', rfl, hnamed, heq ▸ hkind, extends_result e n _ _ _⟩
      · cases h

/-- No other receiver is emitted. -/
theorem type_of_emit_send {count : Option Int} {args : List Nat} {t : Ty}
    (hop : i.op = .send name count) (htype : d.type? r = some t)
    (h : d.emit e ⟨n, i, .send r args, after⟩ = .ok e') : t = .nil ∨ t = .int := by
  simp only [Declarations.emit, hop, Declarations.emitSend, htype] at h
  cases t <;> first | exact .inl rfl | exact .inr rfl | cases h

/-! ### Methods -/

section

variable {method? : Option Nat} {kinds : List Kind} {slots : Table String Kind}

/-- What the arguments of a body are, by their numbers. -/
theorem start_arguments {a : String × Operand}
    (h : (Scope.start method? kinds slots).arguments[k]? = some a) :
    ∃ kind, kinds[k]? = some kind ∧ a.2 = .argument k kind := by
  obtain ⟨-, h⟩ := List.getElem?_zip_eq_some.mp h
  rw [List.getElem?_map, List.getElem?_zipIdx, Nat.zero_add] at h
  cases hk : kinds[k]? with
  | none => rw [hk] at h; cases h
  | some kind =>
    rw [hk] at h
    exact ⟨kind, rfl, (Option.some.inj h).symm⟩

/-- At the beginning of a body its arguments are visible. -/
theorem start_visible {a : String × Operand}
    (h : a ∈ (Scope.start method? kinds slots).arguments) :
    ((Scope.start method? kinds slots).visible.lookup a.1).isSome :=
  List.lookup_isSome_iff.mpr ⟨a, h, beq_self_eq_true a.1⟩

end

/-- A body is opened outside of all others. -/
theorem emit_defStart {owner : Option String} (hop : i.op = .defStart name)
    (h : d.emit e ⟨n, i, .defStart owner, after⟩ = .ok e') :
    e.outer = [] ∧ ∃ slots,
      slotsFrom (n + 1) 0 .empty (d.records.toList.drop (n + 1)) = .ok slots ∧
      e' = { e with
        current := .start (some n) (((d.signatures.get? n).map Signature.params).getD []) slots
        outer := [e.current] } := by
  simp only [Declarations.emit, hop, Declarations.openMethod] at h
  -- A method opens in the main body only.
  split at h
  · cases h
  · next houter =>
    obtain ⟨slots, hslots, h⟩ := exists_of_bind_eq_ok h
    obtain rfl := Except.ok.inj h
    exact ⟨houter, slots, hslots, rfl⟩

/-- A body ends with a value of its kind. -/
theorem finish_eq {type? : Option Ty} {v : Nat} {value : Operand}
    (hended : e.current.isEnded = false)
    (hbranches : e.current.branches = [])
    (hvalue : type? = some .nil ∧ value = .null ∨ type? ≠ some .nil ∧ e.Knows v value) :
    e.finish type? value.kind v =
      .ok (⟨e.current.slots, e.current.code.reverse, value⟩, e.reserve [""]) := by
  -- No conditional is open where a body ends.
  have hempty : (e.reserve [""]).current.branches.isEmpty = true := by
    rw [show (e.reserve [""]).current.branches = [] from hbranches]
    rfl
  rcases hvalue with ⟨rfl, rfl⟩ | ⟨ht, hv⟩
  · simp only [finish, if_true, bind, Except.bind, leaveBlock_eq hended, hempty, decide_true,
      Bool.and_self, expect_true]
    rfl
  · simp only [finish, if_neg ht, hv.use, bind, Except.bind, leaveBlock_eq hended, hempty,
      decide_true, Bool.and_self, expect_true]
    rfl

/-- A body is closed with its value, or with nil if that is its type. -/
theorem emit_defEnd {v : Nat} {s : Signature} {scope : Scope} {value : Operand}
    (hop : i.op = .defEnd name) (hs : d.signatures.get? k = some s)
    (hended : e.current.isEnded = false) (hbranches : e.current.branches = [])
    (houter : e.outer = [scope])
    (hvalue : d.type? k = some .nil ∧ value = .null ∨ d.type? k ≠ some .nil ∧ e.Knows v value)
    (hkind : value.kind = s.result) (h : d.emit e ⟨n, i, .defEnd k v, after⟩ = .ok e') :
    e' = { e with
      current := scope
      outer := []
      bodies := e.bodies.set k ⟨e.current.slots, e.current.code.reverse, value⟩ } := by
  simp only [Declarations.emit, hop, Declarations.closeMethod, hs, Option.map_some,
    Option.getD_some, ← hkind, finish_eq hended hbranches hvalue, bind, Except.bind] at h
  -- The main body is the one to go back to.
  rw [show (e.reserve [""]).outer = [scope] from houter] at h
  obtain rfl := Except.ok.inj h
  rfl

/-! ### Conditionals -/

/-- Behind the opener of a conditional. -/
def opened (e : Emission) (k : Nat) (taken : Bool) (names : Names) : Emission :=
  { e with current := { e.current with
    names
    code := []
    branches := ⟨k, taken, e.current.code, e.current.visible, none⟩ :: e.current.branches } }

/-- Between the branches of a conditional that was opened in a scope. -/
def halfway (e : Emission) (scope : Scope) (k : Nat) (taken : Bool) (first : List Inst)
    (value : Operand) (names : Names) : Emission :=
  { e with current := { scope with
    names
    code := []
    branches := ⟨k, taken, scope.code, scope.visible, some (first, value)⟩ :: scope.branches } }

section

variable {c v : Nat} {o' : Operand} {taken : Bool} {names : Names} {scope : Scope}

/-- A conditional opens a block for the branch its type tells. -/
theorem emit_ifStart {t : Ty} (hop : i.op = .ifStart) (htype : d.type? c = some t)
    (hended : e.current.isEnded = false) (h : d.emit e ⟨k, i, .ifStart c, after⟩ = .ok e') :
    ∃ names, e' = e.opened k (decide (t ≠ .nil)) names := by
  have htaken : decide (some t ≠ some Ty.nil) = decide (t ≠ .nil) :=
    decide_eq_decide.mpr (Option.some_inj.not)
  simp only [Declarations.emit, hop, Declarations.openBranch, htype] at h
  -- Names are set aside for the three blocks, and for the block that follows.
  obtain ⟨names₁, h₁⟩ := exists_reserve_eq e ["then", "else", "endif"]
  rw [htaken, h₁, leaveBlock_eq (by exact hended)] at h
  obtain ⟨names₂, h₂⟩ :=
    exists_reserve_eq { e with current := { e.current with names := names₁ } } [""]
  rw [h₂] at h
  obtain rfl := Except.ok.inj h
  exact ⟨names₂, rfl⟩

/-- The second branch opens where the first one ends. -/
theorem emit_ifElse (hop : i.op = .ifElse) (hended : e.current.isEnded = false)
    (hthen : (e.opened k taken names).Extends e' (k + 1) is) (hv : e'.Knows v o)
    (h : d.emit e' ⟨n, i, .ifElse k v, after⟩ = .ok e'') :
    ∃ names, e'' = e'.halfway e.current k taken is o names := by
  have hended' : e'.current.isEnded = false := hthen.isEnded.trans hended
  obtain ⟨names', new, hscope⟩ := hthen.scope
  -- The innermost conditional is the one that was opened, since what is nested in it is closed.
  have hbranches : (e'.reserve [""]).current.branches =
      ⟨k, taken, e.current.code, e.current.visible, none⟩ :: e.current.branches :=
    congrArg Scope.branches hscope
  simp only [Declarations.emit, hop, Declarations.nextBranch, hv.useUnkinded, bind, Except.bind,
    leaveBlock_eq hended'] at h
  rw [hbranches] at h
  simp only [ne_eq, not_true_eq_false, if_false, Option.isSome_none, Bool.false_eq_true] at h
  obtain rfl := Except.ok.inj h
  refine ⟨(e'.reserve [""]).current.names, ?_⟩
  simp only [halfway, opened, reserve, hscope, List.append_nil, List.reverse_reverse]

/-- **A conditional has the code of both its branches.** -/
theorem emit_ifEnd {kind : Kind} (hop : i.op = .ifEnd) (hended : scope.isEnded = false)
    (helse : (e.halfway scope k taken is o names).Extends e' n js) (hv : e'.Knows v o')
    (hkind : kindOf k (d.records.getD k default) = .ok kind) (ho : o.kind = kind)
    (ho' : o'.kind = kind) (h : d.emit e' ⟨r, i, .ifEnd k v, after⟩ = .ok e'') :
    ∃ names, e'' = ({ e' with current := { scope with
      names
      code := .branch k taken is o js o' :: scope.code } } : Emission).define k "if"
        (.result k kind) := by
  have hended' : e'.current.isEnded = false := helse.isEnded.trans hended
  obtain ⟨names', new, hscope⟩ := helse.scope
  -- The code of the first branch was put aside with the conditional.
  have hbranches : (e'.reserve [""]).current.branches =
      ⟨k, taken, scope.code, scope.visible, some (is, o)⟩ :: scope.branches :=
    congrArg Scope.branches hscope
  simp only [Declarations.emit, hop, Declarations.closeBranch, hv.useUnkinded, bind, Except.bind,
    leaveBlock_eq hended', hkind] at h
  rw [hbranches] at h
  simp only [ho, ho', decide_true, Bool.and_self, expect_true] at h
  obtain rfl := Except.ok.inj h
  refine ⟨(e'.reserve [""]).current.names, ?_⟩
  simp only [halfway, reserve, hscope, List.append_nil, List.reverse_reverse]

end

end Emission

end Rubylet.Native
