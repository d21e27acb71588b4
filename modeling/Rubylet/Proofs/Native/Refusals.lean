import Rubylet.Proofs.Graph.Order
import Rubylet.Proofs.Graph.Wired
import Rubylet.Proofs.Native.Agreement
import Rubylet.Proofs.Native.Prepared

/-!
# What native code is refused for

A program all of whose records have types is compiled to native code unless it uses something that
native code does not have: classes, definitions inside of definitions, or the operators of strings
(`Refuses`). Nothing else can go wrong.

At every instruction that the emission reaches, everything that the instruction needs is there
(`Supplied`). `EmittedTo.supplies` shows it by induction on where the parts of the program stand: the
parts in front of an instruction have been emitted, so what they leave is known in the body that is
being built. From this one point the rest follows: an instruction that is supplied is emitted or
refused (`Supplied.emit_cases`), so an emission that fails has met a refused record, and one that
meets none goes through (`fold_cases`).

* `native_refused_iff`: the compilation of a typed program fails if and only if one of its records is
  refused, and then at such a record.
-/

namespace Rubylet

namespace Replay

/-- All records that an instruction consumes. -/
def Event.consumed : Event → List Nat
  | .ifStart condition => [condition]
  | e => e.values

end Replay

namespace Native

open Replay

/-- Why native code is refused for a record. Whether the record can ever be reached makes no
difference. -/
inductive Refuses (records : List TypedRecord) (n : Nat) : BackendCause → Prop
  /-- It defines or reads a class. -/
  | classes {r c} : records[n]? = some r →
      r.instruction.op = .classStart c ∨ r.instruction.op = .pushConst c →
      Refuses records n .unsupportedClasses
  /-- It defines a method while the body of another definition is open. -/
  | nested {r name} : records[n]? = some r → r.instruction.op = .defStart name →
      (stateAt (records.map TypedRecord.instruction) n).defs ≠ [] →
      Refuses records n (.nestedMethod name)
  /-- It sends a message to a string. -/
  | operator {i name count receiver args} :
      Occurs (records.map TypedRecord.instruction) n i (.send receiver args) →
      i.op = .send name count → typeAt? records receiver = some .str →
      Refuses records n (.stringOperator name)

/-- Everything that an instruction needs is there when it is emitted. -/
structure Supplied (code : List Instruction) (d : Declarations) (e : Emission) (n : Nat)
    (i : Instruction) (event : Event) : Prop where
  /-- The body that is being built is that of the instruction's frame. -/
  method : e.current.method? = frameOf code n
  /-- The bodies around it are those of the definitions that are open. -/
  outer : e.outer.length = (stateAt code n).defs.length
  isEnded : e.current.isEnded = false
  /-- What is consumed has a value in this body, of the kind of its record. -/
  operand : ∀ r ∈ event.consumed, ∃ o, e.Knows r o ∧ d.kind? r = some o.kind
  /-- A local that is read or assigned has a slot, of the kind of the record. -/
  slot : ∀ name, i.op = .pushVar name ∨ i.op = .setVar name →
    ∃ kind, e.current.slots.get? name = some kind ∧ d.kind? n = some kind
  /-- An argument that is fetched is there. -/
  argument : ∀ k, i.op = .pushArg k → (elementAt? e.current.arguments k).isSome
  /-- A message to nil has a method of its name, for as many arguments of the same kinds. -/
  callee : ∀ name count r args, i.op = .send name count → event = .send r args →
    d.type? r = some .nil → ∃ method s, d.methodNamed? name = some (method, s) ∧
      List.Forall₂ (fun arg kind => d.kind? arg = some kind) args s.params
  /-- A message to an integer has an operator of its name, and one argument. -/
  operator : ∀ name count r args, i.op = .send name count → event = .send r args →
    d.type? r = some .int →
    ∃ op arg, Arith.named? name = some op ∧ args = [arg] ∧ d.kind? arg = some .word

section

variable {code : List Instruction} {g : Graph} {m : Machine} {statements : List Node}
  {d : Declarations} {state : Nat → Emission} {n n' k q : Nat} {is : List Inst}
  {left : List Nat} {os : List Operand} {i : Instruction} {event : Event}
  {records : List TypedRecord} {slots : Table String Kind} {frame : Option Nat} {r : Nat}

/-- What a part leaves and has not skipped is known. -/
theorem Stretch.known_of_mem (h : Stretch code m d state n n' is left os) (hr : r ∈ left)
    (hskip : ¬ Skipped code n' r) : ∃ o, (state n').Knows r o ∧ d.kind? r = some o.kind := by
  obtain ⟨k, hk, rfl⟩ := List.getElem_of_mem hr
  have hlen := h.operands.length_eq
  exact ⟨_, OperandFits.known (h.operands.get hk (hlen ▸ hk)) hskip⟩

/-- What holds of the body that the instructions of a frame are emitted into. -/
structure InBody (code : List Instruction) (d : Declarations) (state : Nat → Emission)
    (slots : Table String Kind) (frame : Option Nat) (n : Nat) : Prop extends
    InScope code d state slots frame n where
  method : (state n).current.method? = frame
  outer : (state n).outer.length = (stateAt code n).defs.length
  fits : SlotsFit code d frame slots
  covers : ∀ q name, Assigns code q name frame → (slots.get? name).isSome

/-- A stretch stays in the body it starts in. -/
theorem InBody.along (h : InBody code d state slots frame n)
    (hs : Stretch code m d state n n' is left os) : InBody code d state slots frame n' := by
  refine ⟨h.toInScope.along hs, hs.emission.method.trans h.method, ?_, h.fits, h.covers⟩
  rw [hs.emission.outer, h.outer, hs.replays.state_eq]

/-- **An instruction is supplied** if its operands are known in the body it belongs to. -/
theorem InBody.supplied (u : Emittable code g m statements d)
    (h : InBody code d state slots frame n)
    (ho : Occurs code n i event)
    (hoperand : ∀ r ∈ event.consumed, ∃ o, (state n).Knows r o ∧ d.kind? r = some o.kind)
    (hargument : ∀ k, i.op = .pushArg k → (elementAt? (state n).current.arguments k).isSome) :
    Supplied code d (state n) n i event := by
  have hfit : SlotsFit code d (frameOf code n) slots := h.frame_eq ▸ h.fits
  refine ⟨h.method.trans h.frame_eq.symm, h.outer, h.isEnded, hoperand, ?_, hargument, ?_, ?_⟩
  -- A local that is read or assigned has a slot, since its assignment was counted.
  · rintro name hop
    rw [h.slots_eq]
    rcases hop with hop | hop
    · obtain ⟨first, hfirst, -⟩ := u.checked.built.read_edge u.checked.roles ho hop
      obtain ⟨kind, hget⟩ := Option.isSome_iff_exists.mp (h.covers first name (h.frame_eq ▸ hfirst))
      exact ⟨kind, hget, u.kind_of_slot ho.1 hop hfit hget⟩
    · obtain ⟨kind, hget⟩ := Option.isSome_iff_exists.mp
        (h.covers n name ⟨⟨i, ho.1, hop⟩, h.frame_eq⟩)
      exact ⟨kind, hget, u.kind_of_assignment ho.1 hop hfit hget⟩
  · rintro name count r args hop rfl hr
    exact u.callee ho hop hr
  · rintro name count r args hop rfl hr
    exact u.operator ho hop hr

theorem length_takeAll (names : Names) (bases : List String) :
    (names.takeAll bases).1.length = bases.length := by
  induction bases generalizing names with
  | nil => rfl
  | cons base rest ih => exact congrArg (· + 1) (ih _)

/-- A body has an argument for every parameter. -/
theorem length_arguments (method? : Option Nat) (params : List Kind) (slots : Table String Kind) :
    (Scope.start method? params slots).arguments.length = params.length := by
  have hlen := length_takeAll Names.initial (params.map fun _ => "")
  rw [List.length_map] at hlen
  simp only [Scope.start, List.length_zip, List.length_map, List.length_zipIdx, hlen, Nat.min_self]

/-! ### Every instruction -/

namespace EmittedTo

variable (x : EmittedTo code g m statements d state q)

include x

/-- What parts leave is known to the instruction behind them. -/
theorem supplied_behind (hs : Stretch code m d state n q is left os)
    (hw : InBody code d state slots frame n) (ho : Occurs code q i event)
    (hleft : ∀ r ∈ event.consumed, r ∈ left)
    (hcondition : ∀ c, event = .ifStart c → ¬ Skipped code q c) (hop : ∀ k, i.op ≠ .pushArg k) :
    Supplied code d (state q) q i event := by
  refine (hw.along hs).supplied x.program ho (fun r hr => hs.known_of_mem (hleft r hr) ?_)
    fun k h => absurd h (hop k)
  -- The branch of a conditional may be skipped, so its condition is asked for separately.
  cases event with
  | ifStart c =>
    obtain rfl := List.mem_singleton.mp hr
    exact hcondition _ rfl
  | _ => exact ho.not_skipped x.replayed x.program.checked.roles hr

/-- What comes of a part in front of an instruction. -/
theorem stretch {p : Part} (h : Layout code m.Linked none p n k) (hk : k ≤ q)
    (hw : InBody code d state slots frame n) :
    ∃ is os left, Stretch code m d state n k is left os ∧ p.Leaves code k left ∧
      InBody code d state slots frame k := by
  obtain ⟨is, os, left, -, hs⟩ := x.emitted h rfl hk slots frame hw.toInScope hw.fits
  exact ⟨is, os, left, hs, hs.leaves x.replayed h, hw.along hs⟩

/-- What is pushed needs no operands. -/
theorem supplied_push (hw : InBody code d state slots frame q) (ho : Occurs code q i event)
    (hop : i.op = .pushNil ∨ (∃ v, i.op = .pushInt v) ∨ (∃ text, i.op = .pushStr text) ∨
      ∃ name, i.op = .pushVar name) : Supplied code d (state q) q i event := by
  -- The operations that push a value consume none.
  have hnone : event = .literal ∨ event = .pushVar := by
    rcases hop with hop | ⟨v, hop⟩ | ⟨text, hop⟩ | ⟨name, hop⟩
    · exact .inl (ho.literal (.inl hop)).1
    · exact .inl (ho.literal (.inr (.inl ⟨v, hop⟩))).1
    · exact .inl (ho.literal (.inr (.inr ⟨text, hop⟩))).1
    · exact .inr (ho.pushVar hop).1
  refine x.supplied_behind (.refl code m d state q) hw ho (fun r hr => ?_) (fun c h => ?_) ?_
  · rcases hnone with rfl | rfl <;> cases hr
  · subst h
    rcases hnone with h | h <;> cases h
  · rcases hop with hop | ⟨v, hop⟩ | ⟨text, hop⟩ | ⟨name, hop⟩ <;> simp [hop]

/-- What an instruction pops is what the part in front of it left last. -/
theorem supplied_pop {v v' : Nat} {rest : List Nat}
    (hs : Stretch code m d state n q is (v :: left) os) (hw : InBody code d state slots frame n)
    (ho : Occurs code q i event) (hstack : (stateAt code q).stack = v' :: rest)
    (hconsumed : event.consumed = [v']) (hskip : ¬ Skipped code q v)
    (hop : ∀ k, i.op ≠ .pushArg k) :
    Supplied code d (state q) q i event := by
  -- What the stretch left on top is what is consumed.
  obtain ⟨rfl, -⟩ := List.cons.inj (hs.replays.stack.symm.trans hstack)
  refine x.supplied_behind hs hw ho (fun r hr => ?_) (fun c h => ?_) hop
  · rw [hconsumed] at hr
    exact List.mem_cons.mpr (.inl (List.mem_singleton.mp hr))
  · subst h
    obtain rfl := List.singleton_inj.mp hconsumed
    exact hskip

section

variable {f : Instruction} {name : String} {s : Signature}

/-- The body of a definition begins in a frame of its own, all of whose locals have slots. -/
theorem within_method (hw : InBody code d state slots frame n) (hf : code[n]? = some f)
    (hop : f.op = .defStart name) (hn : n < q) (hs : d.signatures.get? n = some s) :
    ∃ slots', InBody code d state slots' (some n) (n + 1) ∧
      (state (n + 1)).current = .start (some n) s.params slots' := by
  obtain ⟨s', slots', hs', houter, hslots, hstate, hin, hfit⟩ := x.enters hf hop hn
  obtain rfl := Option.some.inj (hs.symm.trans hs')
  have hopeners : openers code (n + 1) = n :: openers code n := by rw [openers_succ hf, hop]
  -- The locals of the method are assigned behind its opening record.
  have hfrom : ∀ q name, Assigns code q name (some n) → n + 1 ≤ q := fun q name hq =>
    openers_lt q n (List.mem_of_mem_head? hq.2)
  refine ⟨slots', ⟨hin, by rw [hstate]; rfl, ?_, hfit, fun q name hq =>
    x.program.slots_cover hopeners hslots hfrom hq⟩, by rw [hstate]⟩
  obtain ⟨e, hocc⟩ := x.occurs hf
  have hdefs := hw.outer
  rw [houter] at hdefs
  rw [hstate, hocc.defs_succ, hop]
  exact congrArg (· + 1) hdefs

/-- The parameters of a method find its arguments. -/
theorem supplied_param {ps : List Param}
    (hw : InBody code d state slots (some n) (n + 1))
    (hstart : (state (n + 1)).current = .start (some n) s.params slots)
    (hf : code[n]? = some f) (hop : f.op = .defStart name) (hnum : Numbered ps)
    (hp : ParamsAt code (n + 1) ps) (hlen : s.params.length = ps.length)
    (hkinds : ∀ k < ps.length, d.kind? (n + 1 + 2 * k) = s.params[k]?)
    (hn : n < q) (hq : q < n + 1 + 2 * ps.length) (ho : Occurs code q i event) :
    Supplied code d (state q) q i event := by
  have hr := x.replayed
  -- A parameter is two instructions: one fetches the argument, the other one assigns it.
  obtain ⟨k, hk⟩ : ∃ k, q = n + 1 + 2 * k ∨ q = n + 1 + 2 * k + 1 :=
    ⟨(q - (n + 1)) / 2, by omega⟩
  obtain ⟨front, p, rest, rfl, rfl⟩ := exists_split (show k < ps.length by omega)
  obtain ⟨hfront, hbehind⟩ := hp.split
  obtain ⟨is, -, hs⟩ := x.params front hfront (by omega)
    (fun j p hj => by
      rw [Nat.zero_add]
      exact hnum j p (by rw [List.getElem?_append_left (List.getElem?_eq_some_iff.mp hj).1, hj]))
    (by rw [hstart]; exact fun k a => Emission.start_arguments)
    (by rw [hstart]; exact fun a => Emission.start_visible) hw.slots_eq
  obtain ⟨j, hj, hjop, -⟩ := pushArg_of_paramsAt hr hf hop hp hnum
  have harguments := hs.emission.arguments
  rw [hstart] at harguments
  rcases hk with rfl | rfl
  · obtain rfl := Option.some.inj (hj.symm.trans ho.1)
    obtain ⟨method, defs, -, rfl, -⟩ := ho.pushArg hjop
    refine (hw.along hs).supplied x.program ho nofun fun index hindex => ?_
    obtain rfl := Operation.pushArg.inj (hjop.symm.trans hindex)
    rw [elementAt?_natCast, harguments, List.getElem?_eq_getElem (by
      rw [length_arguments, hlen, List.length_append, List.length_cons]; omega)]
    rfl
  · obtain ⟨e, hocc⟩ := x.occurs hj
    obtain ⟨method, defs, -, rfl, -⟩ := hocc.pushArg hjop
    have hvisible : ∀ a ∈ (state (n + 1 + 2 * front.length)).current.arguments,
        ((state (n + 1 + 2 * front.length)).current.visible.lookup a.1).isSome := by
      rw [harguments]
      exact fun a ha => hs.emission.lookup (by rw [hstart]; exact Emission.start_visible ha)
    obtain ⟨other, o, hat, hx, hknows⟩ :=
      Emission.emit_pushArg hjop hvisible (x.step (Nat.lt_succ_self _) hocc)
    rw [harguments] at hat
    obtain ⟨kind, hkind, rfl⟩ := Emission.start_arguments hat
    have hpushed : Replays code (n + 1) (n + 1 + 2 * front.length + 1)
        ([n + 1 + 2 * front.length] ++ []) :=
      hs.replays.trans (.push hr hj (by rw [hjop]; exact fun _ _ => rfl)
        (by rw [openers_succ hj, hjop]) (by simp [hjop])) hs.le
    have hs' : Stretch code m d state (n + 1) (n + 1 + 2 * front.length + 1) _ _
        [.argument front.length kind] :=
      hs.snoc hj (by simp [hjop]) hx hpushed
        (.cons (.inr ⟨not_skipped_succ hr, hknows, by rw [hkinds _ (by omega), hkind]; rfl⟩) .nil)
    have hset := hbehind.tail.head
    obtain rfl := Option.some.inj (hset.symm.trans ho.1)
    obtain ⟨v, below, hstack, rfl, -⟩ := ho.setVar rfl
    exact x.supplied_pop hs' hw ho hstack rfl (not_skipped_succ hr) (by simp)

end

/-! ### The parts one by one -/

/-- An instruction is supplied wherever a stretch of the code that it stands in begins in a body. -/
def Supplies (code : List Instruction) (d : Declarations) (state : Nat → Emission) (q : Nat)
    (i : Instruction) (event : Event) (n n' : Nat) : Prop :=
  n ≤ q → q < n' → ∀ {slots : Table String Kind} {frame : Option Nat},
    InBody code d state slots frame n → Supplied code d (state q) q i event

section

variable {pos : Pos} {name : String} {p : Part}

/-- A leaf is supplied where it stands. -/
theorem supplies_leaf {y : Node} {j : Instruction} (hy : y.leaf? = some j)
    (hj : code[n]? = some j) (ho : Occurs code q i event) :
    Supplies code d state q i event n (n + 1) := by
  intro hn hq slots frame hw
  obtain rfl : q = n := by omega
  obtain rfl := Option.some.inj (hj.symm.trans ho.1)
  -- There is no constant, as there is no class.
  cases y with
  | constant pos name =>
    obtain rfl := Option.some.inj hy
    exact absurd rfl (x.program.classless _ (List.mem_of_getElem? hj) name).2
  | localRead | integer | text | nil =>
    obtain rfl := Option.some.inj hy
    exact x.supplied_push hw ho (by simp)
  | _ => cases hy

/-- A part goes on in the body that it began in. -/
theorem supplies_append (hp : Layout code m.Linked none p n k)
    (h : Supplies code d state q i event n k) (h' : Supplies code d state q i event k n') :
    Supplies code d state q i event n n' := by
  intro hn hq slots frame hw
  rcases Nat.lt_or_ge q k with hlt | hge
  · exact h hn hlt hw
  · obtain ⟨is, os, left, -, -, hw'⟩ := x.stretch hp hge hw
    exact h' hge hq hw'

/-- A message finds the receiver and the arguments that the parts in front of it leave. -/
theorem supplies_call {j : Nat} {receiver : Option Node} {args : List Node}
    (hreceiver : Layout code m.Linked none (.receiver pos receiver) n k)
    (hargs : Layout code m.Linked none (.exprs args) k j)
    (hj : code[j]? = some ⟨.send name (some args.length), ⟨.call, pos⟩⟩)
    (ihr : Supplies code d state q i event n k) (ihargs : Supplies code d state q i event k j)
    (ho : Occurs code q i event) : Supplies code d state q i event n (j + 1) := by
  intro hn hq slots frame hw
  rcases Nat.lt_or_ge q j with hlt | hge
  · exact x.supplies_append hreceiver ihr ihargs hn hlt hw
  have hr := x.replayed
  obtain rfl : q = j := by omega
  obtain rfl := Option.some.inj (hj.symm.trans ho.1)
  obtain ⟨is₁, os₁, left₁, hs₁, hleaves₁, hw₁⟩ := x.stretch hreceiver hargs.le hw
  obtain ⟨is₂, os₂, left₂, hs₂, hleaves₂, -⟩ := x.stretch hargs (Nat.le_refl _) hw₁
  obtain ⟨v, rfl, -⟩ := hleaves₁
  have hall := hs₁.trans hr hs₂
  -- The stack is what the parts left, so the message takes just these operands.
  obtain ⟨r, values, rest, hstack, hcount, rfl, -⟩ := ho.send rfl
  have hleft := hall.replays.stack.symm.trans hstack
  rw [List.append_assoc] at hleft
  obtain ⟨rfl, hrest⟩ := List.append_inj hleft (by
    rw [List.length_reverse, hcount, hleaves₂.1]; rfl)
  obtain ⟨rfl, -⟩ := List.cons.inj hrest
  refine x.supplied_behind hall hw ho (fun r hr => ?_) nofun (by simp)
  rcases List.mem_cons.mp hr with rfl | hr
  · simp
  · simp [hr]

/-- A branch finds its condition, and either end of it the value of the body in front. -/
theorem supplies_conditional {condition : Node} {thenBody elseBody : Option Node} {j l : Nat}
    (hc : Layout code m.Linked none (.expr condition) n k)
    (hk : code[k]? = some ⟨.ifStart, ⟨.conditional, pos⟩⟩)
    (ht : Layout code m.Linked none (.body ⟨.conditional, pos⟩ thenBody) (k + 1) j)
    (hj : code[j]? = some ⟨.ifElse, ⟨.conditional, pos⟩⟩)
    (hf : Layout code m.Linked none (.body ⟨.conditional, pos⟩ elseBody) (j + 1) l)
    (hl : code[l]? = some ⟨.ifEnd, ⟨.conditional, pos⟩⟩)
    (ihc : Supplies code d state q i event n k)
    (iht : Supplies code d state q i event (k + 1) j)
    (ihf : Supplies code d state q i event (j + 1) l)
    (ho : Occurs code q i event) : Supplies code d state q i event n (l + 1) := by
  intro hn hq slots frame hw
  rcases Nat.lt_or_ge q k with hlt | hge
  · exact ihc hn hlt hw
  obtain ⟨is₁, os₁, left₁, hs₁, hleaves₁, hw₁⟩ := x.stretch hc hge hw
  obtain ⟨c, rfl, hskip⟩ := hleaves₁
  rcases Nat.lt_or_eq_of_le hge with hlt | rfl
  swap
  · obtain rfl := Option.some.inj (hk.symm.trans ho.1)
    obtain ⟨c', rest, hstack, rfl, -⟩ := ho.ifStart rfl
    exact x.supplied_pop hs₁ hw ho hstack rfl hskip (by simp)
  -- A branch opens no frame, so both of its bodies belong to the one around it.
  obtain ⟨t, names, -, heq, hin, hstate⟩ := x.opens hs₁ hk rfl hlt hw₁.toInScope
  have hw₂ : InBody code d state slots frame (k + 1) :=
    ⟨hin, by rw [heq]; exact hw₁.method, by rw [heq, hstate]; exact hw₁.outer, hw.fits, hw.covers⟩
  rcases Nat.lt_or_ge q j with hlt' | hge'
  · exact iht hlt hlt' hw₂
  obtain ⟨is₂, os₂, left₂, hs₂, hleaves₂, hw₃⟩ := x.stretch ht hge' hw₂
  obtain ⟨v, rest, front, o, rfl, rfl, hknows, -⟩ := hs₂.known_last hleaves₂
  obtain ⟨v', rest', heq', hskip'⟩ := hleaves₂
  obtain ⟨rfl, rfl⟩ := List.cons.inj heq'
  rcases Nat.lt_or_eq_of_le hge' with hlt' | rfl
  swap
  · obtain rfl := Option.some.inj (hj.symm.trans ho.1)
    obtain ⟨opened, ifs, w, rest', -, hstack, rfl, -⟩ := ho.ifElse rfl
    exact x.supplied_pop hs₂ hw₂ ho hstack rfl hskip' (by simp)
  have hifs := congrArg Replay.State.ifs hstate
  obtain ⟨names', heq', hin', -⟩ := x.turns heq hifs hs₂ hknows hj rfl hlt' hin
  obtain ⟨e₂, ho₂⟩ := x.occurs hj
  have hdefs := ho₂.defs_succ
  have hw₄ : InBody code d state slots frame (j + 1) :=
    ⟨hin', by rw [heq']; exact hw₁.method, by rw [heq', hdefs]; exact hw₃.outer, hw.fits,
      hw.covers⟩
  rcases Nat.lt_or_ge q l with hlt'' | hge''
  · exact ihf hlt' hlt'' hw₄
  obtain rfl : q = l := by omega
  obtain ⟨is₃, os₃, left₃, hs₃, hleaves₃, -⟩ := x.stretch hf (Nat.le_refl _) hw₄
  obtain ⟨u, rest₃, rfl, hskip₃⟩ := hleaves₃
  obtain rfl := Option.some.inj (hl.symm.trans ho.1)
  obtain ⟨opened, ifs, w, rest', -, hstack, rfl, -⟩ := ho.ifEnd rfl
  exact x.supplied_pop hs₃ hw₄ ho hstack rfl hskip₃ (by simp)

/-- An assignment is supplied by its value. -/
theorem supplies_assign {value : Node} (hv : Layout code m.Linked none (.expr value) n k)
    (hk : code[k]? = some ⟨.setVar name, ⟨.assignment, pos⟩⟩)
    (ih : Supplies code d state q i event n k) (ho : Occurs code q i event) :
    Supplies code d state q i event n (k + 1) := by
  intro hn hq slots frame hw
  -- The record stands in the value, or is the assignment itself.
  rcases Nat.lt_or_ge q k with hlt | hge
  · exact ih hn hlt hw
  obtain rfl : q = k := by omega
  obtain ⟨is, os, left, hs, hleaves, -⟩ := x.stretch hv (Nat.le_refl _) hw
  obtain ⟨v, rfl, hskip⟩ := hleaves
  obtain rfl := Option.some.inj (hk.symm.trans ho.1)
  obtain ⟨v', rest, hstack, rfl, -⟩ := ho.setVar rfl
  exact x.supplied_pop hs hw ho hstack rfl hskip (by simp)

/-- A definition opens a body of its own: its parameters find the arguments there, and its end the
value. -/
theorem supplies_method {params : List Param} {body : Option Node} {j : Nat}
    (hs : code[n]? = some ⟨.defStart name, ⟨.methodDef, pos⟩⟩) (hnum : Numbered params)
    (hp : ParamsAt code (n + 1) params)
    (hb : Layout code m.Linked none (.body ⟨.methodDef, pos⟩ body) (n + 1 + 2 * params.length) j)
    (he : code[j]? = some ⟨.defEnd name, ⟨.methodDef, pos⟩⟩)
    (ih : Supplies code d state q i event (n + 1 + 2 * params.length) j)
    (ho : Occurs code q i event) : Supplies code d state q i event n (j + 1) := by
  intro hn hq slots frame hw
  rcases Nat.lt_or_eq_of_le hn with hlt | rfl
  swap
  · obtain rfl := Option.some.inj (hs.symm.trans ho.1)
    obtain ⟨rfl, -⟩ := ho.defStart rfl
    exact x.supplied_behind (.refl code m d state n) hw ho nofun nofun (by simp)
  obtain ⟨s, hsig, -⟩ := x.program.signature_of_definition hs rfl
  obtain ⟨hlen, hkinds⟩ := x.program.params_of_signature hs rfl hp hb he rfl hsig
  obtain ⟨slots', hw', hstart⟩ := x.within_method hw hs rfl hlt hsig
  -- The parameters, the body and the end of the definition are all in the new body.
  rcases Nat.lt_or_ge q (n + 1 + 2 * params.length) with hparam | hge
  · exact x.supplied_param hw' hstart hs rfl hnum hp hlen hkinds hlt hparam ho
  obtain ⟨is, -, hparams⟩ := x.params params hp hge
    (fun k p hk => by rw [Nat.zero_add]; exact hnum k p hk)
    (by rw [hstart]; exact fun k a => Emission.start_arguments)
    (by rw [hstart]; exact fun a => Emission.start_visible) hw'.slots_eq
  have hbody := hw'.along hparams
  rcases Nat.lt_or_ge q j with hlt' | hge'
  · exact ih hge hlt' hbody
  obtain rfl : q = j := by omega
  obtain ⟨is', os', left', hs', hleaves, -⟩ := x.stretch hb (Nat.le_refl _) hbody
  obtain ⟨v, rest, rfl, hskip⟩ := hleaves
  obtain rfl := Option.some.inj (he.symm.trans ho.1)
  obtain ⟨method, defs, v', rest', -, hstack, rfl, -⟩ := ho.defEnd rfl
  exact x.supplied_pop hs' hbody ho hstack rfl hskip (by simp)

/-- A body that is closed is supplied by its statements. -/
theorem supplies_closed {xs : List Node} {closer : Instruction}
    (hxs : Layout code m.Linked none (.statements xs) n k)
    (hc : Lowering.closingLast xs = [closer]) (hk : code[k]? = some closer)
    (ih : Supplies code d state q i event n k) (ho : Occurs code q i event) :
    Supplies code d state q i event n (k + 1) := by
  refine x.supplies_append hxs ih fun hn hq slots frame hw => ?_
  obtain rfl : q = k := by omega
  obtain rfl := Option.some.inj (hk.symm.trans ho.1)
  rcases op_of_closingLast hc with hop | ⟨name, hop⟩
  · exact x.supplied_push hw ho (.inl hop)
  · exact x.supplied_push hw ho (.inr (.inr (.inr ⟨name, hop⟩)))

end

/-- **Every instruction is supplied**, in whatever part of the program it stands. -/
theorem supplies {p : Part} {inside : Option String} (h : Layout code m.Linked inside p n n')
    (hinside : inside = none) (ho : Occurs code q i event) :
    Supplies code d state q i event n n' := by
  -- On the layout: the record is in one of the parts, or is the marker between them.
  induction h with
  | leaf hy hj => exact x.supplies_leaf hy hj ho
  | call hreceiver hargs hj ihr ihargs =>
    subst hinside
    exact x.supplies_call hreceiver hargs hj (ihr rfl) (ihargs rfl) ho
  | conditional hc hk ht hj hf hl _ _ ihc iht ihf =>
    subst hinside
    exact x.supplies_conditional hc hk ht hj hf hl (ihc rfl) (iht rfl) (ihf rfl) ho
  | absent hj | missing hj | empty hj =>
    intro hn hq slots frame hw
    obtain rfl : q = _ := Nat.le_antisymm (Nat.le_of_lt_succ hq) hn
    obtain rfl := Option.some.inj (hj.symm.trans ho.1)
    exact x.supplied_push hw ho (.inl rfl)
  | present _ ih | expression _ ih | left _ _ _ ih => exact ih hinside
  | noExprs | noStatements => exact fun hn hq => absurd hq (Nat.not_lt.mpr hn)
  | moreExprs hy _ ihy ihys | moreStatements hy _ ihy ihys =>
    subst hinside
    exact x.supplies_append hy (ihy rfl) (ihys rfl)
  | assign hv hk ih =>
    subst hinside
    exact x.supplies_assign hv hk (ih rfl) ho
  | methodDef hs hnum hp hb he _ ih =>
    subst hinside
    exact x.supplies_method hs hnum hp hb he (ih rfl) ho
  | classDef hs => exact absurd rfl (x.program.classless _ (List.mem_of_getElem? hs) _).1
  | closed hys hc hk ih =>
    subst hinside
    exact x.supplies_closed hys hc hk (ih rfl) ho

end EmittedTo

/-! ### One instruction -/

theorem requireArgs_eq_ok {kinds : List Kind} {os : List Operand}
    (h : List.Forall₂ (fun o kind => Operand.kind o = kind) os kinds) :
    requireArgs kinds os = .ok () := by
  induction h with
  | nil => rfl
  | cons ho _ ih => rw [requireArgs, if_pos ho, ih]

section

variable {e : Emission} {after : Replay.State} {name : String} {count : Option Int}
  {args : List Nat}

/-- The operands of a call, of the kinds that its method asks for. -/
theorem operands_of_kinds {kinds : List Kind}
    (hkinds : List.Forall₂ (fun arg kind => d.kind? arg = some kind) args kinds)
    (hargs : ∀ r ∈ args, ∃ o, e.Knows r o ∧ d.kind? r = some o.kind) :
    ∃ os, List.Forall₂ e.Knows args os ∧
      List.Forall₂ (fun o kind => Operand.kind o = kind) os kinds := by
  induction hkinds with
  | nil => exact ⟨[], .nil, .nil⟩
  | cons hkind _ ih =>
    obtain ⟨os, hknows, hfit⟩ := ih fun r hr => hargs r (.tail _ hr)
    obtain ⟨o, ho, ho'⟩ := hargs _ (.head _)
    exact ⟨o :: os, .cons ho hknows, .cons (Option.some.inj (ho'.symm.trans hkind)) hfit⟩

/-- A body can be ended with what is known in it, or with nil. -/
theorem exists_finish {v : Nat} (type? : Option Ty) (kind : Kind)
    (hended : e.current.isEnded = false) (hv : type? = some .nil ∨ ∃ o, e.Knows v o) :
    ∃ ended, e.finish type? kind v = .ok ended := by
  by_cases hnil : type? = some .nil
  · simp only [Emission.finish, hnil, if_true, bind, Except.bind, Emission.leaveBlock_eq hended]
    exact ⟨_, rfl⟩
  · obtain ⟨o, ho⟩ := hv.resolve_left hnil
    simp only [Emission.finish, hnil, if_false, ho.use, bind, Except.bind,
      Emission.leaveBlock_eq hended]
    exact ⟨_, rfl⟩

namespace Supplied

variable (h : Supplied code d e n i event)

include h

/-- A value is assigned that has the kind of the local. -/
theorem exists_setVar {v : Nat} (hop : i.op = .setVar name) (hev : event = .setVar v)
    (hkind : d.kind? v = d.kind? n) : ∃ e', d.emit e ⟨n, i, event, after⟩ = .ok e' := by
  obtain ⟨kind, hget, hk⟩ := h.slot name (.inr hop)
  obtain ⟨o, ho, ho'⟩ := h.operand v (by rw [hev]; exact .head _)
  have heq : o.kind = kind := by rw [hkind, hk] at ho'; exact (Option.some.inj ho').symm
  subst hev
  simp only [Declarations.emit, hop, Emission.slot, hget, bind, Except.bind, ho.use, if_pos heq]
  exact ⟨_, rfl⟩

theorem exists_pushVar (hop : i.op = .pushVar name) (hev : event = .pushVar) :
    ∃ e', d.emit e ⟨n, i, event, after⟩ = .ok e' := by
  obtain ⟨kind, hget, -⟩ := h.slot name (.inl hop)
  subst hev
  simp only [Declarations.emit, hop, Emission.slot, hget, bind, Except.bind]
  exact ⟨_, rfl⟩

/-- A parameter is emitted from the arguments of its method. -/
theorem exists_pushArg {index : Int} {method : Nat} (hop : i.op = .pushArg index)
    (hev : event = .pushArg method) : ∃ e', d.emit e ⟨n, i, event, after⟩ = .ok e' := by
  obtain ⟨⟨name, o⟩, hat⟩ := Option.isSome_iff_exists.mp (h.argument index hop)
  subst hev
  simp only [Declarations.emit, hop, hat]
  exact ⟨_, rfl⟩

/-- A message to nil is a call. -/
theorem exists_call (hop : i.op = .send name count) (hev : event = .send r args)
    (hr : d.type? r = some .nil) : ∃ e', d.emit e ⟨n, i, event, after⟩ = .ok e' := by
  obtain ⟨method, s, hnamed, hkinds⟩ := h.callee name count r args hop hev hr
  obtain ⟨os, hknows, hfit⟩ := operands_of_kinds hkinds fun a ha =>
    h.operand a (by rw [hev]; exact .tail _ ha)
  subst hev
  simp only [Declarations.emit, hop, Declarations.emitSend, hr, Declarations.emitCall, hnamed, bind,
    Except.bind, Emission.Knows.useAll hknows, requireArgs_eq_ok hfit]
  exact ⟨_, rfl⟩

/-- A message to an integer is arithmetic. -/
theorem exists_arith (hop : i.op = .send name count) (hev : event = .send r args)
    (hr : d.type? r = some .int) : ∃ e', d.emit e ⟨n, i, event, after⟩ = .ok e' := by
  obtain ⟨op, arg, hnamed, rfl, hword⟩ := h.operator name count r args hop hev hr
  -- Both operands are known and are words, so no check fails.
  obtain ⟨left, hleft, hleft'⟩ := h.operand r (by rw [hev]; exact .head _)
  obtain ⟨right, hright, hright'⟩ := h.operand arg (by rw [hev]; exact .tail _ (.head _))
  rw [Declarations.kind?, hr] at hleft'
  have hl : left.kind = .word := (Option.some.inj hleft').symm
  have hri : right.kind = .word := Option.some.inj (hright'.symm.trans hword)
  subst hev
  simp only [Declarations.emit, hop, Declarations.emitSend, hr, Declarations.emitArith, bind,
    Except.bind, hleft.use, hright.use, hnamed]
  cases op with
  | divide =>
    simp only [Declarations.emitDivision, hri, hl, ne_eq, not_true_eq_false, if_false]
    exact ⟨_, rfl⟩
  | _ =>
    simp only [hl, hri, if_true]
    exact ⟨_, rfl⟩

theorem leaveBlock_eq_ok (bases : List String) :
    ∃ e', (e.reserve bases).leaveBlock = .ok e' :=
  ⟨_, Emission.leaveBlock_eq (show (e.reserve bases).current.isEnded = false from h.isEnded)⟩

/-- A body is closed with its value. -/
theorem exists_defEnd {method v : Nat} (hop : i.op = .defEnd name)
    (hev : event = .defEnd method v) :
    ∃ e', d.emit e ⟨n, i, event, after⟩ = .ok e' := by
  obtain ⟨o, ho, -⟩ := h.operand v (by rw [hev]; exact .head _)
  subst hev
  obtain ⟨⟨body, e'⟩, he'⟩ := exists_finish (d.type? method)
    (((d.signatures.get? method).map Signature.result).getD .pointer) h.isEnded (.inr ⟨o, ho⟩)
  simp only [Declarations.emit, hop, Declarations.closeMethod, he', bind, Except.bind]
  cases e'.outer <;> exact ⟨_, rfl⟩

/-- A conditional is emitted by the type of its condition. -/
theorem exists_ifStart {condition : Nat} (hop : i.op = .ifStart)
    (hev : event = .ifStart condition) :
    ∃ e', d.emit e ⟨n, i, event, after⟩ = .ok e' := by
  obtain ⟨e', he'⟩ := h.leaveBlock_eq_ok ["then", "else", "endif"]
  subst hev
  simp only [Declarations.emit, hop, Declarations.openBranch, bind, Except.bind, he']
  exact ⟨_, rfl⟩

theorem exists_ifElse {opened v : Nat} (hop : i.op = .ifElse) (hev : event = .ifElse opened v) :
    ∃ e', d.emit e ⟨n, i, event, after⟩ = .ok e' := by
  obtain ⟨o, ho, -⟩ := h.operand v (by rw [hev]; exact .head _)
  subst hev
  simp only [Declarations.emit, hop, Declarations.nextBranch, bind, Except.bind, ho.useUnkinded,
    Emission.leaveBlock_eq h.isEnded]
  split
  · split
    · exact ⟨_, rfl⟩
    · split <;> exact ⟨_, rfl⟩
  · exact ⟨_, rfl⟩

theorem exists_ifEnd {opened v : Nat} {kind : Kind} (hop : i.op = .ifEnd)
    (hev : event = .ifEnd opened v) (hkind : d.kind? opened = some kind) :
    ∃ e', d.emit e ⟨n, i, event, after⟩ = .ok e' := by
  obtain ⟨o, ho, -⟩ := h.operand v (by rw [hev]; exact .head _)
  subst hev
  simp only [Declarations.emit, hop, Declarations.closeBranch, bind, Except.bind, ho.useUnkinded,
    Emission.leaveBlock_eq h.isEnded, Declarations.kindOf_of_kind? hkind]
  exact ⟨_, rfl⟩

/-- **An instruction that is supplied is emitted**, unless it is one that native code is refused
for. -/
theorem emit_cases (u : Emittable code g m statements d) (ho : Occurs code n i event)
    (after : State) :
    (∃ e', d.emit e ⟨n, i, event, after⟩ = .ok e') ∨
      ∃ cause, Refuses d.records.toList n cause ∧
        d.emit e ⟨n, i, event, after⟩ = .error (.failedAt n i cause) := by
  have hi := List.mem_of_getElem? ho.1
  have hcode := u.instructions
  have hrecord : ∃ record, d.records.toList[n]? = some record ∧ record.instruction = i := by
    have hn := ho.1
    rw [← hcode, List.getElem?_map] at hn
    exact Option.map_eq_some_iff.mp hn
  -- By operation: each one is emitted when supplied, but for an operator on texts and a nested
  -- method.
  cases hop : i.op with
  | pushNil | pushInt value | pushStr text =>
    obtain ⟨rfl, -⟩ := ho.literal (by simp [hop])
    simp only [Declarations.emit, hop]
    exact .inl ⟨_, rfl⟩
  | pushConst c => exact absurd hop (u.classless i hi c).2
  | classStart c => exact absurd hop (u.classless i hi c).1
  | classEnd c => exact absurd hop (u.not_classEnd ho.1 c)
  | unknown opcode operand => exact absurd hop ho.ne_unknown
  | pushVar name =>
    obtain ⟨rfl, -⟩ := ho.pushVar hop
    exact .inl (h.exists_pushVar hop rfl)
  | setVar name =>
    obtain ⟨v, rest, -, rfl, -⟩ := ho.setVar hop
    exact .inl (h.exists_setVar hop rfl (u.kind_of_assigned ho))
  | pushArg index =>
    obtain ⟨method, defs, -, rfl, -⟩ := ho.pushArg hop
    exact .inl (h.exists_pushArg hop rfl)
  | send name count =>
    obtain ⟨r, args, rest, hstack, -, rfl, -⟩ := ho.send hop
    have hlt : r < code.length := by
      have := stack_lt u.replayed (n := n) (r := r) (by rw [hstack]; simp)
      exact Nat.lt_trans this ho.lt
    obtain ⟨t, ht⟩ := u.checked.typed r hlt
    obtain ⟨kind, hkind⟩ := ht.exists_kind u.checked.built u.classless
    have htype := u.types ht
    -- The receiver decides: nil calls, a number computes, a text is refused.
    cases t with
    | nil => exact .inl (h.exists_call hop rfl htype)
    | int => exact .inl (h.exists_arith hop rfl htype)
    | str =>
      refine .inr ⟨.stringOperator name, .operator (hcode ▸ ho) hop ?_, ?_⟩
      · rw [typeAt?, Array.getElem?_toList]
        exact htype
      · simp only [Declarations.emit, hop, Declarations.emitSend, htype]
    | _ => cases hkind
  | defStart name =>
    obtain ⟨rfl, -⟩ := ho.defStart hop
    have houter := h.outer
    simp only [Declarations.emit, hop, Declarations.openMethod]
    -- A method opens in the main body, or within another one and is refused.
    cases hbodies : e.outer with
    | nil =>
      obtain ⟨slots, hslots⟩ := u.exists_slots (n + 1)
      simp only [hslots, bind, Except.bind]
      exact .inl ⟨_, rfl⟩
    | cons scope outer =>
      obtain ⟨record, hrecord, rfl⟩ := hrecord
      refine .inr ⟨.nestedMethod name, .nested hrecord hop ?_, rfl⟩
      rw [hcode]
      rintro hnil
      rw [hbodies, hnil] at houter
      cases houter
  | defEnd name =>
    obtain ⟨method, defs, v, rest, -, -, rfl, -⟩ := ho.defEnd hop
    exact .inl (h.exists_defEnd hop rfl)
  | ifStart =>
    obtain ⟨condition, rest, -, rfl, -⟩ := ho.ifStart hop
    exact .inl (h.exists_ifStart hop rfl)
  | ifElse =>
    obtain ⟨o, ifs, v, rest, -, -, rfl, -⟩ := ho.ifElse hop
    exact .inl (h.exists_ifElse hop rfl)
  | ifEnd =>
    obtain ⟨o, ifs, v, rest, hifs, -, rfl, -⟩ := ho.ifEnd hop
    have hopened := ((u.checked.built.opened (Nat.le_of_lt ho.lt)).ifs o (hifs ▸ .head _)).1
    obtain ⟨kind, hkind⟩ := u.exists_kind (Nat.lt_trans hopened ho.lt)
    exact .inl (h.exists_ifEnd hop rfl hkind)

end Supplied

end

/-! ### Programs -/

/-- Classes are refused, wherever the first one is. -/
theorem refuseClasses_cases : ∀ (rs : List TypedRecord) (n : Nat), refuseClasses n rs = .ok () ∨
    ∃ k r c, rs[k]? = some r ∧
      (r.instruction.op = .classStart c ∨ r.instruction.op = .pushConst c) ∧
      refuseClasses n rs = .error (.failedAt (n + k) r.instruction .unsupportedClasses) := by
  intro rs
  induction rs with
  | nil => exact fun n => .inl rfl
  | cons r rest ih =>
    intro n
    rw [refuseClasses]
    split
    · next c hop => exact .inr ⟨0, r, c, rfl, .inl hop, rfl⟩
    · next c hop => exact .inr ⟨0, r, c, rfl, .inr hop, rfl⟩
    -- The first record that mentions a class may come later.
    · rcases ih (n + 1) with hok | ⟨k, r', c, hr', hop, herror⟩
      · exact .inl hok
      · exact .inr ⟨k + 1, r', c, hr', hop, by rw [herror, Nat.add_right_comm, Nat.add_assoc]⟩

/-- The emission up to a point that it reaches. -/
theorem emittedTo_of_fold {e : Emission} (u : Emittable code g m statements d)
    (h : fold d.emit (.initial slots) ((trace code).steps.take q) = (e, none)) :
    EmittedTo code g m statements d (foldAt d.emit (.initial slots) (trace code).steps) q := by
  -- Up to the record in question the shorter fold does what the whole one does.
  have short : ∀ {n}, n ≤ q → foldAt d.emit (.initial slots) ((trace code).steps.take q) n =
      foldAt d.emit (.initial slots) (trace code).steps n := by
    intro n hn
    rw [foldAt, foldAt, List.take_take, Nat.min_eq_left hn]
  refine ⟨u, fun {n i event} hn ho => ?_⟩
  rw [← short (Nat.le_of_lt hn), ← short hn]
  refine foldAt_succ (by rw [h]) ?_
  rw [List.getElem?_take_of_lt hn]
  exact u.checked.built.step_eq ho

/-- The main body begins with slots for all its locals. -/
theorem within_main (u : Emittable code g m statements d)
    (hslots : slotsFrom 0 0 .empty d.records.toList = .ok slots)
    (hstate : state 0 = .initial slots) :
    InBody code d state slots none 0 := by
  refine ⟨⟨by rw [hstate]; rfl, rfl, by rw [hstate]; rfl⟩, by rw [hstate]; rfl,
    by rw [hstate, stateAt_zero]; rfl, u.slotsFit (rfl : openers code 0 = []) hslots, ?_⟩
  exact fun q name hq => u.slots_cover (rfl : openers code 0 = []) hslots
    (fun _ _ _ => Nat.zero_le _) hq

/-- A record that emission has reached is supplied. -/
theorem supplied_of_emittedTo (u : Emittable code g m statements d)
    (hslots : slotsFrom 0 0 .empty d.records.toList = .ok slots)
    (x : EmittedTo code g m statements d (foldAt d.emit (.initial slots) (trace code).steps) q)
    (ho : Occurs code q i event) :
    Supplied code d (foldAt d.emit (.initial slots) (trace code).steps q) q i event :=
  x.supplies u.checked.loaded.layout rfl ho (Nat.zero_le q) ho.lt (within_main u hslots rfl)

/-- **An emission goes through or meets a refused record.** -/
theorem fold_cases (u : Emittable code g m statements d)
    (hslots : slotsFrom 0 0 .empty d.records.toList = .ok slots) :
    (∃ e, fold d.emit (.initial slots) (trace code).steps = (e, none)) ∨
      ∃ n i cause e, code[n]? = some i ∧ Refuses d.records.toList n cause ∧
        fold d.emit (.initial slots) (trace code).steps = (e, some (.failedAt n i cause)) := by
  cases hfold : fold d.emit (.initial slots) (trace code).steps with
  | mk e error? =>
  cases error? with
  | none => exact .inl ⟨e, rfl⟩
  | some error =>
    -- Everything in front of the step that failed has been emitted, so the step was supplied.
    obtain ⟨n, t, ht, hbefore, herror⟩ := exists_of_fold_error hfold
    have hlen : (trace code).steps.length = code.length := length_steps _ _ _ u.replayed
    have hlt : n < code.length := hlen ▸ (List.getElem?_eq_some_iff.mp ht).1
    obtain ⟨event, ho, hstep⟩ := exists_occurs u.replayed (List.getElem?_eq_getElem hlt)
    obtain rfl := Option.some.inj (ht.symm.trans hstep)
    have hsupplied := supplied_of_emittedTo u hslots (emittedTo_of_fold u hbefore) ho
    have hreached : foldAt d.emit (.initial slots) (trace code).steps n = e := by
      rw [foldAt, hbefore]
    rw [hreached] at hsupplied
    rcases hsupplied.emit_cases u ho (stateAt code (n + 1)) with
      ⟨e', hok⟩ | ⟨cause, hrefuses, hfailed⟩
    · rw [herror] at hok
      cases hok
    · obtain rfl := Except.error.inj (herror.symm.trans hfailed)
      exact .inr ⟨n, _, cause, e, ho.1, hrefuses, rfl⟩

/-- A program whose emission goes through has no refused record. -/
theorem not_refuses_of_fold {e : Emission} {cause : BackendCause}
    (u : Emittable code g m statements d)
    (hslots : slotsFrom 0 0 .empty d.records.toList = .ok slots)
    (hfold : fold d.emit (.initial slots) (trace code).steps = (e, none)) :
    ¬ Refuses d.records.toList n cause := by
  have x := emitting_of_fold u hfold
  have instruction : ∀ {r}, d.records.toList[n]? = some r → code[n]? = some r.instruction := by
    intro r hr
    rw [← u.instructions, List.getElem?_map, hr]
    rfl
  intro h
  -- On the refusal: each kind contradicts the record having been emitted.
  cases h with
  | @classes r c hr hop =>
    obtain ⟨hstart, hconst⟩ := u.classless _ (List.mem_of_getElem? (instruction hr)) c
    exact hop.elim hstart hconst
  | @nested r name hr hop hdefs =>
    obtain ⟨event, ho⟩ := u.checked.built.occurs (instruction hr)
    have hsupplied := supplied_of_emittedTo u hslots (x.upTo n) ho
    obtain ⟨rfl, -⟩ := ho.defStart hop
    obtain ⟨houter, -⟩ := Emission.emit_defStart hop (x.step ho)
    have hnone := hsupplied.outer
    rw [houter] at hnone
    rw [u.instructions] at hdefs
    exact hdefs (List.length_eq_zero_iff.mp hnone.symm)
  | @operator i name count receiver args ho hop htype =>
    rw [u.instructions] at ho
    rw [typeAt?, Array.getElem?_toList] at htype
    rcases Emission.type_of_emit_send hop htype (x.step ho) with h | h <;> cases h

/-- The typed code is emitted with everything that its instructions need. -/
def AllSupplied (records : List TypedRecord) : Prop :=
  ∃ (d : Declarations) (slots : Table String Kind), d.records = records.toArray ∧
    signaturesFrom 0 records = .ok d.signatures.entries ∧
    slotsFrom 0 0 .empty records = .ok slots ∧
    ∀ n i event, Occurs (records.map TypedRecord.instruction) n i event →
      Supplied (records.map TypedRecord.instruction) d
        (foldAt d.emit (.initial slots) (trace (records.map TypedRecord.instruction)).steps n) n i
        event

/-- The main body can be ended with the program's value. -/
theorem exists_main {e : Emission} (u : Emittable code g m statements d)
    (hslots : slotsFrom 0 0 .empty d.records.toList = .ok slots)
    (hfold : fold d.emit (.initial slots) (trace code).steps = (e, none)) :
    (resultRecord? (trace code) = none ∧ ∃ main, e.finish (some .nil) .pointer 0 = .ok main) ∨
      ∃ n kind main, resultRecord? (trace code) = some n ∧
        kindOf n (d.records.getD n default) = .ok kind ∧
        e.finish (d.type? n) kind n = .ok main := by
  have x := emitting_of_fold u hfold
  have hlen : (trace code).steps.length = code.length := length_steps _ _ _ u.replayed
  have hlast : foldAt d.emit (.initial slots) (trace code).steps code.length = e := by
    rw [foldAt_of_length_le (Nat.le_of_eq hlen), hfold]
  obtain ⟨is, os, left, hs, -, hw⟩ := (x.upTo code.length).stretch u.checked.loaded.layout
    (Nat.le_refl _) (within_main u hslots rfl)
  have hended := hw.isEnded
  rw [hlast] at hended
  have hstack : (stateAt code code.length).stack = left := by
    rw [hs.replays.stack, stateAt_zero]
    exact List.append_nil left
  have hresult := resultRecord?_eq hstack
  cases hrecord : resultRecord? (trace code) with
  | none =>
    obtain ⟨main, hmain⟩ := exists_finish (v := 0) (some .nil) .pointer hended (.inl rfl)
    exact .inl ⟨rfl, main, hmain⟩
  | some n =>
    rw [hrecord] at hresult
    obtain ⟨htop, hnot⟩ := Option.filter_eq_some_iff.mp hresult.symm
    -- What the end of a definition leaves is skipped, but a program does not return that.
    have hskip : ¬ Skipped code code.length n := by
      rw [← mem_methodResults_iff u.replayed]
      simpa using hnot
    obtain ⟨o, hknows, hkind⟩ := hs.known_of_mem (List.mem_of_mem_head? htop) hskip
    rw [hlast] at hknows
    obtain ⟨main, hmain⟩ := exists_finish (d.type? n) o.kind hended (.inr ⟨o, hknows⟩)
    exact .inr ⟨n, o.kind, main, rfl, Declarations.kindOf_of_kind? hkind, hmain⟩

/-- The program's value has a kind. -/
theorem exists_resultKind (u : Emittable code g m statements d)
    (hrecord : resultRecord? (trace code) = some n) :
    ∃ kind, kindOf n (d.records.getD n default) = .ok kind := by
  rw [resultRecord?_eq rfl] at hrecord
  obtain ⟨htop, -⟩ := Option.filter_eq_some_iff.mp hrecord
  obtain ⟨kind, hkind⟩ := u.exists_kind (stack_lt u.replayed (List.mem_of_mem_head? htop))
  exact ⟨kind, Declarations.kindOf_of_kind? hkind⟩

/-- Emission fails at a record that is refused, or emits a program. -/
theorem emitProgram_cases (u : Emittable code g m statements d)
    (hslots : slotsFrom 0 0 .empty d.records.toList = .ok slots) :
    (∃ n i cause, code[n]? = some i ∧ Refuses d.records.toList n cause ∧
      emitProgram d.records (trace code) = .error (.failedAt n i cause)) ∨
    ((∃ e, fold d.emit (.initial slots) (trace code).steps = (e, none)) ∧
      ∃ p, emitProgram d.records (trace code) = .ok p) := by
  have hsigs := u.signatures
  -- The fold over the steps decides; what comes after it cannot fail.
  rcases fold_cases u hslots with ⟨e, hfold⟩ | ⟨n, i, cause, e, hi, hrefuses, hfold⟩
  · refine .inr ⟨⟨e, hfold⟩, ?_⟩
    rcases exists_main u hslots hfold with
      ⟨hrecord, main, hmain⟩ | ⟨n, kind, main, hrecord, hkind, hmain⟩
    · simp only [emitProgram, hrecord, hsigs, hslots, hfold, hmain, pure, Except.pure, bind,
        Except.bind]
      exact ⟨_, rfl⟩
    · simp only [emitProgram, hrecord, hkind, hsigs, hslots, hfold, hmain, bind, Except.bind]
      exact ⟨_, rfl⟩
  · refine .inl ⟨n, i, cause, hi, hrefuses, ?_⟩
    cases hrecord : resultRecord? (trace code) with
    | none =>
      simp only [emitProgram, hrecord, hsigs, hslots, hfold, pure, Except.pure, bind, Except.bind]
      rfl
    | some r =>
      obtain ⟨kind, hkind⟩ := exists_resultKind u hrecord
      simp only [emitProgram, hrecord, hkind, hsigs, hslots, hfold, bind, Except.bind]
      rfl

/-- **What becomes of a typed program**: native code is refused for one of its records, or made with
everything that its instructions need. -/
theorem compile_cases (h : Compiled statements code g records m) :
    (∃ n r cause, records[n]? = some r ∧ Refuses records n cause ∧
      compile records = .error (.failedAt n r.instruction cause)) ∨
    ((∀ n cause, ¬ Refuses records n cause) ∧ AllSupplied records ∧
      ∃ p, compile records = .ok p ∧ p.isSound = true) := by
  have hcode := map_instruction_of_infer h.built h.inferred
  have b := Graph.built_of_build h.built
  have hr := b.replayed
  have htyped : requireTypes "compile" records = .ok () := by
    rw [requireTypes, firstUntyped?_of_infer h.built h.inferred]
  rcases refuseClasses_cases records 0 with hclasses | ⟨k, r, c, hk, hop, hclasses⟩
  swap
  · refine .inl ⟨k, r, _, hk, .classes hk hop, ?_⟩
    rw [Nat.zero_add] at hclasses
    simp only [compile, htyped, hclasses, bind, Except.bind]
  -- Classes are refused first, so what follows is about a program without them.
  have hcls : ∀ i ∈ code, ∀ c, i.op ≠ .classStart c ∧ i.op ≠ .pushConst c := by
    intro i hi c
    rw [← hcode] at hi
    obtain ⟨r, hr, rfl⟩ := List.mem_map.mp hi
    exact refuseClasses_eq_ok hclasses r hr c
  obtain ⟨sigs, u⟩ := exists_emittable h hcls
  obtain ⟨slots, hslots⟩ := u.exists_slots 0
  rw [List.drop_zero] at hslots
  have hcompile : compile records = emitProgram records.toArray (trace code) := by
    simp only [compile, htyped, hclasses, hcode, hr, bind, Except.bind]
  rcases emitProgram_cases u hslots with ⟨n, i, cause, hi, hrefuses, hfailed⟩ | ⟨⟨e, hfold⟩, p, hp⟩
  · obtain ⟨record, hrecord, rfl⟩ :
        ∃ record, records[n]? = some record ∧ record.instruction = i := by
      rw [← hcode, List.getElem?_map] at hi
      exact Option.map_eq_some_iff.mp hi
    exact .inl ⟨n, record, cause, hrecord, hrefuses, hcompile.trans hfailed⟩
  · have hok := hcompile.trans hp
    obtain ⟨_, ht⟩ := translated_of_compile h hok
    refine .inr ⟨fun n cause => not_refuses_of_fold u hslots hfold,
      ⟨_, slots, rfl, u.signatures, hslots, ?_⟩, p, hok, ht.isSound⟩
    rw [hcode]
    exact fun n i event ho => supplied_of_emittedTo u hslots ((emitting_of_fold u hfold).upTo n) ho

end

end Native

open Native

/-- **Native code is refused for what it does not have, and for nothing else.** The compilation of
a typed program fails if and only if one of its records is refused; it fails at such a record, with
the reason for it. A program that is compiled can be run, and all its instructions were supplied. -/
theorem native_refused_iff {source : String} {records : List TypedRecord}
    (h : Program.typed source = .ok records) :
    ((∃ error, compile records = .error error) ↔ ∃ n cause, Refuses records n cause) ∧
      (∀ error, compile records = .error error → ∃ n r cause, records[n]? = some r ∧
        Refuses records n cause ∧ error = .failedAt n r.instruction cause) ∧
      ∀ p, compile records = .ok p → p.isSound = true ∧ AllSupplied records := by
  obtain ⟨statements, code, g, m, -, hc, -⟩ := compiled_of_typed h 0
  -- Compilation fails at a refused record, or there is none and it succeeds.
  rcases compile_cases hc with ⟨n, r, cause, hr, hrefuses, hfailed⟩ | ⟨hnone, hall, p, hp, hsound⟩
  · refine ⟨⟨fun _ => ⟨n, cause, hrefuses⟩, fun _ => ⟨_, hfailed⟩⟩, fun error herror => ?_, ?_⟩
    · exact ⟨n, r, cause, hr, hrefuses, Except.error.inj (herror.symm.trans hfailed)⟩
    · intro p hp
      rw [hfailed] at hp
      cases hp
  · refine ⟨⟨fun ⟨error, herror⟩ => ?_, fun ⟨n, cause, hn⟩ => absurd hn (hnone n cause)⟩, ?_, ?_⟩
    · rw [hp] at herror
      cases herror
    · intro error herror
      rw [hp] at herror
      cases herror
    · intro p' hp'
      obtain rfl := Except.ok.inj (hp.symm.trans hp')
      exact ⟨hsound, hall⟩

theorem native_refused_iff_half : Program.typed Sample.half = .ok Sample.halfRecords ∧
    (∀ n cause, ¬ Refuses Sample.halfRecords n cause) ∧ AllSupplied Sample.halfRecords := by
  have htyped := typed_eq_ok_iff.mpr ⟨_, Sample.code_half, Sample.infer_half⟩
  obtain ⟨p, hp⟩ := Sample.compile_half
  obtain ⟨hiff, -, hok⟩ := native_refused_iff htyped
  refine ⟨htyped, fun n cause hn => ?_, (hok p hp).2⟩
  obtain ⟨error, herror⟩ := hiff.mpr ⟨n, cause, hn⟩
  rw [hp] at herror
  cases herror

end Rubylet
