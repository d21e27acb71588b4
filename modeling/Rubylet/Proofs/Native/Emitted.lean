import Rubylet.Proofs.Native.Kinds
import Rubylet.Proofs.Native.Scopes

/-!
# What is emitted

The emission of a program goes through its replay once. `Layout.emitted` says what comes of it:
every part of the program has native code (`Emits`), the body that the part stands in is extended by
just this code, and the records that the part leaves are known there by its operands. The functions
of all methods in the part are complete when the emission is behind it.

The state of the emission at a point is taken as given, with nothing known of it but that each
instruction was emitted from the state before it to the state behind it (`Emitting`). For a part
this need be known up to its end only (`EmittedTo`).
-/

namespace Rubylet.Native

open Replay

/-- In a frame of the code, a message is sent that runs a method. -/
def CallsFrom (code : List Instruction) (m : Machine) (frame : Option Nat) (method : Nat) : Prop :=
  ∃ n i name count, code[n]? = some i ∧ i.op = .send name count ∧ frameOf code n = frame ∧
    m.methods.get? name = some method

/-- A record that is on the operands at a point stands for an operand. One that a definition left
stands for nil. -/
def OperandFits (code : List Instruction) (d : Declarations) (e : Emission) (n r : Nat)
    (o : Operand) : Prop :=
  (Skipped code n r ∧ o = .null) ∨ (¬ Skipped code n r ∧ e.Knows r o ∧ d.kind? r = some o.kind)

/-- The functions of the methods that are defined between two points. -/
def MethodsFit (code : List Instruction) (m : Machine) (d : Declarations) (n n' : Nat)
    (bodies : Table Nat Body) : Prop :=
  ∀ k i name, n ≤ k → k < n' → code[k]? = some i → i.op = .defStart name →
    ∃ s body, d.signatures.get? k = some s ∧ bodies.get? k = some body ∧
      EmitsMethod code m.Linked d (CallsFrom code m (some k)) k s body

/-- A program whose native code is emitted, and the state of the emission at every point. -/
structure Emitting (code : List Instruction) (g : Graph) (m : Machine) (statements : List Node)
    (d : Declarations) (state : Nat → Emission) : Prop where
  program : Emittable code g m statements d
  step : ∀ {n i e}, Occurs code n i e →
    d.emit (state n) ⟨n, i, e, stateAt code (n + 1)⟩ = .ok (state (n + 1))

/-- The same up to a point, which the emission has reached. -/
structure EmittedTo (code : List Instruction) (g : Graph) (m : Machine) (statements : List Node)
    (d : Declarations) (state : Nat → Emission) (limit : Nat) : Prop where
  program : Emittable code g m statements d
  step : ∀ {n i e}, n < limit → Occurs code n i e →
    d.emit (state n) ⟨n, i, e, stateAt code (n + 1)⟩ = .ok (state (n + 1))

theorem Emitting.upTo {code : List Instruction} {g : Graph} {m : Machine} {statements : List Node}
    {d : Declarations} {state : Nat → Emission} (x : Emitting code g m statements d state)
    (limit : Nat) : EmittedTo code g m statements d state limit :=
  ⟨x.program, fun _ => x.step⟩

/-- Between two points some code was emitted, and the records that are left stand for operands,
which are listed from the bottom up. -/
structure Stretch (code : List Instruction) (m : Machine) (d : Declarations)
    (state : Nat → Emission) (n n' : Nat) (is : List Inst) (left : List Nat) (os : List Operand) :
    Prop where
  le : n ≤ n'
  emission : (state n).Extends (state n') n is
  replays : Replays code n n' left
  operands : List.Forall₂ (OperandFits code d (state n') n') left os.reverse
  methods : MethodsFit code m d n n' (state n').bodies

section

variable {code : List Instruction} {g : Graph} {m : Machine} {statements : List Node}
  {d : Declarations} {state : Nat → Emission} {n n' k r : Nat} {is is' : List Inst}
  {left left' : List Nat} {os os' : List Operand} {o : Operand} {i : Instruction} {e : Event}
  {bodies bodies' : Table Nat Body}

/-! ### Methods between points -/

namespace MethodsFit

theorem refl (code : List Instruction) (m : Machine) (d : Declarations) (n : Nat)
    (bodies : Table Nat Body) : MethodsFit code m d n n bodies :=
  fun k _ _ hle hlt => absurd hlt (by omega)

theorem trans (h : MethodsFit code m d n k bodies) (h' : MethodsFit code m d k n' bodies')
    (hkeep : ∀ r < k, bodies'.get? r = bodies.get? r) : MethodsFit code m d n n' bodies' := by
  intro q i name hle hlt hi hop
  rcases Nat.lt_or_ge q k with hq | hq
  · obtain ⟨s, body, hs, hbody, hemits⟩ := h q i name hle hq hi hop
    exact ⟨s, body, hs, (hkeep q hq).trans hbody, hemits⟩
  · exact h' q i name hq hlt hi hop

theorem single (hi : code[n]? = some i) (hop : ∀ name, i.op ≠ .defStart name) :
    MethodsFit code m d n (n + 1) bodies := by
  intro q j name hle hlt hj hdef
  obtain ⟨rfl, rfl⟩ := eq_of_between hi hle hlt hj
  exact absurd hdef (hop name)

end MethodsFit

/-! ### Stretches -/

/-- A record that was not skipped is known by its operand. -/
theorem OperandFits.known {e : Emission} (h : OperandFits code d e n r o)
    (hskip : ¬ Skipped code n r) : e.Knows r o ∧ d.kind? r = some o.kind :=
  (h.resolve_left fun h => hskip h.1).2

namespace Stretch

theorem refl (code : List Instruction) (m : Machine) (d : Declarations) (state : Nat → Emission)
    (n : Nat) : Stretch code m d state n n [] [] [] :=
  ⟨Nat.le_refl n, .refl _ n, .refl code n, .nil, .refl code m d n _⟩

/-- A record keeps its operand while the emission goes on. -/
theorem operandFits (h : Stretch code m d state n n' is left os) (hr : r < n)
    (ho : OperandFits code d (state n) n r o) : OperandFits code d (state n') n' r o := by
  rcases ho with ⟨hskip, rfl⟩ | ⟨hskip, hknows, hkind⟩
  · exact .inl ⟨hskip.mono h.le, rfl⟩
  · exact .inr ⟨fun hs => hskip (h.replays.skipped r hr hs), h.emission.knows hr hknows, hkind⟩

theorem trans (hr : (trace code).error? = none) (h : Stretch code m d state n k is left os)
    (h' : Stretch code m d state k n' is' left' os') :
    Stretch code m d state n n' (is ++ is') (left' ++ left) (os ++ os') := by
  refine ⟨Nat.le_trans h.le h'.le, h.emission.trans h'.emission h.le,
    h.replays.trans h'.replays h.le, ?_, ?_⟩
  · rw [List.reverse_append]
    refine List.rel_append h'.operands ?_
    -- What the first part has left is older than the second one, which does not touch it.
    have hlt : ∀ r ∈ left, r < k := fun r hmem =>
      stack_lt hr (h.replays.stack ▸ List.mem_append_left _ hmem)
    refine ((List.forall₂_and_left _ _).mpr ⟨fun r hmem => hlt r hmem, h.operands⟩).imp ?_
    exact fun r o ho => h'.operandFits ho.1 ho.2
  · exact h.methods.trans h'.methods h'.emission.bodies

/-- One more instruction, which opens no method and leaves its own record or none. -/
theorem snoc (h : Stretch code m d state n k is left os) (hi : code[k]? = some i)
    (hop : ∀ name, i.op ≠ .defStart name) (hx : (state k).Extends (state (k + 1)) k is')
    (hreplays : Replays code n (k + 1) left')
    (hops : List.Forall₂ (OperandFits code d (state (k + 1)) (k + 1)) left' os'.reverse) :
    Stretch code m d state n (k + 1) (is ++ is') left' os' :=
  ⟨Nat.le_succ_of_le h.le, h.emission.trans hx h.le, hreplays, hops,
    h.methods.trans (.single hi hop) hx.bodies⟩

theorem leaves {links : Nat → Nat → Prop} {inside : Option String} {p : Part}
    (h : Stretch code m d state n n' is left os) (hr : (trace code).error? = none)
    (hl : Layout code links inside p n n') : p.Leaves code n' left := by
  obtain ⟨left', h', hleaves⟩ := hl.replays hr
  obtain rfl := List.append_cancel_right (h.replays.stack.symm.trans h'.stack)
  exact hleaves

/-- What an expression leaves is known. -/
theorem known (h : Stretch code m d state n n' is left os)
    (hleaves : ∃ r, left = [r] ∧ ¬ Skipped code n' r) : ∃ r o, left = [r] ∧ os = [o] ∧
      OperandFits code d (state n') n' r o ∧ (state n').Knows r o ∧ d.kind? r = some o.kind := by
  obtain ⟨r, rfl, hskip⟩ := hleaves
  have hops := h.operands
  obtain ⟨o, rest, hfit, hrest, heq⟩ := List.forall₂_cons_left_iff.mp hops
  obtain rfl := List.forall₂_nil_left_iff.mp hrest
  have hos : os = [o] := by rw [← List.reverse_reverse os, heq]; rfl
  exact ⟨r, o, rfl, hos, hfit, OperandFits.known hfit hskip⟩

/-- The value that a body leaves is known. -/
theorem known_last (h : Stretch code m d state n n' is left os)
    (hleaves : ∃ r rest, left = r :: rest ∧ ¬ Skipped code n' r) :
    ∃ r rest front o, left = r :: rest ∧ os = front ++ [o] ∧ (state n').Knows r o ∧
      d.kind? r = some o.kind := by
  obtain ⟨r, rest, rfl, hskip⟩ := hleaves
  obtain ⟨o, front, hfit, -, heq⟩ := List.forall₂_cons_left_iff.mp h.operands
  have hos : os = front.reverse ++ [o] := by rw [← List.reverse_reverse os, heq, List.reverse_cons]
  exact ⟨r, rest, front.reverse, o, rfl, hos, OperandFits.known hfit hskip⟩

/-- What the arguments of a call leave is known. -/
theorem known_all (h : Stretch code m d state n n' is left os)
    (hskip : ∀ r ∈ left, ¬ Skipped code n' r) :
    List.Forall₂ (state n').Knows left.reverse os := by
  rw [← List.reverse_reverse os, List.forall₂_reverse_iff]
  refine ((List.forall₂_and_left _ _).mpr ⟨hskip, h.operands⟩).imp ?_
  exact fun r o h => (OperandFits.known h.2 h.1).1

end Stretch

/-! ### Single instructions -/

/-- Behind the statements of a body, nil or a local is pushed. -/
theorem op_of_closingLast {xs : List Node} (h : Lowering.closingLast xs = [i]) :
    i.op = .pushNil ∨ ∃ name, i.op = .pushVar name := by
  unfold Lowering.closingLast at h
  split at h
  · next y _ =>
    cases y with
    | assign pos name value => obtain rfl := List.singleton_inj.mp h; exact .inr ⟨name, rfl⟩
    | classDef pos name body => obtain rfl := List.singleton_inj.mp h; exact .inl rfl
    | methodDef pos name params body => obtain rfl := List.singleton_inj.mp h; exact .inl rfl
    | _ => cases h
  · cases h

/-- What holds of the scope that a point of a frame is emitted in. -/
structure InScope (code : List Instruction) (d : Declarations) (state : Nat → Emission)
    (slots : Table String Kind) (frame : Option Nat) (n : Nat) : Prop where
  slots_eq : (state n).current.slots = slots
  frame_eq : frameOf code n = frame
  isEnded : (state n).current.isEnded = false

/-- A stretch stays in the scope it starts in. -/
theorem InScope.along {slots : Table String Kind} {frame : Option Nat}
    (h : InScope code d state slots frame n) (hs : Stretch code m d state n n' is left os) :
    InScope code d state slots frame n' :=
  ⟨hs.emission.slots.trans h.slots_eq, (frameOf_eq hs.replays.openers_eq).trans h.frame_eq,
    hs.emission.isEnded.trans h.isEnded⟩

/-- A part has native code, in any scope that it may stand in. -/
def PartEmitted (code : List Instruction) (m : Machine) (d : Declarations)
    (state : Nat → Emission) (p : Part) (n n' : Nat) : Prop :=
  ∀ slots frame, InScope code d state slots frame n → SlotsFit code d frame slots →
    ∃ is os left, Emits code m.Linked d slots (CallsFrom code m frame) p n n' is os ∧
      Stretch code m d state n n' is left os

namespace EmittedTo

variable {limit : Nat} (x : EmittedTo code g m statements d state limit)

include x

theorem replayed : (trace code).error? = none := x.program.replayed

theorem occurs (hi : code[n]? = some i) : ∃ e, Occurs code n i e :=
  x.program.checked.built.occurs hi

/-- A literal is emitted as an operand and costs no instruction. -/
theorem constant (hn : n < limit) (hi : code[n]? = some i) (ho : constant? i.op = some o) :
    Stretch code m d state n (n + 1) [] [n] [o] := by
  obtain ⟨e, hocc⟩ := x.occurs hi
  -- The literals are the operations with a constant.
  have hlit : i.op = .pushNil ∨ (∃ v, i.op = .pushInt v) ∨ ∃ t, i.op = .pushStr t := by
    unfold constant? at ho
    split at ho
    · next h => exact .inr (.inl ⟨_, h⟩)
    · next h => exact .inr (.inr ⟨_, h⟩)
    · next h => exact .inl h
    · cases ho
  obtain ⟨rfl, hs⟩ := hocc.literal hlit
  obtain ⟨hx, hknows⟩ := Emission.emit_constant ho (x.step hn hocc)
  have hpush : ∀ s k, State.effect s k i.op = s.push k := by
    rcases hlit with h | ⟨v, h⟩ | ⟨t, h⟩ <;> rw [h] <;> exact fun _ _ => rfl
  have hopeners : openers code (n + 1) = openers code n := by
    rcases hlit with h | ⟨v, h⟩ | ⟨t, h⟩ <;> rw [openers_succ hi, h]
  -- The replay pushes the record, and the emission knows its operand.
  refine (Stretch.refl code m d state n).snoc hi ?_ hx (.push x.replayed hi hpush hopeners ?_)
    (.cons (.inr ⟨not_skipped_succ x.replayed, hknows, x.program.kind_of_constant hi ho⟩) .nil)
  all_goals rcases hlit with h | ⟨v, h⟩ | ⟨t, h⟩ <;> simp [h]

/-- A local is loaded from the slot that has its kind. -/
theorem read {name : String} {slots : Table String Kind} {frame : Option Nat}
    (hn : n < limit) (hi : code[n]? = some i) (hop : i.op = .pushVar name)
    (hin : InScope code d state slots frame n) (hslots : SlotsFit code d frame slots) :
    ∃ kind, slots.get? name = some kind ∧
      Stretch code m d state n (n + 1) [.load n name] [n] [.result n kind] := by
  obtain ⟨e, hocc⟩ := x.occurs hi
  obtain ⟨rfl, -⟩ := hocc.pushVar hop
  obtain ⟨kind, hget, hx, hknows⟩ := Emission.emit_pushVar hop (x.step hn hocc)
  -- The table the emission looks in is the one of the frame.
  rw [hin.slots_eq] at hget
  have hkind := x.program.kind_of_slot hi hop (hin.frame_eq.symm ▸ hslots) hget
  have hopeners : openers code (n + 1) = openers code n := by rw [openers_succ hi, hop]
  refine ⟨kind, hget, (Stretch.refl code m d state n).snoc hi (by simp [hop]) hx
    (.push x.replayed hi (by rw [hop]; exact fun _ _ => rfl) hopeners (by simp [hop]))
    (.cons (.inr ⟨not_skipped_succ x.replayed, hknows, hkind⟩) .nil)⟩

/-- An assignment stores its value in the slot of its local. -/
theorem setVar {name : String} {v : Nat} {slots : Table String Kind} {frame : Option Nat}
    (h : Stretch code m d state n k is [v] [o]) (hv : (state k).Knows v o)
    (hk : k < limit) (hi : code[k]? = some i) (hop : i.op = .setVar name)
    (hin : InScope code d state slots frame k) :
    slots.get? name = some o.kind ∧
      Stretch code m d state n (k + 1) (is ++ [.store name o]) [] [] := by
  obtain ⟨e, hocc⟩ := x.occurs hi
  obtain ⟨v', rest, hstack, rfl, -⟩ := hocc.setVar hop
  -- What the stretch leaves is what the assignment takes.
  obtain ⟨rfl, -⟩ := List.cons.inj (h.replays.stack.symm.trans hstack)
  obtain ⟨hget, hx⟩ := Emission.emit_setVar hop hv (x.step hk hocc)
  rw [hin.slots_eq] at hget
  exact ⟨hget, h.snoc hi (by simp [hop]) hx (h.replays.setVar x.replayed hi hop) .nil⟩

/-! ### Methods -/

/-- The parameters of a method take its arguments. -/
theorem params {slots : Table String Kind} {kinds : List Kind} : ∀ (ps : List Param) {k q : Nat},
    ParamsAt code q ps → q + 2 * ps.length ≤ limit →
    (∀ j p, ps[j]? = some p → p.index = ((k + j : Nat) : Int)) →
    (∀ (j : Nat) (a : String × Operand), (state q).current.arguments[j]? = some a →
      ∃ kind, kinds[j]? = some kind ∧ a.2 = .argument j kind) →
    (∀ a ∈ (state q).current.arguments, ((state q).current.visible.lookup a.1).isSome) →
    (state q).current.slots = slots →
    ∃ is, Takes slots kinds k ps is ∧ Stretch code m d state q (q + 2 * ps.length) is [] [] := by
  intro ps
  induction ps with
  | nil =>
    intro k q _ _ _ _ _ _
    exact ⟨[], .nil, .refl code m d state q⟩
  | cons p ps ih =>
    intro k q hp hlimit hindex hargs hvisible hslots
    rw [List.length_cons] at hlimit
    have hk : p.index = (k : Int) := hindex 0 p rfl
    obtain ⟨e, hpush⟩ := x.occurs hp.head
    obtain ⟨e', hset⟩ := x.occurs hp.tail.head
    obtain ⟨method, defs, -, rfl, -⟩ := hpush.pushArg rfl
    obtain ⟨v, rest, hstack, rfl, -⟩ := hset.setVar rfl
    have hreplays : Replays code q (q + 1) [q] :=
      .push x.replayed hp.head (fun _ _ => rfl) (by rw [openers_succ hp.head]) (by simp)
    obtain ⟨rfl, -⟩ := List.cons.inj (hreplays.stack.symm.trans hstack)
    obtain ⟨name, o, hat, hx, hknows⟩ :=
      Emission.emit_pushArg (congrArg Operation.pushArg hk) hvisible (x.step (by omega) hpush)
    obtain ⟨hget, hx'⟩ := Emission.emit_setVar rfl hknows (x.step (by omega) hset)
    obtain ⟨kind, hkind, rfl⟩ := hargs k _ hat
    rw [hx.slots, hslots] at hget
    have hboth := hx.trans hx' (Nat.le_succ q)
    -- The slots, the arguments and what is visible are the same for the next parameter.
    obtain ⟨is, htakes, hrest⟩ := ih (k := k + 1) hp.tail.tail (by omega)
      (fun j p' hj => by rw [Nat.add_right_comm, Nat.add_assoc]; exact hindex (j + 1) p' hj)
      (by rw [hboth.arguments]; exact hargs)
      (by rw [hboth.arguments]; exact fun a ha => hboth.lookup (hvisible a ha))
      (hboth.slots.trans hslots)
    have hfirst : Stretch code m d state q (q + 1 + 1)
        [.store p.name (.argument k kind)] [] [] :=
      ⟨by omega, hboth, hreplays.setVar x.replayed hp.tail.head rfl, .nil,
        (MethodsFit.single hp.head (by simp)).trans (.single hp.tail.head (by simp)) hx'.bodies⟩
    have hlen : q + 2 * (p :: ps).length = q + 1 + 1 + 2 * ps.length := by
      rw [List.length_cons]
      omega
    rw [hlen]
    exact ⟨_, .cons hk hkind hget htakes, hfirst.trans x.replayed hrest⟩

/-- Behind the opener of a definition its body begins, in a frame of its own. -/
theorem enters {name : String} (hi : code[n]? = some i) (hop : i.op = .defStart name)
    (hn : n < limit) : ∃ s slots, d.signatures.get? n = some s ∧ (state n).outer = [] ∧
      slotsFrom (n + 1) 0 .empty (d.records.toList.drop (n + 1)) = .ok slots ∧
      state (n + 1) = { state n with
        current := .start (some n) s.params slots
        outer := [(state n).current] } ∧
      InScope code d state slots (some n) (n + 1) ∧ SlotsFit code d (some n) slots := by
  obtain ⟨e, hocc⟩ := x.occurs hi
  obtain ⟨rfl, -⟩ := hocc.defStart hop
  obtain ⟨s, hsig, -, -⟩ := x.program.signature_of_definition hi hop
  -- A method is entered from the main body only.
  obtain ⟨houter, slots, hslots, hstate⟩ := Emission.emit_defStart hop (x.step hn hocc)
  rw [hsig, Option.map_some, Option.getD_some] at hstate
  have hopeners : openers code (n + 1) = n :: openers code n := by rw [openers_succ hi, hop]
  refine ⟨s, slots, hsig, houter, hslots, hstate, ⟨?_, ?_, ?_⟩, x.program.slotsFit hopeners hslots⟩
  · rw [hstate]
    rfl
  · rw [frameOf, hopeners]
    rfl
  · rw [hstate]
    rfl

/-- **A method has a function**, and no code where it is defined. -/
theorem method {pos : Pos} {name : String} {params : List Param} {body : Option Node} {j : Nat}
    (hs : code[n]? = some ⟨.defStart name, ⟨.methodDef, pos⟩⟩) (hn : Numbered params)
    (hp : ParamsAt code (n + 1) params)
    (hb : Layout code m.Linked none (.body ⟨.methodDef, pos⟩ body) (n + 1 + 2 * params.length) j)
    (he : code[j]? = some ⟨.defEnd name, ⟨.methodDef, pos⟩⟩) (hj : j < limit)
    (hbody : PartEmitted code m d state (.body ⟨.methodDef, pos⟩ body)
      (n + 1 + 2 * params.length) j) :
    ∃ v, Stretch code m d state n (j + 1) [] [v] [.null] := by
  have hr := x.replayed
  have hle := hb.le
  obtain ⟨e, hocc⟩ := x.occurs hs
  obtain ⟨rfl, hopened⟩ := hocc.defStart rfl
  obtain ⟨s, slots, hsig, houter, -, hstate, hin, hfit⟩ := x.enters hs rfl (by omega)
  obtain ⟨s', hsig', hresult, -⟩ := x.program.signature_of_definition hs rfl
  obtain rfl := Option.some.inj (hsig.symm.trans hsig')
  obtain ⟨is, htakes, hparams⟩ : ∃ is, Takes slots s.params 0 params is ∧
      Stretch code m d state (n + 1) (n + 1 + 2 * params.length) is [] [] :=
    x.params params hp (by omega) (fun j p hj => by rw [Nat.zero_add]; exact hn j p hj)
      (by rw [hstate]; exact fun j a => Emission.start_arguments)
      (by rw [hstate]; exact fun a => Emission.start_visible) hin.slots_eq
  obtain ⟨js, os, left, hemits, hst⟩ := hbody _ _ (hin.along hparams) hfit
  obtain ⟨v, rest, front, o, rfl, rfl, hknows, hkind⟩ := hst.known_last (hst.leaves hr hb)
  have hall := hparams.trans hr hst
  rw [List.append_nil, List.nil_append] at hall
  obtain ⟨hocc', hout⟩ := Replays.method hr hs rfl hall.replays he rfl
  have hdefs : (stateAt code j).defs = n :: (stateAt code n).defs := by
    rw [hall.replays.state_eq, hopened]
    rfl
  obtain ⟨t, htn, htv⟩ := x.program.kind_of_result he rfl hdefs hall.replays.stack
  have hkinds : d.kind? n = d.kind? v := by rw [Declarations.kind?, Declarations.kind?, htn, htv]
  have hokind : o.kind = s.result := by
    rw [hkinds, hkind] at hresult
    exact Option.some.inj hresult
  -- A method of type nil answers nil, whatever its body leaves.
  obtain ⟨value, hvalue, hused, hvkind⟩ : ∃ value : Operand,
      (t = .nil ∧ value = .null ∨ t ≠ .nil ∧ value = o) ∧
      (d.type? n = some .nil ∧ value = .null ∨ d.type? n ≠ some .nil ∧ (state j).Knows v value) ∧
      value.kind = s.result := by
    by_cases ht : t = .nil
    · subst ht
      rw [Declarations.kind?, htn] at hresult
      exact ⟨.null, .inl ⟨rfl, rfl⟩, .inl ⟨htn, rfl⟩, Option.some.inj hresult⟩
    · exact ⟨o, .inr ⟨ht, rfl⟩, .inr ⟨fun h => ht (Option.some.inj (htn.symm.trans h)), hknows⟩,
        hokind⟩
  have hended : (state j).current.isEnded = false := by rw [hall.emission.isEnded, hstate]; rfl
  have hbranches : (state j).current.branches = [] := by rw [hall.emission.branches, hstate]; rfl
  have houter' : (state j).outer = [(state n).current] := by rw [hall.emission.outer, hstate]
  -- Behind the method the scope around it is the current one again.
  have hclosed :=
    Emission.emit_defEnd rfl hsig hended hbranches houter' hused hvkind (x.step hj hocc')
  refine ⟨v, by have := hall.le; omega, ⟨⟨(state n).current.names, [], ?_⟩, ?_, ?_, ?_, ?_⟩, hout,
    .cons (.inl ⟨⟨j, Nat.lt_succ_self j, _, n, hocc'⟩, rfl⟩) .nil, ?_⟩
  · rw [hclosed]
    rfl
  · rw [hclosed, houter]
  · rw [hclosed]
    exact hall.emission.isSound.trans (by rw [hstate])
  · intro r hlt
    rw [hclosed]
    exact (hall.emission.values r (by omega)).trans (by rw [hstate])
  · intro r hlt
    rw [hclosed]
    refine (Table.get?_set _ _ _ _).trans ((if_neg (by omega)).trans ?_)
    exact (hall.emission.bodies r (by omega)).trans (by rw [hstate])
  · intro q i other hle hlt hi hop
    rw [hclosed]
    by_cases hq : n = q
    · subst hq
      refine ⟨s, _, hsig, Table.get?_set_self _ _ _, ?_⟩
      -- The code of the body is what was added since its scope was opened.
      have hcode : (state j).current.code.reverse = is ++ js := by
        rw [hall.emission.code, hstate]
        simp [Scope.start]
      rw [hcode, (hin.along hall).slots_eq]
      exact .intro hs hp htakes hemits he ⟨v, _, hall.replays.stack, htv⟩ hvalue hvkind
    · rcases Nat.lt_succ_iff_lt_or_eq.mp hlt with hqj | rfl
      · obtain ⟨s', body', hs', hbody', hemits'⟩ := hall.methods q i other (by omega) hqj hi hop
        refine ⟨s', body', hs', ?_, hemits'⟩
        exact (Table.get?_set _ _ _ _).trans ((if_neg hq).trans hbody')
      · obtain rfl := Option.some.inj (he.symm.trans hi)
        cases hop

/-! ### Calls -/

/-- Every record has a type. -/
theorem type_of_record (hn : n < code.length) : ∃ t, d.type? n = some t := by
  obtain ⟨t, ht⟩ := x.program.checked.typed n hn
  exact ⟨t, x.program.types ht⟩

/-- **A call has the code of its operands**, and then that of what its receiver makes of it. -/
theorem call {pos : Pos} {receiver : Option Node} {name : String} {args : List Node} {j : Nat}
    {slots : Table String Kind} {frame : Option Nat}
    (hreceiver : Layout code m.Linked none (.receiver pos receiver) n k)
    (hargs : Layout code m.Linked none (.exprs args) k j)
    (hi : code[j]? = some ⟨.send name (some args.length), ⟨.call, pos⟩⟩)
    (h₁ : Emits code m.Linked d slots (CallsFrom code m frame) (.receiver pos receiver) n k is os)
    (hs₁ : Stretch code m d state n k is left os)
    (h₂ : Emits code m.Linked d slots (CallsFrom code m frame) (.exprs args) k j is' os')
    (hs₂ : Stretch code m d state k j is' left' os') (hj : j < limit)
    (hin : InScope code d state slots frame j) :
    ∃ js o, Emits code m.Linked d slots (CallsFrom code m frame)
      (.expr (.call pos receiver name args)) n (j + 1) js [o] ∧
        Stretch code m d state n (j + 1) js [j] [o] := by
  have hr := x.replayed
  obtain ⟨v, o, rfl, rfl, -, hknows, hkind⟩ := hs₁.known (hs₁.leaves hr hreceiver)
  obtain ⟨hlen, hskip⟩ := hs₂.leaves hr hargs
  obtain ⟨e, hocc⟩ := x.occurs hi
  obtain ⟨v', values, rest, hstack, hcount, rfl, -⟩ := hocc.send rfl
  have hall := hs₁.trans hr hs₂
  have hleft := hall.replays.stack.symm.trans hstack
  rw [List.append_assoc] at hleft
  -- The operands of the message are what its receiver and its arguments have left.
  obtain ⟨rfl, hrest⟩ := List.append_inj hleft (by rw [List.length_reverse, hcount, hlen]; rfl)
  obtain ⟨rfl, -⟩ := List.cons.inj hrest
  have hlt : v < k := stack_lt hr (hs₁.replays.stack ▸ List.mem_append_left _ (.head _))
  have hjlt := hocc.lt
  have hle := hs₂.le
  obtain ⟨t, ht⟩ := x.type_of_record (n := v) (by omega)
  have htop : TopType code d k t := ⟨v, _, hs₁.replays.stack, ht⟩
  have hknows' := hs₂.emission.knows hlt hknows
  have hvalues := hs₂.known_all hskip
  rw [List.reverse_reverse] at hvalues
  have hreplays : Replays code n (j + 1) [j] :=
    hall.replays.send hr hall.le hi rfl (by rw [List.length_reverse, hcount])
  -- Only messages to nil and to integers are emitted.
  rcases Emission.type_of_emit_send rfl ht (x.step hj hocc) with rfl | rfl
  · obtain ⟨method, s, hm, hreq, hx, hresult⟩ := Emission.emit_call rfl ht hvalues (x.step hj hocc)
    have hcalls : CallsFrom code m frame method :=
      ⟨j, _, name, _, hi, rfl, hin.frame_eq, x.program.methods_get? hm⟩
    exact ⟨_, _, .call h₁ h₂ hi htop hm hcalls hreq, hall.snoc hi (by simp) hx hreplays
      (.cons (.inr ⟨not_skipped_succ hr, hresult, x.program.kind_of_call hocc rfl ht hm⟩) .nil)⟩
  · rw [Declarations.kind?, ht] at hkind
    obtain ⟨op, o', os'', rfl, hop, hkind', hx, hresult⟩ :=
      Emission.emit_arith rfl ht hknows' (Option.some.inj hkind).symm hvalues (x.step hj hocc)
    exact ⟨_, _, .arith h₁ h₂ hi htop hop (Option.some.inj hkind).symm hkind',
      hall.snoc hi (by simp) hx hreplays
      (.cons (.inr ⟨not_skipped_succ hr, hresult, x.program.kind_of_arith hocc rfl ht⟩) .nil)⟩

/-! ### Conditionals -/

/-- Behind the opener of a conditional its first branch begins, in the same body. -/
theorem opens {slots : Table String Kind} {frame : Option Nat}
    (hs : Stretch code m d state n k is [r] os) (hi : code[k]? = some i) (hop : i.op = .ifStart)
    (hk : k < limit) (hin : InScope code d state slots frame k) :
    ∃ t names, d.type? r = some t ∧
      state (k + 1) = (state k).opened k (decide (t ≠ .nil)) names ∧
      InScope code d state slots frame (k + 1) ∧
      stateAt code (k + 1) = { stateAt code k with
        stack := (stateAt code n).stack
        ifs := ⟨k, (stateAt code n).stack.length⟩ :: (stateAt code k).ifs } := by
  have hr := x.replayed
  obtain ⟨e, hocc⟩ := x.occurs hi
  obtain ⟨r', rest, hstack, rfl, hstate⟩ := hocc.ifStart hop
  obtain ⟨rfl, rfl⟩ := List.cons.inj (hs.replays.stack.symm.trans hstack)
  have hlt : r < k := stack_lt hr (hstack ▸ List.mem_cons_self)
  -- The type of the condition decides which branch is taken.
  obtain ⟨t, ht⟩ := x.type_of_record (n := r) (Nat.lt_trans hlt hocc.lt)
  obtain ⟨names, heq⟩ := Emission.emit_ifStart hop ht hin.isEnded (x.step hk hocc)
  refine ⟨t, names, ht, heq, ⟨?_, ?_, ?_⟩, hstate⟩
  · rw [heq]
    exact hin.slots_eq
  · exact (frameOf_eq (by rw [openers_succ hi, hop])).trans hin.frame_eq
  · rw [heq]
    exact hin.isEnded

/-- Behind the first branch of a conditional the second one begins, in the same body. -/
theorem turns {slots : Table String Kind} {frame : Option Nat} {j v : Nat} {taken : Bool}
    {names : Names} {ifs : List OpenIf} {height : Nat}
    (hopened : state (k + 1) = (state k).opened k taken names)
    (hifs : (stateAt code (k + 1)).ifs = ⟨k, height⟩ :: ifs)
    (hs : Stretch code m d state (k + 1) j is (v :: left) os) (hknows : (state j).Knows v o)
    (hi : code[j]? = some i) (hop : i.op = .ifElse) (hj : j < limit)
    (hin : InScope code d state slots frame (k + 1)) :
    ∃ names, state (j + 1) = (state j).halfway (state k).current k taken is o names ∧
      InScope code d state slots frame (j + 1) ∧
      (stateAt code (j + 1)).ifs = ⟨k, height⟩ :: ifs ∧ d.kind? v = d.kind? k := by
  obtain ⟨e, hocc⟩ := x.occurs hi
  obtain ⟨opened, ifs', v', rest, hifs', hstack, rfl, hstate⟩ := hocc.ifElse hop
  -- The branch has closed what it opened, so the conditional is the innermost one again.
  have hthen : (stateAt code j).ifs = ⟨k, height⟩ :: ifs := by
    rw [hs.replays.state_eq]
    exact hifs
  obtain ⟨rfl, rfl⟩ := List.cons.inj (hifs'.symm.trans hthen)
  obtain ⟨rfl, -⟩ := List.cons.inj (hs.replays.stack.symm.trans hstack)
  have hended : (state k).current.isEnded = false := by
    have h := hin.isEnded
    rwa [hopened] at h
  have hbranch := hs.emission
  rw [hopened] at hbranch
  obtain ⟨names', heq⟩ := Emission.emit_ifElse hop hended hbranch hknows (x.step hj hocc)
  refine ⟨names', heq, ⟨?_, ?_, ?_⟩, ?_, x.program.kind_of_branch hi (.inl hop) hthen hstack⟩
  · have hslots := hin.slots_eq
    rw [hopened] at hslots
    rw [heq]
    exact hslots
  · exact (frameOf_eq (by rw [openers_succ hi, hop])).trans (hin.along hs).frame_eq
  · rw [heq]
    exact hended
  · rw [hstate]
    exact hthen

/-- **A conditional has the code of its condition**, and then a branch. -/
theorem conditional {pos : Pos} {condition : Node} {thenBody elseBody : Option Node} {j q : Nat}
    (hc : Layout code m.Linked none (.expr condition) n k)
    (hs : code[k]? = some ⟨.ifStart, ⟨.conditional, pos⟩⟩)
    (ht : Layout code m.Linked none (.body ⟨.conditional, pos⟩ thenBody) (k + 1) j)
    (he : code[j]? = some ⟨.ifElse, ⟨.conditional, pos⟩⟩)
    (hf : Layout code m.Linked none (.body ⟨.conditional, pos⟩ elseBody) (j + 1) q)
    (hd : code[q]? = some ⟨.ifEnd, ⟨.conditional, pos⟩⟩) (hlink : m.Linked k j)
    (hlink' : m.Linked j q) (hq : q < limit)
    (ihc : PartEmitted code m d state (.expr condition) n k)
    (iht : PartEmitted code m d state (.body ⟨.conditional, pos⟩ thenBody) (k + 1) j)
    (ihf : PartEmitted code m d state (.body ⟨.conditional, pos⟩ elseBody) (j + 1) q) :
    PartEmitted code m d state (.expr (.conditional pos condition thenBody elseBody)) n
      (q + 1) := by
  intro slots frame hin hfit
  have hr := x.replayed
  have hthenLe := ht.le
  have helseLe := hf.le
  obtain ⟨is, os, left, h₁, hs₁⟩ := ihc slots frame hin hfit
  obtain ⟨r, o, rfl, rfl, -, -, -⟩ := hs₁.known (hs₁.leaves hr hc)
  have hin₁ := hin.along hs₁
  obtain ⟨t, names₁, hrt, heq₁, hin₂, hstate₁⟩ := x.opens hs₁ hs rfl (by omega) hin₁
  have hifs₁ := congrArg Replay.State.ifs hstate₁
  obtain ⟨js, os₁, left₁, h₂, hs₂⟩ := iht slots frame hin₂ hfit
  obtain ⟨v, rest₁, front₁, o₁, rfl, rfl, hknows₁, hkind₁⟩ := hs₂.known_last (hs₂.leaves hr ht)
  obtain ⟨names₂, heq₂, hin₄, hifs₂, hbranch₁⟩ :=
    x.turns heq₁ hifs₁ hs₂ hknows₁ he rfl (by omega) hin₂
  have hthen := hs₂.emission
  rw [heq₁] at hthen
  obtain ⟨ks, os₂, left₂, h₃, hs₃⟩ := ihf slots frame hin₄ hfit
  obtain ⟨w, rest₂, front₂, o₂, rfl, rfl, hknows₂, hkind₂⟩ := hs₃.known_last (hs₃.leaves hr hf)
  obtain ⟨e₃, hocc₃⟩ := x.occurs hd
  obtain ⟨opened', ifs', w', rest'', hifs', hstack₃, rfl, -⟩ := hocc₃.ifEnd rfl
  have hifs₃ : (stateAt code q).ifs = (stateAt code (j + 1)).ifs := by rw [hs₃.replays.state_eq]
  rw [hifs₂] at hifs₃
  obtain ⟨rfl, -⟩ := List.cons.inj (hifs'.symm.trans hifs₃)
  obtain ⟨rfl, -⟩ := List.cons.inj (hs₃.replays.stack.symm.trans hstack₃)
  have hbranch₂ := x.program.kind_of_branch hd (.inr rfl) hifs₃ hstack₃
  have hkind : d.kind? k = some o₁.kind := hbranch₁.symm.trans hkind₁
  -- Both values have the kind of the conditional.
  have hsame : o₂.kind = o₁.kind :=
    Option.some.inj (hkind₂.symm.trans (hbranch₂.trans hkind))
  have helse := hs₃.emission
  rw [heq₂] at helse
  obtain ⟨names₃, heq₃⟩ := Emission.emit_ifEnd rfl hin₁.isEnded helse hknows₂
    (Declarations.kindOf_of_kind? hkind) rfl hsame (x.step hq hocc₃)
  obtain ⟨hresult, hknows⟩ := Emission.extends_define
    ({ state q with
      current := { (state k).current with
        names := names₃
        code := .branch k (decide (t ≠ .nil)) js o₁ ks o₂ :: (state k).current.code } } : Emission)
    k "if" (.result k o₁.kind)
  rw [← heq₃] at hresult hknows
  have hle := hs₂.le
  have hle' := hs₃.le
  -- Nothing but the code and the names changes from before the conditional to behind it.
  have hclosed : (state k).Extends (state (q + 1)) k
      ([.branch k (decide (t ≠ .nil)) js o₁ ks o₂] ++ []) := by
    refine .trans ⟨⟨names₃, [], rfl⟩, ?_, ?_, ?_, ?_⟩ hresult (Nat.le_refl k)
    · exact helse.outer.trans hthen.outer
    · exact helse.isSound.trans hthen.isSound
    · exact fun r hr => (helse.values r (by omega)).trans (hthen.values r (by omega))
    · exact fun r hr => (helse.bodies r (by omega)).trans (hthen.bodies r (by omega))
  -- What the first branch has left is cut off, so the operands are those of the second one.
  have hboth := (hs₂.replays.ifElse hr hs rfl he rfl).trans hs₃.replays (by omega)
  rw [List.append_nil] at hboth
  have hreplays := Replays.ifEnd hr hs₁.replays hs₁.le hs rfl hboth hd rfl
  have hskip : ¬ Skipped code (q + 1) k := fun h =>
    not_skipped_succ hr
      (hboth.skipped k (Nat.lt_succ_self k) ((skipped_succ_iff hd (by simp)).mp h))
  have hmethods : MethodsFit code m d n (q + 1) (state q).bodies := by
    have hfirst := hs₁.methods.trans (.single hs (by simp)) fun _ _ => rfl
    have hsecond := hfirst.trans hs₂.methods hthen.bodies
    have hthird := hsecond.trans (.single he (by simp)) fun _ _ => rfl
    have hfourth := hthird.trans hs₃.methods helse.bodies
    exact hfourth.trans (.single hd (by simp)) fun _ _ => rfl
  have hbodies : (state (q + 1)).bodies = (state q).bodies := by rw [heq₃]; rfl
  refine ⟨_, _, _,
    .conditional h₁ hs h₂ he h₃ hd hlink hlink' ⟨r, _, hs₁.replays.stack, hrt⟩ rfl hsame,
    by have := hs₁.le; omega, hs₁.emission.trans hclosed hs₁.le, hreplays,
    .cons (.inr ⟨hskip, hknows, hkind⟩) .nil, hbodies ▸ hmethods⟩

/-! ### Parts -/

/-- **Every part of a program has native code.** -/
theorem emitted {p : Part} {inside : Option String} (h : Layout code m.Linked inside p n n')
    (hinside : inside = none) (hlimit : n' ≤ limit) : PartEmitted code m d state p n n' := by
  have hr := x.replayed
  -- On the layout: each part emits what its parts do, one behind the other.
  induction h with
  | @leaf inside y i n hy hi =>
    intro slots frame hin hfit
    cases y with
    | localRead pos name =>
      obtain rfl := Option.some.inj hy
      obtain ⟨kind, hget, hs⟩ := x.read hlimit hi rfl hin hfit
      exact ⟨_, _, _, .localRead hi hget, hs⟩
    | integer pos value | text pos value | nil pos =>
      obtain rfl := Option.some.inj hy
      exact ⟨_, _, _, .constant rfl hi rfl, x.constant hlimit hi rfl⟩
    | constant pos name =>
      obtain rfl := Option.some.inj hy
      exact absurd rfl (x.program.classless _ (List.mem_of_getElem? hi) name).2
    | _ => cases hy
  | call hreceiver hargs hi ihr ihargs =>
    intro slots frame hin hfit
    have hle := hargs.le
    obtain ⟨is, os, left, h₁, hs₁⟩ := ihr hinside (by omega) slots frame hin hfit
    obtain ⟨is', os', left', h₂, hs₂⟩ := ihargs hinside (by omega) slots frame (hin.along hs₁) hfit
    subst hinside
    -- Receiver and arguments are emitted before the call, in the scope they leave.
    obtain ⟨js, o, h, hs⟩ :=
      x.call hreceiver hargs hi h₁ hs₁ h₂ hs₂ hlimit ((hin.along hs₁).along hs₂)
    exact ⟨_, _, _, h, hs⟩
  | conditional hc hs ht he hf hd hlink hlink' ihc iht ihf =>
    subst hinside
    have hle := ht.le
    have hle' := hf.le
    exact x.conditional hc hs ht he hf hd hlink hlink' hlimit (ihc rfl (by omega))
      (iht rfl (by omega)) (ihf rfl (by omega))
  | absent hi =>
    intro slots frame hin hfit
    exact ⟨_, _, _, .absent hi, x.constant hlimit hi rfl⟩
  | present _ ih =>
    intro slots frame hin hfit
    obtain ⟨is, os, left, h, hs⟩ := ih hinside hlimit slots frame hin hfit
    exact ⟨_, _, _, .present h, hs⟩
  | noExprs => exact fun slots frame _ _ => ⟨_, _, _, .noExprs, .refl code m d state _⟩
  | moreExprs hy hys ihy ihys =>
    intro slots frame hin hfit
    have hle := hys.le
    obtain ⟨is, os, left, h₁, hs₁⟩ := ihy hinside (by omega) slots frame hin hfit
    obtain ⟨is', os', left', h₂, hs₂⟩ := ihys hinside hlimit slots frame (hin.along hs₁) hfit
    -- An expression leaves one operand, so the lists are appended.
    obtain ⟨r, o, rfl, rfl, -⟩ := hs₁.known (hs₁.leaves hr hy)
    exact ⟨_, _, _, .moreExprs h₁ h₂, hs₁.trans hr hs₂⟩
  | expression _ ih =>
    intro slots frame hin hfit
    obtain ⟨is, os, left, h, hs⟩ := ih hinside hlimit slots frame hin hfit
    exact ⟨_, _, _, .expression h, hs⟩
  | assign hv hi ih =>
    intro slots frame hin hfit
    obtain ⟨is, os, left, h, hs⟩ := ih hinside (Nat.le_of_lt hlimit) slots frame hin hfit
    obtain ⟨r, o, rfl, rfl, -, hknows, -⟩ := hs.known (hs.leaves hr hv)
    obtain ⟨hget, hs'⟩ := x.setVar hs hknows hlimit hi rfl (hin.along hs)
    exact ⟨_, _, _, .assign h hi hget rfl, hs'⟩
  | methodDef hs hn hp hb he hlink ih =>
    intro slots frame hin hfit
    subst hinside
    obtain ⟨v, h⟩ := x.method hs hn hp hb he hlimit (ih rfl (Nat.le_of_lt hlimit))
    exact ⟨_, _, _, .methodDef (.methodDef hs hn hp hb he hlink), h⟩
  | classDef hs _ _ _ _ => exact absurd rfl (x.program.classless _ (List.mem_of_getElem? hs) _).1
  | noStatements => exact fun slots frame _ _ => ⟨_, _, _, .noStatements, .refl code m d state _⟩
  | moreStatements _ hys ihy ihys =>
    intro slots frame hin hfit
    have hle := hys.le
    obtain ⟨is, os, left, h₁, hs₁⟩ := ihy hinside (by omega) slots frame hin hfit
    obtain ⟨is', os', left', h₂, hs₂⟩ := ihys hinside hlimit slots frame (hin.along hs₁) hfit
    exact ⟨_, _, _, .moreStatements h₁ h₂, hs₁.trans hr hs₂⟩
  | missing hi =>
    intro slots frame hin hfit
    exact ⟨_, _, _, .missing hi, x.constant hlimit hi rfl⟩
  | empty hi =>
    intro slots frame hin hfit
    exact ⟨_, _, _, .empty hi, x.constant hlimit hi rfl⟩
  | left hne _ hc ih =>
    intro slots frame hin hfit
    obtain ⟨is, os, left, h, hs⟩ := ih hinside hlimit slots frame hin hfit
    obtain ⟨front, o, rfl⟩ := h.has hne hc
    exact ⟨_, _, _, .left hne h hc, hs⟩
  | @closed inside owner pos ys i n k _ hc hi ih =>
    intro slots frame hin hfit
    obtain ⟨is, os, left, h, hs⟩ := ih hinside (Nat.le_of_lt hlimit) slots frame hin hfit
    -- The closing record of a body pushes nil, or reads the local that was assigned last.
    rcases op_of_closingLast hc with hop | ⟨name, hop⟩
    · have hs' := hs.trans hr (x.constant hlimit hi (o := .null) (by rw [hop]; rfl))
      rw [List.append_nil] at hs'
      exact ⟨_, _, _, .closedNil h hc hi hop, hs'⟩
    · obtain ⟨kind, hget, hread⟩ := x.read hlimit hi hop (hin.along hs) hfit
      exact ⟨_, _, _, .closedVar h hc hi hop hget, hs.trans hr hread⟩

end EmittedTo

end

end Rubylet.Native
