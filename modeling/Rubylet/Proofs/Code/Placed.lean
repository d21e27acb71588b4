import Rubylet.Proofs.Replay.Prescribed

/-!
# Calls where they stand

The calls of a program, found in two ways. `Node.placedCalls` reads them off the syntax: each call
with its record, its name, and the records of its receiver and of its arguments. `sentIn` reads them
off the events of a replay. Neither knows of the other, and they find the same calls in the same
order (`Layout.calling`): each of them once, wherever it stands.
-/

namespace Rubylet

open Replay

/-- A call of a program: where it stands, its name, and the records of its receiver and of its
arguments. -/
structure PlacedCall where
  record : Nat
  name : String
  receiver : Nat
  args : List Nat
  deriving Repr, DecidableEq, Inhabited

/-! ### Calls in the syntax -/

namespace Node

mutual

/-- The calls in a piece of syntax whose first record has a number, in text order: a call stands
behind those in its receiver and in its arguments. -/
def placedCalls (n : Nat) : Node → List PlacedCall
  | .block _ statements => placedCallsAll n statements
  | .call _ receiver name args =>
    let start := n + countReceiver receiver
    placedCallsIn n receiver ++ placedCallsAll start args ++
      [⟨start + countAll args, name, receiverRecord n receiver, valueRecords start args⟩]
  | .methodDef _ _ params body => placedCallsIn (n + 1 + 2 * params.length) body
  | .classDef _ _ body => body.placedCalls (n + 1)
  | .conditional _ condition thenBody elseBody =>
    condition.placedCalls n ++
      placedCallsIn (n + condition.count + 1) thenBody ++
      placedCallsIn (n + condition.count + 1 + countBody thenBody + 1) elseBody
  | .assign _ _ value => value.placedCalls n
  | _ => []

/-- The calls in several pieces of syntax. -/
def placedCallsAll (n : Nat) : List Node → List PlacedCall
  | [] => []
  | x :: xs => x.placedCalls n ++ placedCallsAll (n + x.count) xs

/-- The calls in a piece of syntax that may be missing. -/
def placedCallsIn (n : Nat) : Option Node → List PlacedCall
  | none => []
  | some x => x.placedCalls n

end

end Node

/-- The calls in a part. -/
def Part.placedCalls (n : Nat) : Part → List PlacedCall
  | .expr x | .statement x => x.placedCalls n
  | .exprs xs | .statements xs => Node.placedCallsAll n xs
  | .receiver _ r => Node.placedCallsIn n r
  | .body _ b => Node.placedCallsIn n b

/-! ### Calls in a replay -/

namespace Replay

/-- The name in an instruction. -/
def nameAt (code : List Instruction) (n : Nat) : String :=
  ((code[n]?).bind fun i => i.op.name?).getD ""

/-- Is the event one of a call? -/
def Event.isSend : Event → Bool
  | .send _ _ => true
  | _ => false

/-- The calls among some events, the first of which has a number. -/
def sentIn (code : List Instruction) (n : Nat) : List Event → List PlacedCall
  | [] => []
  | .send r args :: es => ⟨n, nameAt code n, r, args⟩ :: sentIn code (n + 1) es
  | _ :: es => sentIn code (n + 1) es

variable {code : List Instruction} {n k n' : Nat} {e : Event} {es fs : List Event}
  {cs cs' : List PlacedCall} {c : PlacedCall}

theorem sentIn_cons (he : e.isSend = false) : sentIn code n (e :: es) = sentIn code (n + 1) es := by
  cases e <;> first | rfl | cases he

/-- The sends of two runs of events, the second counted from where the first ends. -/
theorem sentIn_append (n : Nat) (es fs : List Event) :
    sentIn code n (es ++ fs) = sentIn code n es ++ sentIn code (n + es.length) fs := by
  -- On the first run, whose every event moves the position by one.
  induction es generalizing n with
  | nil => rfl
  | cons e es ih =>
    have hrest : sentIn code (n + 1) (es ++ fs) =
        sentIn code (n + 1) es ++ sentIn code (n + (e :: es).length) fs := by
      rw [ih, List.length_cons]
      congr 2
      omega
    cases e with
    | send r args => rw [List.cons_append, sentIn, sentIn, hrest, List.cons_append]
    | _ => exact hrest

/-- A call that is found has an event of its own. -/
theorem mem_sentIn (h : c ∈ sentIn code n es) :
    ∃ k, c.record = n + k ∧ es[k]? = some (.send c.receiver c.args) ∧
      c.name = nameAt code c.record := by
  induction es generalizing n with
  | nil => cases h
  | cons e es ih =>
    -- A call among the later events is found one further on.
    have later : c ∈ sentIn code (n + 1) es → ∃ k, c.record = n + k ∧
        (e :: es)[k]? = some (.send c.receiver c.args) ∧ c.name = nameAt code c.record := by
      intro hc
      obtain ⟨k, hk, hevent, hname⟩ := ih hc
      exact ⟨k + 1, by omega, hevent, hname⟩
    cases e with
    | send r args =>
      rcases List.mem_cons.mp h with rfl | h
      · exact ⟨0, rfl, rfl, rfl⟩
      · exact later h
    | _ => exact later h

/-- Some events lead from one point to another, with some calls among them. -/
structure Calling (code : List Instruction) (n : Nat) (es : List Event) (n' : Nat)
    (cs : List PlacedCall) : Prop where
  reaches : n + es.length = n'
  sent : sentIn code n es = cs

namespace Calling

theorem refl (code : List Instruction) (n : Nat) : Calling code n [] n [] := ⟨rfl, rfl⟩

theorem trans (h : Calling code n es k cs) (h' : Calling code k fs n' cs') :
    Calling code n (es ++ fs) n' (cs ++ cs') := by
  obtain ⟨rfl, rfl⟩ := h
  obtain ⟨rfl, rfl⟩ := h'
  exact ⟨by rw [List.length_append, Nat.add_assoc], sentIn_append n es fs⟩

/-- An event that is no call. -/
theorem silent (he : e.isSend = false) : Calling code n [e] (n + 1) [] :=
  ⟨rfl, sentIn_cons he⟩

/-- One more event that is no call. -/
theorem skip (h : Calling code n es k cs) (he : e.isSend = false) :
    Calling code n (es ++ [e]) (k + 1) cs := by
  have := h.trans (silent he)
  rwa [List.append_nil] at this

theorem send {name : String} {count : Option Int} {origin : Origin} {r : Nat} {args : List Nat}
    (hi : code[n]? = some ⟨.send name count, origin⟩) :
    Calling code n [.send r args] (n + 1) [⟨n, name, r, args⟩] := by
  refine ⟨rfl, ?_⟩
  rw [sentIn, sentIn, nameAt, hi]
  rfl

/-- The parameters of a method call nothing. -/
theorem params (d : Nat) : ∀ (ps : List Param) (n : Nat),
    Calling code n (Node.paramEvents d n ps) (n + 2 * ps.length) [] := by
  intro ps
  induction ps with
  | nil => exact .refl code
  | cons p ps ih =>
    intro n
    have hboth : Calling code n [.pushArg d, .setVar n] (n + 2) [] := (silent rfl).skip rfl
    have h := hboth.trans (ih (n + 2))
    rwa [show n + 2 + 2 * ps.length = n + 2 * (p :: ps).length by rw [List.length_cons]; omega] at h

end Calling

end Replay

/-! ### Both find the same calls -/

section Layout

variable {code : List Instruction} {links : Nat → Nat → Prop} {inside : Option String}
  {p : Part} {n n' : Nat}

/-- An expression that is one instruction calls nothing. -/
theorem calling_leaf {x : Node} {i : Instruction} (hx : x.leaf? = some i) :
    Calling code n (x.events inside n) (n + 1) (x.placedCalls n) := by
  cases x <;> first | (cases hx; done) | exact .silent rfl

/-- What is pushed behind a body calls nothing. -/
theorem isSend_of_closing {xs : List Node} {e : Event} (he : Node.closingEvents xs = [e]) :
    e.isSend = false := by
  induction xs with
  | nil => cases he
  | cons x xs ih =>
    cases xs with
    | nil => cases x <;> cases he <;> rfl
    | cons y ys => exact ih he

/-- **The events that syntax prescribes hold its calls**, each of them once and in text order. The
proof goes by induction on the layout. -/
theorem Layout.calling (h : Layout code links inside p n n') :
    Calling code n (p.events inside n) n' (p.placedCalls n) := by
  induction h with
  | leaf hx _ => exact calling_leaf hx
  | @call inside pos r name args n k j hr hargs hi ihr ihargs =>
    obtain rfl := hr.eq_add_count
    obtain rfl := hargs.eq_add_count
    exact (ihr.trans ihargs).trans (.send hi)
  -- The three records of the branching itself send nothing, and are skipped.
  | @conditional inside pos c t e n k j m hc hstart ht helse he hend _ _ ihc iht ihe =>
    obtain rfl := hc.eq_add_count
    obtain rfl := ht.eq_add_count
    obtain rfl := he.eq_add_count
    exact ((((ihc.skip rfl).trans iht).skip rfl).trans ihe).skip rfl
  | absent hi | missing hi | empty hi => exact .silent rfl
  | present _ ih | expression _ ih => exact ih
  | noExprs | noStatements => exact .refl code _
  | @moreExprs _ x xs n k n' hx hxs ihx ihxs =>
    obtain rfl := hx.eq_add_count
    exact ihx.trans ihxs
  | @moreStatements _ x xs n k n' hx hxs ihx ihxs =>
    obtain rfl := hx.eq_add_count
    exact ihx.trans ihxs
  | assign hv hi ih => exact ih.skip rfl
  | @methodDef inside pos name params body n j hstart _ hparams hb hend _ ih =>
    have hopen : Calling code n [.defStart inside] (n + 1) [] := .silent rfl
    exact ((hopen.trans (.params n params (n + 1))).trans ih).skip rfl
  | @classDef pos name start statements n j hstart hb hend _ ih =>
    have hopen : Calling code n [.classStart] (n + 1) [] := .silent rfl
    exact (hopen.trans ih).skip rfl
  | @left inside owner pos xs n n' hne hxs hc ih =>
    -- The last statement leaves its value, so nothing is pushed behind the body.
    rw [Part.events, bodyEvents_block hne, (value_left hne hc n).1, List.append_nil]
    exact ih
  | @closed inside owner pos xs i n k hxs hc hi ih =>
    obtain ⟨-, e, hevents, -⟩ := closing_pushes hc n
    have hne : xs ≠ [] := by rintro rfl; cases hc
    rw [Part.events, bodyEvents_block hne, hevents]
    exact ih.skip (isSend_of_closing hevents)

/-- **The calls of a program** are those of the events in the replay of its code. -/
theorem Layout.sentIn_eq {statements : List Node}
    (h : Layout code links none (.statements statements) 0 code.length) :
    sentIn code 0 ((trace code).steps.map Step.event) = Node.placedCallsAll 0 statements := by
  obtain ⟨_, -, hpasses⟩ := h.passes .initial rfl
  rw [show (trace code).steps.map Step.event = _ from (hpasses.trace_eq rfl).2.1]
  exact h.calling.sent

end Layout

end Rubylet
