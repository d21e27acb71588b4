import Mathlib.Logic.Relation
import Rubylet.Proofs.Code.Compiled
import Rubylet.Proofs.Code.Replayed

/-!
# Syntax recovered from a replay

Lowered code holds no structure: a replay has to find out from the order of the instructions alone
what each of them consumes. This module says, by recursion on the syntax and without any stack, what
it ought to find, and proves that it does.

* `Node.events` are the events that syntax prescribes. The record of an expression's value is its
  last one, or the one that opens it for a conditional (`Node.valueRecord`); that of a body is the
  one of its last statement's value (`Node.bodyRecord`).
* `Node.left` are the records that a statement leaves behind.
* `replay_as_prescribed`: the replay of a program's code meets no error, sees these events, and
  ends with nothing open and with the records that the statements leave. The only programs that
  cannot be lowered are those with a class that stands in a class, at any depth.
-/

namespace Rubylet

open Replay Lowering

/-! ### What syntax prescribes -/

namespace Node

/-- The record of the value of an expression whose first record has a number. -/
def valueRecord (n : Nat) : Node → Nat
  | .conditional _ condition _ _ => n + condition.count
  | x => n + x.count - 1

/-- The records of the values of several expressions, from left to right. -/
def valueRecords (n : Nat) : List Node → List Nat
  | [] => []
  | x :: xs => x.valueRecord n :: valueRecords (n + x.count) xs

/-- The record of a receiver; a missing one has a record of its own. -/
def receiverRecord (n : Nat) : Option Node → Nat
  | none => n
  | some x => x.valueRecord n

/-- Is it a statement that has no value of its own? -/
def isAction : Node → Bool
  | .assign _ _ _ | .methodDef _ _ _ _ | .classDef _ _ _ => true
  | _ => false

/-- The record of the value of some statements, taken as a body: that of the last one if it is an
expression, and else the one that stands behind it. No statements have a record as well. -/
def lastRecord (n : Nat) : List Node → Nat
  | [] => n
  | [x] => if x.isAction then n + x.count else x.valueRecord n
  | x :: y :: rest => lastRecord (n + x.count) (y :: rest)

/-- The record of the value of the body of a method or a branch. -/
def bodyRecord (n : Nat) : Option Node → Nat
  | none => n
  | some (.block _ statements) => lastRecord n statements
  | some x => lastRecord n [x]

/-- The records that a statement leaves. -/
def left (n : Nat) : Node → List Nat
  | .assign _ _ _ | .classDef _ _ _ => []
  | .methodDef _ _ params body => [bodyRecord (n + 1 + 2 * params.length) body]
  | x => [x.valueRecord n]

/-- The records that several statements leave, in their order. -/
def leftAll (n : Nat) : List Node → List Nat
  | [] => []
  | x :: xs => x.left n ++ leftAll (n + x.count) xs

/-- The events of the parameters of a method: each takes its argument into a local. -/
def paramEvents (method n : Nat) : List Param → List Event
  | [] => []
  | _ :: rest => .pushArg method :: .setVar n :: paramEvents method (n + 2) rest

/-- The event behind a body that ends in a statement. -/
def closingEvent : Node → List Event
  | .assign _ _ _ => [.pushVar]
  | .methodDef _ _ _ _ | .classDef _ _ _ => [.literal]
  | _ => []

/-- The event behind a body, by its last statement. -/
def closingEvents : List Node → List Event
  | [] => []
  | [x] => x.closingEvent
  | _ :: y :: rest => closingEvents (y :: rest)

mutual

/-- The events of a piece of syntax, inside a class or not, whose first record has a number. -/
def events (inside : Option String) (n : Nat) : Node → List Event
  | .block _ statements => eventsAll inside n statements
  | .call _ receiver _ args =>
    receiverEvents inside n receiver ++ eventsAll inside (n + countReceiver receiver) args ++
      [.send (receiverRecord n receiver) (valueRecords (n + countReceiver receiver) args)]
  | .methodDef _ _ params body =>
    let start := n + 1 + 2 * params.length
    [.defStart inside] ++ paramEvents n (n + 1) params ++ bodyEvents inside start body ++
      [.defEnd n (bodyRecord start body)]
  | .classDef _ name body => [.classStart] ++ body.events (some name) (n + 1) ++ [.classEnd n]
  | .conditional _ condition thenBody elseBody =>
    let opened := n + condition.count
    let other := opened + 1 + countBody thenBody
    condition.events inside n ++ [.ifStart (condition.valueRecord n)] ++
      bodyEvents inside (opened + 1) thenBody ++
      [.ifElse opened (bodyRecord (opened + 1) thenBody)] ++
      bodyEvents inside (other + 1) elseBody ++ [.ifEnd opened (bodyRecord (other + 1) elseBody)]
  | .assign _ _ value => value.events inside n ++ [.setVar (value.valueRecord n)]
  | .localRead _ _ => [.pushVar]
  | .constant _ _ => [.pushConst]
  | .integer _ _ | .text _ _ | .nil _ => [.literal]
  | .argument _ | .unsupported _ _ _ | .foreign _ => []

/-- The events of several pieces of syntax. -/
def eventsAll (inside : Option String) (n : Nat) : List Node → List Event
  | [] => []
  | x :: xs => x.events inside n ++ eventsAll inside (n + x.count) xs

/-- The events of a receiver. -/
def receiverEvents (inside : Option String) (n : Nat) : Option Node → List Event
  | none => [.literal]
  | some x => x.events inside n

/-- The events of a body. -/
def bodyEvents (inside : Option String) (n : Nat) : Option Node → List Event
  | none | some (.block _ []) => [.literal]
  | some (.block _ (x :: xs)) =>
    x.events inside n ++ eventsAll inside (n + x.count) xs ++ closingEvents (x :: xs)
  | some x => x.events inside n ++ closingEvents [x]

end

/-! ### Classes in classes -/

/-- The pieces of syntax right inside a piece of syntax. -/
def children : Node → List Node
  | .block _ statements => statements
  | .call _ receiver _ args => receiver.toList ++ args
  | .methodDef _ _ _ body => body.toList
  | .classDef _ _ body => [body]
  | .conditional _ condition thenBody elseBody =>
    condition :: (thenBody.toList ++ elseBody.toList)
  | .assign _ _ value => [value]
  | _ => []

/-- One piece of syntax is another one, or stands in it at any depth. -/
def Encloses : Node → Node → Prop := Relation.ReflTransGen fun x y => y ∈ x.children

/-- A class stands in another class, named `outer`, somewhere in a piece of syntax. -/
def NestsClass (x : Node) (pos : Pos) (name outer : String) : Prop :=
  ∃ pos' body inner, x.Encloses (.classDef pos' outer body) ∧
    body.Encloses (.classDef pos name inner)

/-- A tree encloses itself and whatever its children enclose. -/
theorem encloses_iff {x y : Node} : x.Encloses y ↔ x = y ∨ ∃ z ∈ x.children, z.Encloses y := by
  constructor
  · intro h
    rcases Relation.ReflTransGen.cases_head h with rfl | ⟨z, hz, h⟩
    · exact .inl rfl
    · exact .inr ⟨z, hz, h⟩
  · rintro (rfl | ⟨z, hz, h⟩)
    · exact .refl
    · exact .head hz h

theorem children_of_leaf {x : Node} {i : Instruction} (h : x.leaf? = some i) : x.children = [] := by
  cases x <;> first | rfl | cases h

end Node

/-! ### Lowering fails for classes in classes only -/

/-- The pieces of syntax that a part consists of. -/
def Part.nodes : Part → List Node
  | .expr x | .statement x => [x]
  | .exprs xs | .statements xs => xs
  | .receiver _ r => r.toList
  | .body _ b => b.toList

/-- A piece of syntax stands in a part. -/
def Part.Encloses (p : Part) (y : Node) : Prop := ∃ x ∈ p.nodes, x.Encloses y

namespace Part

variable {p q : Part} {x y : Node} {inside : Option String} {e : CompileError}

theorem Encloses.of_mem (hx : x ∈ p.nodes) (h : x.Encloses y) : p.Encloses y := ⟨x, hx, h⟩

theorem Encloses.of_child {z : Node} (hx : x ∈ p.nodes) (hz : z ∈ x.children)
    (h : z.Encloses y) : p.Encloses y := ⟨x, hx, Node.encloses_iff.mpr (.inr ⟨z, hz, h⟩)⟩

/-- What stands in a smaller part stands in the larger one. -/
theorem Encloses.within (hq : ∀ z ∈ q.nodes, p.Encloses z) (h : q.Encloses y) : p.Encloses y := by
  obtain ⟨z, hz, h⟩ := h
  obtain ⟨x, hx, hxz⟩ := hq z hz
  exact ⟨x, hx, hxz.trans h⟩

/-- A part is refused, since a class in it stands in a class: in the one around the part, or in one
that is in the part too. -/
def Refused (inside : Option String) (p : Part) (e : CompileError) : Prop :=
  ∃ pos name outer, e = .atOrigin ⟨.classDef, pos⟩ (.nestedClass name outer) ∧
    ((inside = some outer ∧ ∃ inner, p.Encloses (.classDef pos name inner)) ∨
      ∃ pos' body inner, p.Encloses (.classDef pos' outer body) ∧
        body.Encloses (.classDef pos name inner))

/-- What is refused in a part is refused in every part that encloses it. -/
theorem Refused.within (hq : ∀ z ∈ q.nodes, p.Encloses z) (h : q.Refused inside e) :
    p.Refused inside e := by
  obtain ⟨pos, name, outer, he, ⟨hin, inner, h⟩ | ⟨pos', body, inner, hbody, h⟩⟩ := h
  · exact ⟨pos, name, outer, he, .inl ⟨hin, inner, h.within hq⟩⟩
  · exact ⟨pos, name, outer, he, .inr ⟨pos', body, inner, hbody.within hq, h⟩⟩

end Part

/-- **Nothing but a class in a class is refused.** -/
theorem refused_of_lower {p : Part} (h : Surface p) :
    ∀ {inside : Option String} {e : CompileError}, p.lower inside = .error e →
      p.Refused inside e := by
  -- Lowering fails in one of the parts, and what is enclosed by a part is enclosed by the whole.
  induction h with
  | @call pos r name args _ _ ihr ihargs =>
    intro inside e hl
    rcases error_of_bind_eq_error hl with hl | ⟨_, -, hl⟩
    · exact (ihr hl).within fun z hz =>
        .of_child (.head _) (List.mem_append_left _ hz) .refl
    rcases error_of_bind_eq_error hl with hl | ⟨_, -, hl⟩
    · exact (ihargs hl).within fun z hz =>
        .of_child (.head _) (List.mem_append_right _ hz) .refl
    · cases hl
  | @conditional pos c t e' _ _ _ ihc iht ihe =>
    intro inside e hl
    rcases error_of_bind_eq_error hl with hl | ⟨_, -, hl⟩
    · exact (ihc hl).within fun z hz => .of_child (.head _)
        (List.mem_cons.mpr (.inl (List.mem_singleton.mp hz))) .refl
    rcases error_of_bind_eq_error hl with hl | ⟨_, -, hl⟩
    · exact (iht hl).within fun z hz => .of_child (.head _)
        (List.mem_cons_of_mem _ (List.mem_append_left _ hz)) .refl
    rcases error_of_bind_eq_error hl with hl | ⟨_, -, hl⟩
    · exact (ihe hl).within fun z hz => .of_child (.head _)
        (List.mem_cons_of_mem _ (List.mem_append_right _ hz)) .refl
    · cases hl
  | localRead | integer | text | nil | constant | absent | noExprs | noStatements | missing =>
    intro inside e hl
    cases hl
  | present _ ih | expression _ ih =>
    intro inside e hl
    exact (ih hl).within fun z hz => .of_mem hz .refl
  | moreExprs _ _ ihx ihxs | moreStatements _ _ ihx ihxs =>
    intro inside e hl
    rcases error_of_bind_eq_error hl with hl | ⟨_, -, hl⟩
    · exact (ihx hl).within fun z hz =>
        .of_mem (List.mem_cons.mpr (.inl (List.mem_singleton.mp hz))) .refl
    rcases error_of_bind_eq_error hl with hl | ⟨_, -, hl⟩
    · exact (ihxs hl).within fun z hz => .of_mem (List.mem_cons_of_mem _ hz) .refl
    · cases hl
  | assign _ ih =>
    intro inside e hl
    rcases error_of_bind_eq_error hl with hl | ⟨_, -, hl⟩
    · exact (ih hl).within fun z hz => .of_child (.head _) hz .refl
    · cases hl
  | methodDef _ _ ih =>
    intro inside e hl
    rcases error_of_bind_eq_error hl with hl | ⟨_, -, hl⟩
    · exact (ih hl).within fun z hz => .of_child (.head _) hz .refl
    · cases hl
  | @classDef pos name start statements _ ih =>
    intro inside e hl
    -- The statements stand in the block of the class.
    have hsub : ∀ z ∈ (Part.statements statements).nodes,
        (Node.block start statements).Encloses z := fun z hz =>
      Node.encloses_iff.mpr (.inr ⟨z, hz, .refl⟩)
    have hwithin : ∀ z ∈ (Part.statements statements).nodes,
        (Part.statement (.classDef pos name (.block start statements))).Encloses z :=
      fun z hz => .of_child (.head _) (.head _) (hsub z hz)
    cases inside with
    | some outer =>
      -- The class itself is the one that may not stand here.
      obtain rfl := Except.error.inj hl
      exact ⟨pos, name, outer, rfl, .inl ⟨rfl, _, .of_mem (.head _) .refl⟩⟩
    | none =>
      rcases error_of_bind_eq_error hl with hl | ⟨_, -, hl⟩
      -- Either a class stands in the body of this one, or in that of one further within.
      · obtain ⟨pos', name', outer, he, ⟨hin, inner, x, hx, h⟩ | ⟨pos'', body, inner, hbody, h⟩⟩ :=
          ih hl
        · obtain rfl := Option.some.inj hin
          exact ⟨pos', name', name, he, .inr ⟨pos, _, inner, .of_mem (.head _) .refl,
            (hsub x hx).trans h⟩⟩
        · exact ⟨pos', name', outer, he, .inr ⟨pos'', body, inner, hbody.within hwithin, h⟩⟩
      · cases hl
  | @block owner pos statements _ ih =>
    intro inside e hl
    cases statements with
    | nil => cases hl
    | cons x xs =>
      rcases error_of_bind_eq_error hl with hl | ⟨_, -, hl⟩
      · exact (ih hl).within fun z hz => .of_child (.head _) hz .refl
      · cases hl

/-- A class that is laid out stands in no class, and has none in its body. -/
theorem Layout.classDef_alone {code : List Instruction} {links : Nat → Nat → Prop}
    {inside : Option String} {p : Part} {n n' : Nat} (h : Layout code links inside p n n')
    {pos : Pos} {name : String} {body : Node} (hp : p.Encloses (.classDef pos name body)) :
    inside = none ∧ ∀ pos' name' inner, ¬ body.Encloses (.classDef pos' name' inner) := by
  obtain ⟨x, hx, hx'⟩ := hp
  -- The definition is the part itself or is enclosed by one of its children.
  induction h generalizing x pos name body with
  | leaf hleaf _ =>
    obtain rfl := List.mem_singleton.mp hx
    rcases Node.encloses_iff.mp hx' with rfl | ⟨z, hz, -⟩
    · cases hleaf
    · rw [Node.children_of_leaf hleaf] at hz
      cases hz
  | call _ _ _ ihr ihargs =>
    obtain rfl := List.mem_singleton.mp hx
    rcases Node.encloses_iff.mp hx' with h | ⟨z, hz, hz'⟩
    · cases h
    · rcases List.mem_append.mp hz with hz | hz
      · exact ihr z hz hz'
      · exact ihargs z hz hz'
  | conditional _ _ _ _ _ _ _ _ ihc iht ihf =>
    obtain rfl := List.mem_singleton.mp hx
    rcases Node.encloses_iff.mp hx' with h | ⟨z, hz, hz'⟩
    · cases h
    · rcases List.mem_cons.mp hz with rfl | hz
      · exact ihc z (.head _) hz'
      rcases List.mem_append.mp hz with hz | hz
      · exact iht z hz hz'
      · exact ihf z hz hz'
  | absent | noExprs | noStatements | missing => cases hx
  | present _ ih | expression _ ih => exact ih x hx hx'
  | moreExprs _ _ ihx ihxs | moreStatements _ _ ihx ihxs =>
    rcases List.mem_cons.mp hx with rfl | hx
    · exact ihx x (.head _) hx'
    · exact ihxs x hx hx'
  | assign _ _ ih | methodDef _ _ _ _ _ _ ih | left _ _ _ ih | closed _ _ _ ih =>
    obtain rfl := List.mem_singleton.mp hx
    rcases Node.encloses_iff.mp hx' with h | ⟨z, hz, hz'⟩
    · cases h
    · exact ih z hz hz'
  | empty _ =>
    obtain rfl := List.mem_singleton.mp hx
    rcases Node.encloses_iff.mp hx' with h | ⟨z, hz, -⟩
    · cases h
    · cases hz
  | @classDef _ _ start statements _ _ _ _ _ _ ih =>
    obtain rfl := List.mem_singleton.mp hx
    -- In the body of this class the induction hypothesis leaves no room for another one.
    have hnone : ∀ z ∈ statements, ∀ pos' name' inner,
        ¬ z.Encloses (.classDef pos' name' inner) := fun z hz pos' name' inner h =>
      Option.some_ne_none _ (ih z hz h).1
    have hblock : ∀ pos' name' inner,
        ¬ (Node.block start statements).Encloses (.classDef pos' name' inner) := by
      intro pos' name' inner h
      rcases Node.encloses_iff.mp h with h | ⟨z, hz, hz'⟩
      · cases h
      · exact hnone z hz _ _ _ hz'
    rcases Node.encloses_iff.mp hx' with h | ⟨z, hz, hz'⟩
    · obtain ⟨rfl, rfl, rfl⟩ := Node.classDef.inj h
      exact ⟨rfl, hblock⟩
    · obtain rfl := List.mem_singleton.mp hz
      exact absurd hz' (hblock _ _ _)

/-! ### Stretches of a replay -/

namespace Replay

/-- The state in which some more records stand on the operands. -/
def State.leave (s : State) (records : List Nat) : State := { s with stack := records ++ s.stack }

@[simp] theorem State.leave_nil (s : State) : s.leave [] = s := rfl

theorem State.leave_leave (s : State) (xs ys : List Nat) :
    (s.leave xs).leave ys = s.leave (ys ++ xs) := by
  simp only [leave, List.append_assoc]

theorem State.truncate_leave (s : State) (xs : List Nat) :
    OperandStack.truncate s.stack.length (s.leave xs).stack = s.stack := by
  rw [OperandStack.truncate, leave, List.length_append, Nat.add_sub_cancel, List.drop_left]

/-- Above a height that the operands had, what came on top of them is popped. -/
theorem height_lt_leave (s : State) (v : Nat) (rest : List Nat) :
    s.stack.length < (s.leave (v :: rest)).stack.length := by
  rw [State.leave, List.length_append, List.length_cons]
  omega

/-- From a point and a state, a replay comes to another point and state, by some events. -/
inductive Passes (code : List Instruction) : Nat → State → List Event → Nat → State → Prop
  | refl {n s} : Passes code n s [] n s
  | next {n s i e s₁ es n' s'} : code[n]? = some i → Replay.step n i s = .ok (e, s₁) →
      Passes code (n + 1) s₁ es n' s' → Passes code n s (e :: es) n' s'

namespace Passes

variable {code : List Instruction} {n k n' : Nat} {s s₀ s₁ s' : State} {es fs : List Event}
  {i : Instruction} {e : Event}

theorem single (hi : code[n]? = some i) (hs : Replay.step n i s = .ok (e, s')) :
    Passes code n s [e] (n + 1) s' := .next hi hs .refl

/-- Two stretches are passed in turn, with the events of both. -/
theorem trans (h : Passes code n s es k s₁) (h' : Passes code k s₁ fs n' s') :
    Passes code n s (es ++ fs) n' s' := by
  induction h with
  | refl => exact h'
  | next hi hs _ ih => exact .next hi hs (ih h')

/-- One more instruction. -/
theorem snoc (h : Passes code n s es k s₁) (hi : code[k]? = some i)
    (hs : Replay.step k i s₁ = .ok (e, s')) : Passes code n s (es ++ [e]) (k + 1) s' :=
  h.trans (.single hi hs)

/-- A replay that passes through all of the code is its trace. -/
theorem trace_eq (h : Passes code n s es n' s') (hend : n' = code.length) :
    (traceFrom n s (code.drop n)).error? = none ∧
      (traceFrom n s (code.drop n)).steps.map Step.event = es ∧
      (traceFrom n s (code.drop n)).final = s' := by
  -- On the passage: its steps are the steps of the trace.
  induction h with
  | refl =>
    rw [hend, List.drop_length]
    exact ⟨rfl, rfl, rfl⟩
  | @next n s i e s₁ es n' s' hi hs _ ih =>
    obtain ⟨hlt, rfl⟩ := List.getElem?_eq_some_iff.mp hi
    obtain ⟨herror, hevents, hfinal⟩ := ih hend
    rw [List.drop_eq_getElem_cons hlt]
    simp only [traceFrom, hs, Trace.cons]
    exact ⟨herror, by rw [List.map_cons, hevents], hfinal⟩

/-! What single instructions do to a state that holds their operands. -/

theorem setVar {v : Nat} {name : String} (h : Passes code n s₀ es k (s.leave [v]))
    (hi : code[k]? = some i) (ho : i.op = .setVar name) :
    Passes code n s₀ (es ++ [.setVar v]) (k + 1) s := by
  refine h.snoc hi (step_eq_ok_iff.mpr ?_)
  rw [ho]
  exact .setVar rfl

theorem send {name : String} {r : Nat} {args : List Nat}
    (h : Passes code n s₀ es k (s.leave (args.reverse ++ [r]))) (hi : code[k]? = some i)
    (ho : i.op = .send name (some args.length)) :
    Passes code n s₀ (es ++ [.send r args]) (k + 1) (s.leave [k]) := by
  refine h.snoc hi (step_eq_ok_iff.mpr ?_)
  rw [ho]
  exact .send (List.append_assoc _ _ _) rfl

theorem ifElse {v opened : Nat} {rest : List Nat} {ifs : List OpenIf}
    (h : Passes code n s₀ es k (s.leave (v :: rest))) (hs : s.ifs = ⟨opened, s.stack.length⟩ :: ifs)
    (hi : code[k]? = some i) (ho : i.op = .ifElse) :
    Passes code n s₀ (es ++ [.ifElse opened v]) (k + 1) s := by
  have hstep : Steps k (s.leave (v :: rest)) .ifElse (.ifElse opened v)
      { s with stack := OperandStack.truncate s.stack.length (s.leave rest).stack } :=
    Steps.ifElse (s := s.leave (v :: rest)) hs rfl (height_lt_leave s v rest)
  rw [State.truncate_leave] at hstep
  exact h.snoc hi (step_eq_ok_iff.mpr (ho ▸ hstep))

theorem ifEnd {v opened : Nat} {rest : List Nat} {ifs : List OpenIf}
    (h : Passes code n s₀ es k (s.leave (v :: rest))) (hs : s.ifs = ⟨opened, s.stack.length⟩ :: ifs)
    (hi : code[k]? = some i) (ho : i.op = .ifEnd) :
    Passes code n s₀ (es ++ [.ifEnd opened v]) (k + 1) { s.leave [opened] with ifs } := by
  have hstep : Steps k (s.leave (v :: rest)) .ifEnd (.ifEnd opened v)
      { s with stack := opened :: OperandStack.truncate s.stack.length (s.leave rest).stack, ifs } :=
    Steps.ifEnd (s := s.leave (v :: rest)) hs rfl (height_lt_leave s v rest)
  rw [State.truncate_leave] at hstep
  exact h.snoc hi (step_eq_ok_iff.mpr (ho ▸ hstep))

end Passes

end Replay

/-! ### A part is replayed as prescribed -/

namespace Part

/-- The events of a part. -/
def events (inside : Option String) (n : Nat) : Part → List Event
  | .expr x | .statement x => x.events inside n
  | .exprs xs | .statements xs => Node.eventsAll inside n xs
  | .receiver _ r => Node.receiverEvents inside n r
  | .body _ b => Node.bodyEvents inside n b

/-- The records that a part puts on the operands, the last one first. Below its value, a body may
leave others. -/
def Puts (n : Nat) : Part → List Nat → Prop
  | .expr x => fun records => records = [x.valueRecord n]
  | .exprs xs => fun records => records = (Node.valueRecords n xs).reverse
  | .receiver _ r => fun records => records = [Node.receiverRecord n r]
  | .statement x => fun records => records = x.left n
  | .statements xs => fun records => records = (Node.leftAll n xs).reverse
  | .body _ b => fun records => ∃ rest, records = Node.bodyRecord n b :: rest

end Part

section Prescribed

variable {code : List Instruction} {links : Nat → Nat → Prop} {inside : Option String}
  {p : Part} {n n' : Nat}

/-- Every statement has a record for its value. -/
theorem length_valueRecords (xs : List Node) (n : Nat) :
    (Node.valueRecords n xs).length = xs.length := by
  induction xs generalizing n with
  | nil => rfl
  | cons x xs ih => rw [Node.valueRecords, List.length_cons, ih, List.length_cons]

/-- A single instruction pushes its own record. -/
theorem passes_leaf {x : Node} {i : Instruction} (hx : x.leaf? = some i) (hi : code[n]? = some i)
    (s : State) : Passes code n s (x.events inside n) (n + 1) (s.leave [x.valueRecord n]) := by
  cases x <;> first | (cases hx; done) | (cases hx; exact .single hi rfl)

/-- What is laid out as an expression leaves its value. -/
theorem left_of_layout {x : Node} (h : Layout code links inside (.expr x) n n') :
    x.left n = [x.valueRecord n] := by
  cases h with
  | leaf hx _ => cases x <;> first | rfl | cases hx
  | call => rfl
  | conditional => rfl

/-- A statement leaves one record at most. -/
theorem left_reverse (x : Node) (n : Nat) : (x.left n).reverse = x.left n := by
  cases x <;> rfl

/-- The parameters are taken into locals, and leave nothing. -/
theorem passes_params {d : Nat} {defs : List Nat} (s : State) (hs : s.defs = d :: defs) :
    ∀ (ps : List Param) (n : Nat), ParamsAt code n ps →
      Passes code n s (Node.paramEvents d n ps) (n + 2 * ps.length) s := by
  intro ps
  induction ps with
  | nil => exact fun n _ => .refl
  | cons p ps ih =>
    intro n h
    -- The parameter is pushed for the definition that is open, and stored.
    have harg : step n ⟨.pushArg p.index, p.origin⟩ s = .ok (.pushArg d, s.leave [n]) := by
      simp only [step, hs]
      rfl
    have hrest := ih (n + 2) (CodeAt.tail (CodeAt.tail h))
    rw [show n + 2 + 2 * ps.length = n + 2 * (p :: ps).length by
      rw [List.length_cons]; omega] at hrest
    exact .next (CodeAt.head h) harg (.next (CodeAt.head (CodeAt.tail h)) rfl hrest)

/-- If the last of some statements leaves a value, that is what they leave last. -/
theorem value_left {xs : List Node} (hne : xs ≠ []) (hc : closingLast xs = []) :
    ∀ n, Node.closingEvents xs = [] ∧
      ∃ rest, (Node.leftAll n xs).reverse = Node.lastRecord n xs :: rest := by
  induction xs with
  | nil => exact absurd rfl hne
  | cons x xs ih =>
    intro n
    -- Only the last statement counts, and those before it lie below what it leaves.
    cases xs with
    | nil =>
      rw [closingLast_singleton] at hc
      cases x <;> first | exact ⟨rfl, [], rfl⟩ | cases hc
    | cons y ys =>
      rw [closingLast_cons] at hc
      obtain ⟨hevents, rest, hrest⟩ := ih (List.cons_ne_nil y ys) hc (n + x.count)
      refine ⟨hevents, rest ++ (x.left n).reverse, ?_⟩
      rw [Node.leftAll, List.reverse_append, hrest]
      rfl

/-- What is pushed behind a body is its value. -/
theorem closing_pushes {xs : List Node} {i : Instruction} (hc : closingLast xs = [i]) :
    ∀ n, Node.lastRecord n xs = n + Node.countAll xs ∧
      ∃ e, Node.closingEvents xs = [e] ∧ ∀ k s, step k i s = .ok (e, s.push k) := by
  induction xs with
  | nil => cases hc
  | cons x xs ih =>
    intro n
    -- Only the last statement has a closing record.
    cases xs with
    | nil =>
      rw [closingLast_singleton] at hc
      cases x <;> first | (cases hc; done) | (cases hc; exact ⟨rfl, _, rfl, fun _ _ => rfl⟩)
    | cons y ys =>
      rw [closingLast_cons] at hc
      obtain ⟨hlast, he⟩ := ih hc (n + x.count)
      refine ⟨?_, he⟩
      rw [Node.lastRecord, hlast, Nat.add_assoc]
      rfl

/-- The events of a body are those of its statements, and one for what is pushed behind them. -/
theorem bodyEvents_block {xs : List Node} (hne : xs ≠ []) (pos : Pos) :
    Node.bodyEvents inside n (some (.block pos xs)) =
      Node.eventsAll inside n xs ++ Node.closingEvents xs := by
  obtain ⟨x, xs, rfl⟩ := List.exists_cons_of_ne_nil hne
  rfl

/-- **A part is replayed as prescribed**, whatever stands below it on the operands. The proof goes by
induction on the layout; all that a part needs of the state around it is which class is open. -/
theorem Layout.passes (h : Layout code links inside p n n') :
    ∀ s : State, s.currentClass = inside →
      ∃ records, p.Puts n records ∧
        Passes code n s (p.events inside n) n' (s.leave records) := by
  induction h with
  | leaf hx hi => exact fun s _ => ⟨_, rfl, passes_leaf hx hi s⟩
  | @call inside pos r name args n k j hr hargs hi ihr ihargs =>
    intro s hs
    obtain rfl := hr.eq_add_count
    obtain rfl := hargs.eq_add_count
    -- The arguments are evaluated on top of the receiver.
    obtain ⟨_, rfl, hpr⟩ := ihr s hs
    obtain ⟨_, rfl, hpargs⟩ := ihargs (s.leave _) hs
    have hboth := hpr.trans hpargs
    rw [State.leave_leave] at hboth
    have hvalue : (Node.call pos r name args).valueRecord n =
        n + (Part.receiver pos r).count + (Part.exprs args).count := by
      show n + (Node.countReceiver r + Node.countAll args + 1) - 1 = _
      simp only [Part.count]
      omega
    refine ⟨_, rfl, ?_⟩
    rw [hvalue]
    exact hboth.send hi (by rw [length_valueRecords])
  | @conditional inside pos c t e n k j m hc hstart ht helse he hend _ _ ihc iht ihe =>
    intro s hs
    obtain rfl := hc.eq_add_count
    obtain rfl := ht.eq_add_count
    obtain rfl := he.eq_add_count
    obtain ⟨_, rfl, hpc⟩ := ihc s hs
    -- Behind the condition a conditional is open, and both branches start from there.
    let opened : State := { s with ifs := ⟨n + c.count, s.stack.length⟩ :: s.ifs }
    have hif : Passes code n s (c.events inside n ++ [.ifStart (c.valueRecord n)])
        (n + c.count + 1) opened := hpc.snoc hstart rfl
    obtain ⟨_, ⟨rest, rfl⟩, hpt⟩ := iht opened hs
    obtain ⟨_, ⟨rest', rfl⟩, hpe⟩ := ihe opened hs
    have hfirst := (hif.trans hpt).ifElse rfl helse rfl
    exact ⟨_, rfl, (hfirst.trans hpe).ifEnd rfl hend rfl⟩
  | absent hi => exact fun s _ => ⟨_, rfl, .single hi rfl⟩
  | present _ ih => exact ih
  | expression hx ih =>
    intro s hs
    obtain ⟨_, rfl, hp⟩ := ih s hs
    exact ⟨_, (left_of_layout hx).symm, hp⟩
  | noExprs | noStatements => exact fun s _ => ⟨[], rfl, .refl⟩
  | @moreExprs _ _ _ _ k _ hx hxs ihx ihxs =>
    intro s hs
    obtain rfl := hx.eq_add_count
    obtain ⟨_, rfl, hpx⟩ := ihx s hs
    obtain ⟨_, rfl, hpxs⟩ := ihxs (s.leave _) hs
    have hboth := hpx.trans hpxs
    rw [State.leave_leave] at hboth
    exact ⟨_, List.reverse_cons.symm, hboth⟩
  | @moreStatements _ x xs _ _ _ hx hxs ihx ihxs =>
    intro s hs
    obtain rfl := hx.eq_add_count
    obtain ⟨_, rfl, hpx⟩ := ihx s hs
    obtain ⟨_, rfl, hpxs⟩ := ihxs (s.leave _) hs
    have hboth := hpx.trans hpxs
    rw [State.leave_leave] at hboth
    refine ⟨_, ?_, hboth⟩
    rw [Part.Puts, Node.leftAll, List.reverse_append, left_reverse]
    rfl
  | assign hv hi ih =>
    intro s hs
    obtain ⟨_, rfl, hp⟩ := ih s hs
    exact ⟨_, rfl, hp.setVar hi rfl⟩
  | @methodDef inside pos name params body n j hstart _ hparams hb hend _ ih =>
    intro s hs
    -- The body runs in a frame of its own, in which the method is open.
    let opened : State := { s with defs := n :: s.defs }.openFrame
    have hdef : Passes code n s [.defStart inside] (n + 1) opened := by
      rw [← hs]
      exact .single hstart rfl
    obtain ⟨_, ⟨rest, rfl⟩, hbody⟩ := ih opened hs
    exact ⟨_, rfl, ((hdef.trans (passes_params opened rfl params _ hparams)).trans hbody).snoc hend
      rfl⟩
  | @classDef pos name start statements n j hstart hb hend _ ih =>
    intro s hs
    obtain ⟨stack, outer, ifs, defs, classes⟩ := s
    obtain rfl : classes = [] := by simpa [State.currentClass] using hs
    -- The body runs in a frame of its own too, and what it leaves there is gone with the frame.
    let opened : State := ⟨[], stack :: outer, ifs, defs, [⟨n, name⟩]⟩
    have hcls : Passes code n ⟨stack, outer, ifs, defs, []⟩ [.classStart] (n + 1) opened :=
      .single hstart rfl
    obtain ⟨_, rfl, hbody⟩ := ih opened rfl
    exact ⟨[], rfl, (hcls.trans hbody).snoc hend rfl⟩
  | missing hi | empty hi => exact fun s _ => ⟨_, ⟨[], rfl⟩, .single hi rfl⟩
  | @left inside owner pos xs n n' hne hxs hc ih =>
    intro s hs
    obtain ⟨_, rfl, hp⟩ := ih s hs
    obtain ⟨hevents, rest, hrest⟩ := value_left hne hc n
    refine ⟨_, ⟨rest, hrest⟩, ?_⟩
    rw [Part.events, bodyEvents_block hne, hevents, List.append_nil]
    exact hp
  | @closed inside owner pos xs i n k hxs hc hi ih =>
    intro s hs
    obtain rfl := hxs.eq_add_count
    obtain ⟨_, rfl, hp⟩ := ih s hs
    obtain ⟨hlast, e, hevents, hstep⟩ := closing_pushes hc n
    -- The value is what was pushed behind the statements, and what they leave lies below.
    have hne : xs ≠ [] := by rintro rfl; cases hc
    refine ⟨_, ⟨(Node.leftAll n xs).reverse, rfl⟩, ?_⟩
    rw [Part.events, bodyEvents_block hne, hevents, Node.bodyRecord, hlast]
    exact hp.snoc hi (hstep _ _)

end Prescribed

/-! ### Programs -/

/-- The code of a program is replayed without an error. -/
theorem Layout.replayed {code : List Instruction} {links : Nat → Nat → Prop} {xs : List Node}
    (h : Layout code links none (.statements xs) 0 code.length) : (trace code).error? = none := by
  obtain ⟨_, -, hpasses⟩ := h.passes .initial rfl
  exact (hpasses.trace_eq rfl).1

/-- **A replay recovers the syntax of a program.** The program can be lowered unless a class stands in
a class. Then the replay of its code goes through; every instruction consumes the records that the
syntax prescribes; and in the end nothing is open, and the operands are what the statements leave. -/
theorem replay_as_prescribed {source : String} {root : Node}
    (h : Syntax.read source = .ok root) :
    (∀ e, Lowering.program root = .error e → ∃ pos name outer, root.NestsClass pos name outer ∧
      e = .atOrigin ⟨.classDef, pos⟩ (.nestedClass name outer)) ∧
    ∀ code, Lowering.program root = .ok code →
      (∀ pos name outer, ¬ root.NestsClass pos name outer) ∧
      (trace code).error? = none ∧
      (trace code).steps.map Step.event = root.events none 0 ∧
      (trace code).final =
        ⟨(Node.leftAll 0 (Direct.statementsOf root)).reverse, [], [], [], []⟩ := by
  obtain ⟨statements, rfl, hsurface⟩ := Syntax.surface_of_read h
  -- The root is a block, and its statements are its children.
  have hroot : ∀ z ∈ (Part.statements statements).nodes,
      (Node.block .start statements).Encloses z := fun z hz =>
    Node.encloses_iff.mpr (.inr ⟨z, hz, .refl⟩)
  -- What is refused is a class within a class.
  constructor
  · intro e he
    obtain ⟨pos, name, outer, rfl, ⟨hin, -⟩ | ⟨pos', body, inner, ⟨x, hx, hbody⟩, h⟩⟩ :=
      refused_of_lower hsurface he
    · cases hin
    · exact ⟨pos, name, outer, ⟨pos', body, inner, (hroot x hx).trans hbody, h⟩, rfl⟩
  · intro code hcode
    -- What is lowered has the shape that prescribes the events.
    have hlayout := layout_of_lower hsurface hcode (CodeAt.self code)
    rw [Nat.zero_add] at hlayout
    refine ⟨?_, ?_⟩
    · rintro pos name outer ⟨pos', body, inner, hbody, h⟩
      rcases Node.encloses_iff.mp hbody with h' | ⟨z, hz, hz'⟩
      · cases h'
      · exact (hlayout.classDef_alone ⟨z, hz, hz'⟩).2 _ _ _ h
    · obtain ⟨_, rfl, hpasses⟩ := hlayout.passes .initial rfl
      obtain ⟨herror, hevents, hfinal⟩ := hpasses.trace_eq rfl
      refine ⟨herror, hevents, hfinal.trans ?_⟩
      rw [State.leave, State.initial, List.append_nil]
      rfl

/-- A class, a method with a branch, and a call of it: the last two statements leave one record. -/
theorem replay_as_prescribed_pick : ∃ root, Syntax.read Sample.pick = .ok root ∧
    (trace Sample.pickCode).steps.map Step.event = root.events none 0 ∧
    (trace Sample.pickCode).final.stack = [19] := by
  obtain ⟨root, hread, hlower⟩ := Program.code_eq_ok_iff.mp Sample.code_pick
  have h := (replay_as_prescribed hread).2 _ hlower
  exact ⟨root, hread, h.2.2.1, by decide +kernel⟩

end Rubylet
