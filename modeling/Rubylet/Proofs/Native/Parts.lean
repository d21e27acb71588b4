import Rubylet.Native.Emission
import Rubylet.Proofs.Code.Loading
import Rubylet.Proofs.Code.Replayed
import Rubylet.Proofs.Native.Running

/-!
# The native code of a part

`Emits` says which native code a part of a program has, and which operands stand for the values that
it leaves: it is to native code what `Layout` is to the code of the machine. Emission is shown to
give this code once; how native code runs is then proved by induction on the relation, and nothing
about scopes, names or the state of an emission comes in any more.

A method definition has no code where it stands. Its body is the code of a function.
-/

namespace Rubylet.Native

open Replay

/-- The constant that an instruction pushes. -/
def constant? : Operation → Option Operand
  | .pushInt value => some (.word (.ofInt value))
  | .pushStr text => some (.text text)
  | .pushNil => some .null
  | _ => none

/-- The record on top of the operands at a point has a type. -/
def TopType (code : List Instruction) (d : Declarations) (n : Nat) (t : Ty) : Prop :=
  ∃ r below, (stateAt code n).stack = r :: below ∧ d.type? r = some t

/-- A part that is laid out from one point to another has some native code, in a body with some
slots that may call some methods, and leaves its values in some operands. -/
inductive Emits (code : List Instruction) (links : Nat → Nat → Prop) (d : Declarations)
    (slots : Table String Kind) (calls : Nat → Prop) :
    Part → Nat → Nat → List Inst → List Operand → Prop
  | constant {x i n o} : x.leaf? = some i → code[n]? = some i → constant? i.op = some o →
      Emits code links d slots calls (.expr x) n (n + 1) [] [o]
  | localRead {pos name n kind} : code[n]? = some ⟨.pushVar name, ⟨.localRead, pos⟩⟩ →
      slots.get? name = some kind →
      Emits code links d slots calls (.expr (.localRead pos name)) n (n + 1) [.load n name]
        [.result n kind]
  | call {pos r name args n k j is js o os method s} :
      Emits code links d slots calls (.receiver pos r) n k is [o] →
      Emits code links d slots calls (.exprs args) k j js os →
      code[j]? = some ⟨.send name (some args.length), ⟨.call, pos⟩⟩ → TopType code d k .nil →
      d.methodNamed? name = some (method, s) → calls method → requireArgs s.params os = .ok () →
      Emits code links d slots calls (.expr (.call pos r name args)) n (j + 1)
        (is ++ js ++ [.call j method os]) [.result j s.result]
  | arith {pos r name args n k j is js o o' os op} :
      Emits code links d slots calls (.receiver pos r) n k is [o] →
      Emits code links d slots calls (.exprs args) k j js (o' :: os) →
      code[j]? = some ⟨.send name (some args.length), ⟨.call, pos⟩⟩ → TopType code d k .int →
      Arith.named? name = some op → o.kind = .word → o'.kind = .word →
      Emits code links d slots calls (.expr (.call pos r name args)) n (j + 1)
        (is ++ js ++ [.arith j op o o']) [.result j .word]
  | conditional {pos condition thenBody elseBody n k j m is js ks o front v front' w kind t} :
      Emits code links d slots calls (.expr condition) n k is [o] →
      code[k]? = some ⟨.ifStart, ⟨.conditional, pos⟩⟩ →
      Emits code links d slots calls (.body ⟨.conditional, pos⟩ thenBody) (k + 1) j js
        (front ++ [v]) →
      code[j]? = some ⟨.ifElse, ⟨.conditional, pos⟩⟩ →
      Emits code links d slots calls (.body ⟨.conditional, pos⟩ elseBody) (j + 1) m ks
        (front' ++ [w]) →
      code[m]? = some ⟨.ifEnd, ⟨.conditional, pos⟩⟩ → links k j → links j m →
      TopType code d k t → v.kind = kind → w.kind = kind →
      Emits code links d slots calls (.expr (.conditional pos condition thenBody elseBody)) n
        (m + 1) (is ++ [.branch k (decide (t ≠ .nil)) js v ks w]) [.result k kind]
  | absent {pos n} : code[n]? = some ⟨.pushNil, ⟨.call, pos⟩⟩ →
      Emits code links d slots calls (.receiver pos none) n (n + 1) [] [.null]
  | present {pos x n n' is os} : Emits code links d slots calls (.expr x) n n' is os →
      Emits code links d slots calls (.receiver pos (some x)) n n' is os
  | noExprs {n} : Emits code links d slots calls (.exprs []) n n [] []
  | moreExprs {x xs n k n' is js o os} : Emits code links d slots calls (.expr x) n k is [o] →
      Emits code links d slots calls (.exprs xs) k n' js os →
      Emits code links d slots calls (.exprs (x :: xs)) n n' (is ++ js) (o :: os)
  | expression {x n n' is os} : Emits code links d slots calls (.expr x) n n' is os →
      Emits code links d slots calls (.statement x) n n' is os
  | assign {pos name value n k is o kind} :
      Emits code links d slots calls (.expr value) n k is [o] →
      code[k]? = some ⟨.setVar name, ⟨.assignment, pos⟩⟩ → slots.get? name = some kind →
      o.kind = kind →
      Emits code links d slots calls (.statement (.assign pos name value)) n (k + 1)
        (is ++ [.store name o]) []
  | methodDef {pos name params body n n'} :
      Layout code links none (.statement (.methodDef pos name params body)) n n' →
      Emits code links d slots calls (.statement (.methodDef pos name params body)) n n' [] [.null]
  | noStatements {n} : Emits code links d slots calls (.statements []) n n [] []
  | moreStatements {x xs n k n' is js os os'} :
      Emits code links d slots calls (.statement x) n k is os →
      Emits code links d slots calls (.statements xs) k n' js os' →
      Emits code links d slots calls (.statements (x :: xs)) n n' (is ++ js) (os ++ os')
  | missing {owner n} : code[n]? = some ⟨.pushNil, owner⟩ →
      Emits code links d slots calls (.body owner none) n (n + 1) [] [.null]
  | empty {owner pos n} : code[n]? = some ⟨.pushNil, ⟨.block, pos⟩⟩ →
      Emits code links d slots calls (.body owner (some (.block pos []))) n (n + 1) [] [.null]
  | left {owner pos xs n n' is front o} : xs ≠ [] →
      Emits code links d slots calls (.statements xs) n n' is (front ++ [o]) →
      Lowering.closingLast xs = [] →
      Emits code links d slots calls (.body owner (some (.block pos xs))) n n' is (front ++ [o])
  | closedNil {owner pos xs i n k is os} :
      Emits code links d slots calls (.statements xs) n k is os →
      Lowering.closingLast xs = [i] → code[k]? = some i → i.op = .pushNil →
      Emits code links d slots calls (.body owner (some (.block pos xs))) n (k + 1) is
        (os ++ [.null])
  | closedVar {owner pos xs i n k is os name kind} :
      Emits code links d slots calls (.statements xs) n k is os →
      Lowering.closingLast xs = [i] → code[k]? = some i → i.op = .pushVar name →
      slots.get? name = some kind →
      Emits code links d slots calls (.body owner (some (.block pos xs))) n (k + 1)
        (is ++ [.load k name]) (os ++ [.result k kind])

/-- How many operands a part leaves. -/
def Part.Has : Part → List Operand → Prop
  | .expr _ | .receiver _ _ => fun os => ∃ o, os = [o]
  | .exprs xs => fun os => os.length = xs.length
  | .body _ _ => fun os => ∃ front o, os = front ++ [o]
  | .statement x => fun os => Lowering.closing x = [] → ∃ o, os = [o]
  | .statements xs => fun os =>
    xs ≠ [] → Lowering.closingLast xs = [] → ∃ front o, os = front ++ [o]

namespace Emits

variable {code : List Instruction} {links : Nat → Nat → Prop} {d : Declarations}
  {slots : Table String Kind} {calls : Nat → Prop} {p : Part} {n n' : Nat} {is : List Inst}
  {os : List Operand}

/-- What is emitted is laid out. -/
theorem layout (h : Emits code links d slots calls p n n' is os) :
    Layout code links none p n n' := by
  -- Each rule of emission lies over the rule of layout with the same parts.
  induction h with
  | constant hx hi _ => exact .leaf hx hi
  | localRead hi _ => exact .leaf rfl hi
  | call _ _ hi _ _ _ _ ihr ihargs => exact .call ihr ihargs hi
  | arith _ _ hi _ _ _ _ ihr ihargs => exact .call ihr ihargs hi
  | conditional _ hs _ he _ hd hlink hlink' _ _ _ ihc iht ihf =>
    exact .conditional ihc hs iht he ihf hd hlink hlink'
  | absent hi => exact .absent hi
  | present _ ih => exact .present ih
  | noExprs => exact .noExprs
  | moreExprs _ _ ihx ihxs => exact .moreExprs ihx ihxs
  | expression _ ih => exact .expression ih
  | assign _ hi _ _ ih => exact .assign ih hi
  | methodDef h => exact h
  | noStatements => exact .noStatements
  | moreStatements _ _ ihx ihxs => exact .moreStatements ihx ihxs
  | missing hi => exact .missing hi
  | empty hi => exact .empty hi
  | left hne _ hc ih => exact .left hne ih hc
  | closedNil _ hc hi _ ih => exact .closed ih hc hi
  | closedVar _ hc hi _ _ ih => exact .closed ih hc hi

/-- The code of a part writes the results of its own records. -/
theorem records (h : Emits code links d slots calls p n n' is os) :
    ∀ r ∈ recordsOf is, n ≤ r ∧ r < n' := by
  induction h with
  | constant | absent | noExprs | noStatements | missing | empty | methodDef => exact nofun
  | localRead => simp [recordsOf, Inst.records]
  | call hr hargs _ _ _ _ _ ihr ihargs | arith hr hargs _ _ _ _ _ ihr ihargs =>
    have hle := hr.layout.le
    have hle' := hargs.layout.le
    intro q hq
    simp only [recordsOf_append, recordsOf, Inst.records, List.append_nil, List.mem_append,
      List.mem_singleton] at hq
    -- The receiver's records come first, then those of the arguments, then that of the call.
    rcases hq with (hq | hq) | rfl
    · have := ihr q hq
      omega
    · have := ihargs q hq
      omega
    · omega
  | conditional hc _ ht _ hf _ _ _ _ _ _ ihc iht ihf =>
    have hle := hc.layout.le
    have hle' := ht.layout.le
    have hle'' := hf.layout.le
    intro q hq
    simp only [recordsOf_append, recordsOf, Inst.records, List.append_nil, List.mem_append,
      List.mem_cons] at hq
    rcases hq with hq | rfl | hq | hq
    · have := ihc q hq
      omega
    · omega
    · have := iht q hq
      omega
    · have := ihf q hq
      omega
  | present _ ih | expression _ ih | left _ _ _ ih => exact ih
  | moreExprs hx hxs ihx ihxs | moreStatements hx hxs ihx ihxs =>
    have hle := hx.layout.le
    have hle' := hxs.layout.le
    intro q hq
    rcases List.mem_append.mp (recordsOf_append _ _ ▸ hq) with hq | hq
    · have := ihx q hq
      omega
    · have := ihxs q hq
      omega
  | assign hv _ _ _ ih =>
    intro q hq
    simp only [recordsOf_append, recordsOf, Inst.records, List.append_nil] at hq
    have := ih q hq
    omega
  | closedNil hxs _ _ _ ih =>
    intro q hq
    have := ih q hq
    omega
  | closedVar hxs _ _ _ _ ih =>
    have hle := hxs.layout.le
    intro q hq
    simp only [recordsOf_append, recordsOf, Inst.records, List.append_nil, List.mem_append,
      List.mem_singleton] at hq
    rcases hq with hq | rfl
    · have := ih q hq
      omega
    · omega

/-- The operands that a part leaves are known behind it. -/
theorem before (h : Emits code links d slots calls p n n' is os) :
    ∀ o ∈ os, o.Before n' := by
  -- A constant is the same everywhere.
  have known : ∀ {o : Operation} {c : Operand} {k : Nat}, constant? o = some c → c.Before k := by
    intro o c k h
    unfold constant? at h
    split at h <;> first | (obtain rfl := Option.some.inj h; trivial) | cases h
  induction h with
  | constant _ _ ho =>
    intro o hmem
    obtain rfl := List.mem_singleton.mp hmem
    exact known ho
  | localRead | call | arith =>
    intro o hmem
    obtain rfl := List.mem_singleton.mp hmem
    exact Nat.lt_succ_self _
  | conditional hc _ ht _ hf =>
    have hle := ht.layout.le
    have hle' := hf.layout.le
    intro o hmem
    obtain rfl := List.mem_singleton.mp hmem
    exact show _ < _ by omega
  | absent | methodDef | missing | empty =>
    intro o hmem
    obtain rfl := List.mem_singleton.mp hmem
    trivial
  | present _ ih | expression _ ih | left _ _ _ ih => exact ih
  | noExprs | noStatements | assign => exact nofun
  | moreExprs _ hxs ihx ihxs =>
    intro o hmem
    rcases List.mem_cons.mp hmem with rfl | hmem
    · exact (ihx _ (.head _)).mono hxs.layout.le
    · exact ihxs o hmem
  | moreStatements _ hxs ihx ihxs =>
    intro o hmem
    rcases List.mem_append.mp hmem with hmem | hmem
    · exact (ihx o hmem).mono hxs.layout.le
    · exact ihxs o hmem
  | closedNil _ _ _ _ ih =>
    intro o hmem
    rcases List.mem_append.mp hmem with hmem | hmem
    · exact (ih o hmem).mono (Nat.le_succ _)
    · obtain rfl := List.mem_singleton.mp hmem
      trivial
  | closedVar _ _ _ _ _ ih =>
    intro o hmem
    rcases List.mem_append.mp hmem with hmem | hmem
    · exact (ih o hmem).mono (Nat.le_succ _)
    · obtain rfl := List.mem_singleton.mp hmem
      exact Nat.lt_succ_self _

/-- A part emits operands as it leaves values. -/
theorem has (h : Emits code links d slots calls p n n' is os) : Part.Has p os := by
  induction h with
  | constant | localRead | call | arith | conditional | absent => exact ⟨_, rfl⟩
  | present _ ih => exact ih
  | noExprs => rfl
  | moreExprs _ _ _ ih => exact congrArg (· + 1) ih
  | expression _ ih => exact fun _ => ih
  | assign => exact nofun
  | methodDef => exact fun _ => ⟨_, rfl⟩
  | noStatements => exact fun h => absurd rfl h
  | @moreStatements x xs n k n' is js os os' hx hxs ihx ihxs =>
    intro _ hc
    -- The last statement leaves the operand, whatever the earlier ones leave.
    cases hxs with
    | noStatements =>
      obtain ⟨o, rfl⟩ := ihx hc
      exact ⟨[], o, rfl⟩
    | @moreStatements y ys _ k' _ is' js' os₁ os₂ hy hys =>
      obtain ⟨front, o, heq⟩ := ihxs (List.cons_ne_nil _ _) (by
        rwa [Lowering.closingLast_cons] at hc)
      exact ⟨os ++ front, o, by rw [heq, List.append_assoc]⟩
  | missing | empty => exact ⟨[], _, rfl⟩
  | left | closedNil | closedVar => exact ⟨_, _, rfl⟩

end Emits

/-! ### Methods -/

/-- The code that takes the arguments of some kinds, from a number on, into the slots of the
parameters. -/
inductive Takes (slots : Table String Kind) (kinds : List Kind) :
    Nat → List Param → List Inst → Prop
  | nil {k : Nat} : Takes slots kinds k [] []
  | cons {k : Nat} {p ps is kind} : p.index = (k : Int) → kinds[k]? = some kind →
      slots.get? p.name = some kind → Takes slots kinds (k + 1) ps is →
      Takes slots kinds k (p :: ps) (.store p.name (.argument k kind) :: is)

/-- The body of the function of a method that is defined at a record. It answers the value that the
method's body leaves, or nil if that is its type. -/
inductive EmitsMethod (code : List Instruction) (links : Nat → Nat → Prop) (d : Declarations)
    (calls : Nat → Prop) (n : Nat) (s : Signature) : Body → Prop
  | intro {pos name params body j slots is js front o value t} :
      code[n]? = some ⟨.defStart name, ⟨.methodDef, pos⟩⟩ → ParamsAt code (n + 1) params →
      Takes slots s.params 0 params is →
      Emits code links d slots calls (.body ⟨.methodDef, pos⟩ body) (n + 1 + 2 * params.length) j js
        (front ++ [o]) →
      code[j]? = some ⟨.defEnd name, ⟨.methodDef, pos⟩⟩ → TopType code d j t →
      (t = .nil ∧ value = .null ∨ t ≠ .nil ∧ value = o) → value.kind = s.result →
      EmitsMethod code links d calls n s ⟨slots, is ++ js, value⟩

end Rubylet.Native
