import Rubylet.Proofs.Code.Role
import Rubylet.Proofs.Replay.Prescribed

/-!
# Calls in bodies

Which methods the body of a method calls can be told from the syntax, and from the code: there by
the frame that a call stands in. In both, a call counts for the innermost definition around it, and
the methods are known by their names alone.

* `Layout.bodyCalls`: what the body of a method calls in the code, it calls in the syntax. It comes
  from `Layout.sends`, which is about all calls in the code of a part.
-/

namespace Rubylet

open Replay

/-! ### Calls in the syntax -/

namespace Node

/-- Has a piece of syntax a frame of its own? -/
def opensFrame : Node → Bool
  | .methodDef _ _ _ _ | .classDef _ _ _ => true
  | _ => false

/-- One piece of syntax is another one, or stands in it without a method or a class between them. -/
def Holds : Node → Node → Prop :=
  Relation.ReflTransGen fun x y => ¬ x.opensFrame ∧ y ∈ x.children

/-- In a piece of syntax a method is called, but not in a definition that stands there. -/
def Calls (x : Node) (name : String) : Prop :=
  ∃ pos receiver args, x.Holds (.call pos receiver name args)

/-- In a piece of syntax a method is defined, and in its body another one is called. -/
def BodyCalls (x : Node) (name other : String) : Prop :=
  ∃ pos params body, x.Encloses (.methodDef pos name params (some body)) ∧ body.Calls other

variable {x y : Node}

theorem holds_of_mem (hx : x.opensFrame = false) (hy : y ∈ x.children) : x.Holds y :=
  .single ⟨by simp [hx], hy⟩

/-- What a part holds it encloses: frames only take parts away. -/
theorem Holds.encloses (h : x.Holds y) : x.Encloses y :=
  Relation.ReflTransGen.mono (fun _ _ h => h.2) x y h

end Node

/-! ### Calls in the code -/

namespace Replay

/-- In a frame, a method is called. -/
def CallsIn (code : List Instruction) (frame : Option Nat) (name : String) : Prop :=
  ∃ n i count, code[n]? = some i ∧ i.op = .send name count ∧ frameOf code n = frame

/-- In the body of a method, another one is called. -/
def BodyCalls (code : List Instruction) (name other : String) : Prop :=
  ∃ d i, code[d]? = some i ∧ i.op = .defStart name ∧ CallsIn code (some d) other

variable {code : List Instruction} {n n' k : Nat} {i : Instruction} {P Q : Nat → String → Prop}

/-- All calls between two points have a property. -/
def Sends (code : List Instruction) (n n' : Nat) (P : Nat → String → Prop) : Prop :=
  ∀ q i name count, n ≤ q → q < n' → code[q]? = some i → i.op = .send name count → P q name

theorem Sends.refl (code : List Instruction) (n : Nat) : Sends code n n P :=
  fun q _ _ _ hle hlt => by omega

theorem Sends.trans (h : Sends code n k P) (h' : Sends code k n' P) : Sends code n n' P := by
  intro q i name count hle hlt hi ho
  rcases Nat.lt_or_ge q k with hk | hk
  · exact h q i name count hle hk hi ho
  · exact h' q i name count hk hlt hi ho

theorem Sends.imp (h : Sends code n n' P) (hPQ : ∀ q name, P q name → Q q name) :
    Sends code n n' Q :=
  fun q i name count hle hlt hi ho => hPQ q name (h q i name count hle hlt hi ho)

theorem Sends.single (hi : code[n]? = some i)
    (h : ∀ name count, i.op = .send name count → P n name) : Sends code n (n + 1) P := by
  intro q j name count hle hlt hq ho
  obtain ⟨rfl, rfl⟩ := eq_of_between hi hle hlt hq
  exact h name count ho

/-- The parameters of a method call nothing. -/
theorem sends_params {params : List Param} : ∀ {n}, ParamsAt code n params →
    Sends code n (n + 2 * params.length) P := by
  induction params with
  | nil => exact fun _ => .refl code _
  | cons p ps ih =>
    intro n h
    rw [show n + 2 * (p :: ps).length = n + 1 + 1 + 2 * ps.length by rw [List.length_cons]; omega]
    exact (Sends.single (CodeAt.head h) nofun).trans
      ((Sends.single (CodeAt.head (CodeAt.tail h)) nofun).trans
        (ih (CodeAt.tail (CodeAt.tail h))))

end Replay

/-! ### Calls in the code of a part -/

namespace Part

variable {code : List Instruction} {p q : Part} {n k r : Nat} {name other : String}

/-- In a part a method is called, but not in a definition that stands there. -/
def Calls (p : Part) (name : String) : Prop := ∃ x ∈ p.nodes, x.Calls name

/-- In a part a method is defined, and in its body another one is called. -/
def BodyCalls (p : Part) (name other : String) : Prop :=
  ∃ pos params body, p.Encloses (.methodDef pos name params (some body)) ∧ body.Calls other

/-- A call in the code of a part that begins at `n` stands in the part: in the frame around the part,
or in that of a definition in it. -/
def SendsAt (p : Part) (code : List Instruction) (n r : Nat) (name : String) : Prop :=
  (frameOf code r = frameOf code n ∧ p.Calls name) ∨
    ∃ d i, frameOf code r = some d ∧ code[d]? = some i ∧
      ∀ method, i.op = .defStart method → p.BodyCalls method name

/-- A call made in the body of a part is made in the body of every part that encloses it. -/
theorem BodyCalls.within (hq : ∀ z ∈ q.nodes, p.Encloses z) (h : q.BodyCalls name other) :
    p.BodyCalls name other := by
  obtain ⟨pos, params, body, hmethod, hcall⟩ := h
  exact ⟨pos, params, body, hmethod.within hq, hcall⟩

/-- A call in the code of a smaller part in the same frame. -/
theorem SendsAt.within (hq : ∀ z ∈ q.nodes, ∃ x ∈ p.nodes, x.Holds z)
    (hframe : openers code k = openers code n) (h : q.SendsAt code k r name) :
    p.SendsAt code n r name := by
  rcases h with ⟨hr, z, hz, pos, receiver, args, hcall⟩ | ⟨d, i, hr, hi, hcalls⟩
  · obtain ⟨x, hx, hxz⟩ := hq z hz
    refine .inl ⟨?_, x, hx, pos, receiver, args, hxz.trans hcall⟩
    rw [hr, frameOf, hframe, frameOf]
  · refine .inr ⟨d, i, hr, hi, fun method hop => ?_⟩
    refine (hcalls method hop).within fun z hz => ?_
    obtain ⟨x, hx, hxz⟩ := hq z hz
    exact .of_mem hx hxz.encloses

/-- A call in the code of the body of a definition. -/
theorem SendsAt.inDefinition {d : Nat} {outer : List Nat} {i : Instruction}
    (hframe : openers code k = d :: outer) (hi : code[d]? = some i)
    (hq : ∀ z ∈ q.nodes, p.Encloses z)
    (hcalls : ∀ method, i.op = .defStart method → q.Calls name → p.BodyCalls method name)
    (h : q.SendsAt code k r name) : p.SendsAt code n r name := by
  rcases h with ⟨hr, hcall⟩ | ⟨d', i', hr, hi', hbody⟩
  · refine .inr ⟨d, i, ?_, hi, fun method hop => hcalls method hop hcall⟩
    rw [hr, frameOf, hframe, List.head?_cons]
  · exact .inr ⟨d', i', hr, hi', fun method hop => (hbody method hop).within hq⟩

end Part

/-- The calls of a part that stands right inside a piece of syntax, in its frame. -/
theorem Replay.Sends.inside {code : List Instruction} {p q : Part} {x : Node} {n k n' : Nat}
    (h : Sends code k n' (q.SendsAt code k)) (hp : x ∈ p.nodes) (hx : x.opensFrame = false)
    (hq : ∀ z ∈ q.nodes, z ∈ x.children) (hframe : openers code k = openers code n) :
    Sends code k n' (p.SendsAt code n) :=
  h.imp fun _ _ h => h.within (fun z hz => ⟨x, hp, Node.holds_of_mem hx (hq z hz)⟩) hframe

section Layout

variable {code : List Instruction} {links : Nat → Nat → Prop} {inside : Option String}
  {p : Part} {n n' : Nat}

/-- The record of a leaf is not a send, so it adds no call. -/
theorem not_send_of_leaf {x : Node} {i : Instruction} (h : x.leaf? = some i) (name : String)
    (count : Option Int) : i.op ≠ .send name count := by
  cases x <;> cases h <;> exact nofun

theorem not_send_of_closing {xs : List Node} {i : Instruction}
    (h : Lowering.closingLast xs = [i]) (name : String) (count : Option Int) :
    i.op ≠ .send name count := by
  unfold Lowering.closingLast at h
  split at h
  · next x _ => cases x <;> cases h <;> exact nofun
  · cases h

/-- What a part that stands in a frame by itself leaves open. -/
theorem Layout.openers_eq (hr : (trace code).error? = none)
    (h : Layout code links inside p n n') : openers code n' = openers code n :=
  let ⟨_, h, _⟩ := h.replays hr
  h.openers_eq

/-- **A call in the code stands for a call in the syntax**, in the same method. The proof goes by
induction on the layout of the part. -/
theorem Layout.sends (hr : (trace code).error? = none) (h : Layout code links inside p n n') :
    Sends code n n' (p.SendsAt code n) := by
  induction h with
  | leaf hx hi => exact .single hi fun name count ho => absurd ho (not_send_of_leaf hx name count)
  | @call inside pos r name args n k j hrec hargs hi ihr ihargs =>
    -- No part leaves a frame open, so the message is sent in the frame in which the call begins.
    have hk := hrec.openers_eq hr
    have hj := (hargs.openers_eq hr).trans hk
    refine (ihr.inside (.head _) rfl (fun z hz => List.mem_append_left _ hz) rfl).trans
      ((ihargs.inside (.head _) rfl (fun z hz => List.mem_append_right _ hz) hk).trans
        (.single hi fun other count ho => ?_))
    cases ho
    refine .inl ⟨?_, _, .head _, pos, r, args, .refl⟩
    rw [frameOf, hj, frameOf]
  | @conditional inside pos c t e n k j m hc hs ht he hf hd _ _ ihc iht ihf =>
    have hk := (openers_succ hs).trans (hc.openers_eq hr)
    have hj := (openers_succ he).trans ((ht.openers_eq hr).trans hk)
    refine (ihc.inside (.head _) rfl (fun z hz => ?_) rfl).trans ((Sends.single hs nofun).trans
      ((iht.inside (.head _) rfl (fun z hz => ?_) hk).trans ((Sends.single he nofun).trans
        ((ihf.inside (.head _) rfl (fun z hz => ?_) hj).trans (.single hd nofun)))))
    · exact List.mem_cons.mpr (.inl (List.mem_singleton.mp hz))
    · exact List.mem_cons_of_mem _ (List.mem_append_left _ hz)
    · exact List.mem_cons_of_mem _ (List.mem_append_right _ hz)
  | absent hi | missing hi | empty hi => exact .single hi nofun
  | present _ ih | expression _ ih => exact ih
  | noExprs | noStatements => exact .refl code _
  | moreExprs hx hxs ihx ihxs | moreStatements hx hxs ihx ihxs =>
    refine (ihx.imp fun _ _ h => h.within (fun z hz => ⟨z, ?_, .refl⟩) rfl).trans
      (ihxs.imp fun _ _ h => h.within (fun z hz => ⟨z, ?_, .refl⟩) (hx.openers_eq hr))
    · exact List.mem_cons.mpr (.inl (List.mem_singleton.mp hz))
    · exact List.mem_cons_of_mem _ hz
  | assign hv hi ih =>
    refine (ih.inside (.head _) rfl (fun z hz => ?_) rfl).trans (.single hi nofun)
    exact hz
  | @methodDef inside pos name params body n j hs _ hp hb he _ ih =>
    have hopened : openers code (n + 1 + 2 * params.length) = n :: openers code n := by
      rw [(Replays.params hr _ _ hp).openers_eq, openers_succ hs]
    -- The body runs in the frame of the method, so what it calls is called in the method's body.
    refine (Sends.single hs nofun).trans ((sends_params hp).trans
      ((ih.imp fun q other h => ?_).trans (.single he nofun)))
    refine h.inDefinition hopened hs (fun z hz => .of_child (.head _) hz .refl) ?_
    rintro method hop ⟨x, hx, hcall⟩
    cases hop
    obtain rfl := Option.mem_toList.mp hx
    exact ⟨pos, params, x, .of_mem (.head _) .refl, hcall⟩
  | @classDef pos name start statements n j hs hb he _ ih =>
    -- The frame of a class belongs to no method, and what is called there counts for none.
    refine (Sends.single hs nofun).trans ((ih.imp fun q other h => ?_).trans (.single he nofun))
    refine h.inDefinition (openers_succ hs) hs (fun z hz => ?_) nofun
    exact .of_child (.head _) (.head _) (.single hz)
  | left _ _ _ ih => exact ih.inside (.head _) rfl (fun z hz => hz) rfl
  | closed hxs hc hi ih =>
    refine (ih.inside (.head _) rfl (fun z hz => ?_) rfl).trans
      (.single hi fun name count ho => absurd ho (not_send_of_closing hc name count))
    exact hz

/-- **What the body of a method calls** in the code of a program, it calls in the syntax. -/
theorem Layout.bodyCalls {statements : List Node} {name other : String}
    (h : Layout code links none (.statements statements) 0 code.length)
    (hcall : Replay.BodyCalls code name other) :
    (Node.block .start statements).BodyCalls name other := by
  obtain ⟨d, j, hj, hop, q, i, count, hi, ho, hframe⟩ := hcall
  have hlt := (List.getElem?_eq_some_iff.mp hi).1
  rcases h.sends h.replayed q i other count (Nat.zero_le q) hlt hi ho with
    ⟨hout, -⟩ | ⟨d', j', hin, hj', hbody⟩
  · rw [hframe] at hout
    cases hout
  -- The frame is that of the method, so the method is the innermost definition around the call.
  · obtain rfl := Option.some.inj (hframe.symm.trans hin)
    obtain rfl := Option.some.inj (hj.symm.trans hj')
    obtain ⟨pos, params, body, ⟨x, hx, hmethod⟩, hcall⟩ := hbody name hop
    exact ⟨pos, params, body, Node.encloses_iff.mpr (.inr ⟨x, hx, hmethod⟩), hcall⟩

end Layout

end Rubylet

