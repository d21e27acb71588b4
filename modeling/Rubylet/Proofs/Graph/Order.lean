import Rubylet.Proofs.Graph.Exact

/-!
# The order of values

An instruction hands on values that were computed before it in its own frame (`Occurs.operand`). That
a record comes before the instruction does not say as much. The record of a conditional is made when
the conditional opens, and stands for the value of its branches; the record of a method, for that of
its body. Such a record is settled when the block it opened has been closed (`Settled`), and what is
settled stays settled (`Settled.mono`).

Operands are settled since a conditional is pushed when it ends (`settled_of_mem_frames`). They stand
in the frame that they are operands of (`standsIn_frames`), but for what a definition leaves to the
frame around it, which no instruction hands on.
-/

namespace Rubylet

open Replay

variable {code : List Instruction} {g : Graph} {links : Nat → Nat → Prop} {n n' r v : Nat}
  {i : Instruction} {e : Event}

/-- A conditional stands in the frame that its branches end in. -/
theorem Branch.frameOf_opener {start opener value : Nat}
    (h : Branch code start opener n value) : frameOf code opener = frameOf code n := by
  obtain ⟨c, hc⟩ := h.condition
  rw [frameOf, hc.openers_eq, frameOf, h.openers_eq]

theorem Branch.stack_eq {start opener value : Nat} (hr : (trace code).error? = none)
    (h : Branch code start opener n value) : ∃ rest, (stateAt code n).stack = value :: rest := by
  obtain ⟨rest, heq⟩ := h.state_eq hr
  exact ⟨_, by rw [heq]⟩

namespace Replay

/-! ### Settled records -/

/-- A record opens a block that is open at a point: a conditional or a method. -/
def Opens (code : List Instruction) (n r : Nat) : Prop :=
  (∃ o ∈ (stateAt code n).ifs, o.opened = r) ∨ r ∈ (stateAt code n).defs

/-- At a point, a record stands for a value that has been computed: it is before the point, and no
block that it opened is open. -/
structure Settled (code : List Instruction) (n r : Nat) : Prop where
  lt : r < n
  closed : ¬ Opens code n r

/-- An instruction opens no block but its own. -/
theorem Occurs.opens_of_succ (h : Occurs code n i e) (ho : Opens code (n + 1) r) :
    Opens code n r ∨ r = n ∧ (i.op = .ifStart ∨ ∃ name, i.op = .defStart name) := by
  -- An open conditional, or an open definition.
  rcases ho with ⟨o, ho, rfl⟩ | ho
  · rw [h.ifs_succ] at ho
    split at ho
    · next hop =>
      rcases List.mem_cons.mp ho with rfl | ho
      · exact .inr ⟨rfl, .inl hop⟩
      · exact .inl (.inl ⟨o, ho, rfl⟩)
    · exact .inl (.inl ⟨o, List.mem_of_mem_tail ho, rfl⟩)
    · exact .inl (.inl ⟨o, ho, rfl⟩)
  · rw [h.defs_succ] at ho
    split at ho
    · next name hop =>
      rcases List.mem_cons.mp ho with rfl | ho
      · exact .inr ⟨rfl, .inr ⟨name, hop⟩⟩
      · exact .inl (.inr ho)
    · exact .inl (.inr (List.mem_of_mem_tail ho))
    · exact .inl (.inr ho)

section

variable (hr : (trace code).error? = none)

include hr

/-- Only conditionals and methods open blocks. -/
theorem Opens.op (h : Opens code n r) (hn : n ≤ code.length) :
    ∃ i, code[r]? = some i ∧ (i.op = .ifStart ∨ ∃ name, i.op = .defStart name) := by
  rcases h with ⟨o, ho, rfl⟩ | h
  · obtain ⟨-, i, hi, hop⟩ := (opened_stateAt hr n hn).ifs o ho
    exact ⟨i, hi, .inl hop⟩
  · obtain ⟨-, i, name, hi, hop⟩ := (opened_stateAt hr n hn).defs r h
    exact ⟨i, hi, .inr ⟨name, hop⟩⟩

/-- What opens no block is settled at once. -/
theorem settled_of_lt (hi : code[r]? = some i) (hif : i.op ≠ .ifStart)
    (hdef : ∀ name, i.op ≠ .defStart name) (hlt : r < n) (hn : n ≤ code.length) :
    Settled code n r := by
  refine ⟨hlt, fun ho => ?_⟩
  obtain ⟨j, hj, hop⟩ := ho.op hr hn
  obtain rfl := Option.some.inj (hi.symm.trans hj)
  exact hop.elim hif fun ⟨name, hop⟩ => hdef name hop

/-- **What is settled stays settled.** -/
theorem Settled.mono (h : Settled code n r) (hle : n ≤ n') (hn : n' ≤ code.length) :
    Settled code n' r := by
  induction n', hle using Nat.le_induction with
  | base => exact h
  | succ k hk ih =>
    have hsettled := ih (Nat.le_of_succ_le hn)
    obtain ⟨e, hocc, -⟩ := exists_occurs hr (List.getElem?_eq_getElem (Nat.lt_of_succ_le hn))
    refine ⟨Nat.lt_succ_of_lt hsettled.lt, fun ho => ?_⟩
    rcases hocc.opens_of_succ ho with ho | ⟨rfl, -⟩
    · exact hsettled.closed ho
    · exact Nat.lt_irrefl _ hsettled.lt

/-- No conditional is open twice. -/
theorem nodup_ifs (hn : n ≤ code.length) :
    ((stateAt code n).ifs.map OpenIf.opened).Nodup := by
  induction n with
  | zero =>
    rw [stateAt_zero]
    exact .nil
  | succ n ih =>
    have hnodup := ih (Nat.le_of_succ_le hn)
    obtain ⟨e, hocc, -⟩ := exists_occurs hr (List.getElem?_eq_getElem (Nat.lt_of_succ_le hn))
    rw [hocc.ifs_succ]
    split
    -- The record that opens now is later than every one that is open.
    · refine List.nodup_cons.mpr ⟨fun hmem => ?_, hnodup⟩
      obtain ⟨o, ho, heq⟩ := List.mem_map.mp hmem
      have hlt := ((opened_stateAt hr n (Nat.le_of_succ_le hn)).ifs o ho).1
      exact Nat.lt_irrefl _ (heq ▸ hlt)
    · rw [List.map_tail]
      exact hnodup.tail
    · exact hnodup

/-- A conditional is settled when it has ended. -/
theorem settled_of_ifEnd {o : Nat} (h : Occurs code n i (.ifEnd o v)) :
    Settled code (n + 1) o ∧ ∃ j, code[o]? = some j ∧ j.op = .ifStart := by
  have hop := h.op_of_ifEnd
  have hopened := opened_stateAt hr n (Nat.le_of_lt h.lt)
  obtain ⟨first, ifs, _, _, hifs, -, he, -⟩ := h.ifEnd hop
  obtain ⟨rfl, -⟩ := Event.ifEnd.inj he
  obtain ⟨hlt, j, hj, hjop⟩ := hopened.ifs first (hifs ▸ .head _)
  refine ⟨⟨Nat.lt_succ_of_lt hlt, fun ho => ?_⟩, j, hj, hjop⟩
  -- It is not open a second time further out, and it is no method.
  rcases ho with ⟨other, hother, heq⟩ | hdef
  · have hnodup := nodup_ifs hr (Nat.le_of_lt h.lt)
    rw [h.ifs_succ, hop] at hother
    rw [hifs] at hnodup hother
    exact (List.nodup_cons.mp hnodup).1 (heq ▸ List.mem_map_of_mem hother)
  · rw [h.defs_succ, hop] at hdef
    obtain ⟨-, i', name, hi', hname⟩ := hopened.defs _ hdef
    obtain rfl := Option.some.inj (hj.symm.trans hi')
    rw [hjop] at hname
    cases hname

/-- **Operands are settled**, and none of them stands for a method. -/
theorem settled_of_mem_frames (hn : n ≤ code.length)
    (hmem : r ∈ (stateAt code n).frames.flatten) :
    Settled code n r ∧ ∀ j name, code[r]? = some j → j.op ≠ .defStart name := by
  induction n with
  | zero =>
    rw [stateAt_zero] at hmem
    cases hmem
  | succ n ih =>
    obtain ⟨e, hocc, -⟩ := exists_occurs hr (List.getElem?_eq_getElem (Nat.lt_of_succ_le hn))
    rw [hocc.state_succ] at hmem
    -- A value lies on a stack because this record pushed it, because a conditional ended here, or
    -- since before.
    rcases State.mem_effect hmem with ⟨rfl, hif, hdef⟩ | ⟨hop, rfl⟩ | hmem
    · refine ⟨settled_of_lt hr hocc.1 hif hdef (Nat.lt_succ_self _) hn, fun j name hj => ?_⟩
      obtain rfl := Option.some.inj (hocc.1.symm.trans hj)
      exact hdef name
    · -- What is pushed is the record of the conditional, which ends here.
      obtain ⟨o, ifs, v, _, hifs, -, rfl, -⟩ := hocc.ifEnd hop
      obtain ⟨hsettled, j, hj, hjop⟩ := settled_of_ifEnd hr hocc
      rw [hifs]
      refine ⟨hsettled, fun j' name hj' hname => ?_⟩
      obtain rfl := Option.some.inj (hj.symm.trans hj')
      rw [hjop] at hname
      cases hname
    · obtain ⟨hsettled, hdef⟩ := ih (Nat.le_of_succ_le hn) hmem
      exact ⟨hsettled.mono hr (Nat.le_succ n) hn, hdef⟩

end

/-! ### The frames of operands -/

/-- What stands on some operands, skipped records aside, stands in a frame. -/
def StandsIn (code : List Instruction) (n : Nat) (frame : Option Nat) (stack : List Nat) : Prop :=
  ∀ r ∈ stack, ¬ Skipped code n r → frameOf code r = frame

theorem StandsIn.succ {frame : Option Nat} {stack : List Nat} (h : StandsIn code n frame stack) :
    StandsIn code (n + 1) frame stack :=
  fun r hmem hskip => h r hmem fun hs => hskip (hs.mono (Nat.le_succ n))

/-- An instruction that leaves the frames open, and what it leaves on the operands. -/
theorem standsIn_keep {stack : List Nat} {outer : List (List Nat)}
    (h : List.Forall₂ (StandsIn code (n + 1)) (openFrames code n) (stack :: outer))
    (hop : openers code (n + 1) = openers code n) {left : List Nat}
    (hleft : ∀ r ∈ left, frameOf code r = frameOf code n ∨ r ∈ stack) :
    List.Forall₂ (StandsIn code (n + 1)) (openFrames code (n + 1)) (left :: outer) := by
  obtain ⟨others, hframes, -⟩ := openFrames_eq_cons code n
  rw [openFrames, hop, ← openFrames, hframes]
  rw [hframes] at h
  obtain ⟨hhead, hrest⟩ := List.forall₂_cons.mp h
  exact .cons (fun r hmem hskip => (hleft r hmem).elim id fun hr => hhead r hr hskip) hrest

/-- An instruction that closes a frame, and leaves skipped records alone. -/
theorem standsIn_close {d : Nat} {stack : List Nat} {outer : List (List Nat)}
    (h : List.Forall₂ (StandsIn code (n + 1)) (openFrames code n) (stack :: outer))
    (hcloses : Closes code d n) (hop : openers code (n + 1) = (openers code n).tail)
    (left : List Nat) (hleft : ∀ r ∈ left, Skipped code (n + 1) r) :
    List.Forall₂ (StandsIn code (n + 1)) (openFrames code (n + 1))
      ((left ++ outer.headD []) :: outer.tail) := by
  -- The frame that closes is the innermost, and what it leaves is pushed on the stack below.
  rw [openFrames, hcloses.openers_eq] at h
  rw [openFrames, hop, hcloses.openers_eq, List.tail_cons, ← openFrames]
  obtain ⟨-, hrest⟩ : _ ∧ List.Forall₂ (StandsIn code (n + 1)) (openFrames code d) outer :=
    List.forall₂_cons.mp h
  obtain ⟨others, hframes, -⟩ := openFrames_eq_cons code d
  rw [hframes] at hrest ⊢
  cases hrest with
  | cons hhead hothers =>
    refine .cons (fun r hmem hskip => ?_) hothers
    rcases List.mem_append.mp hmem with hmem | hmem
    · exact absurd (hleft r hmem) hskip
    · exact hhead r hmem hskip

/-- One more instruction. What it pushes stands in its own frame, with one exception: what a
conditional pushes when it ends is the record that opened it, where the branches had not begun. -/
theorem standsIn_succ (hr : (trace code).error? = none) (hrole : Role code links n i.op)
    (hocc : Occurs code n i e)
    (h : List.Forall₂ (StandsIn code n) (openFrames code n) (stateAt code n).frames) :
    List.Forall₂ (StandsIn code (n + 1)) (openFrames code (n + 1))
      (stateAt code (n + 1)).frames := by
  have hold : List.Forall₂ (StandsIn code (n + 1)) (openFrames code n)
      ((stateAt code n).stack :: (stateAt code n).outer) := h.imp fun _ _ => StandsIn.succ
  have hopeners := openers_succ hocc.1
  have push : ∀ r ∈ n :: (stateAt code n).stack,
      frameOf code r = frameOf code n ∨ r ∈ (stateAt code n).stack := by
    intro r hmem
    rcases List.mem_cons.mp hmem with rfl | hmem
    · exact .inl rfl
    · exact .inr hmem
  have htail : ∀ {r}, r ∈ (stateAt code n).stack.tail → r ∈ (stateAt code n).stack :=
    List.mem_of_mem_tail
  rw [hocc.state_succ]
  cases ho : i.op with
  | pushNil | pushInt _ | pushStr _ | pushConst _ | pushVar _ | pushArg _ =>
    rw [ho] at hopeners
    exact standsIn_keep hold hopeners push
  | setVar name =>
    rw [ho] at hopeners
    exact standsIn_keep hold hopeners fun r hmem => .inr (htail hmem)
  | send name count =>
    rw [ho] at hopeners
    refine standsIn_keep hold hopeners fun r hmem => ?_
    rcases List.mem_cons.mp hmem with rfl | hmem
    · exact .inl rfl
    · exact .inr (List.mem_of_mem_drop (List.mem_of_mem_tail hmem))
  | ifStart =>
    rw [ho] at hopeners
    exact standsIn_keep hold hopeners fun r hmem => .inr (htail hmem)
  | ifElse =>
    rw [ho] at hopeners
    exact standsIn_keep hold hopeners fun r hmem => .inr (htail (List.mem_of_mem_drop hmem))
  | ifEnd =>
    rw [ho] at hopeners hrole
    obtain ⟨start, opener, value, hbranch, -⟩ := hrole
    obtain ⟨rest, hbefore⟩ := hbranch.state_eq hr
    refine standsIn_keep hold hopeners fun r hmem => ?_
    rcases List.mem_cons.mp hmem with rfl | hmem
    · rw [hbefore]
      exact .inl hbranch.frameOf_opener
    · exact .inr (htail (List.mem_of_mem_drop hmem))
  | defStart name | classStart name =>
    rw [ho] at hopeners
    rw [openFrames, hopeners]
    exact .cons (fun _ hmem => absurd hmem List.not_mem_nil) hold
  | defEnd name =>
    -- The value of the body is left to the frame around the method, where it counts as skipped.
    rw [ho] at hopeners hrole
    obtain ⟨d, _, _, _, value, hcloses, -, -, hends, -⟩ := hrole
    obtain ⟨_, _, _, rest, -, hstack, he, -⟩ := hends.defEnd (hends.unique hocc |>.1 ▸ ho)
    obtain ⟨-, rfl⟩ := Event.defEnd.inj he
    rw [State.effect, hstack]
    exact standsIn_close hold hcloses hopeners [value] fun r hmem =>
      List.mem_singleton.mp hmem ▸ ⟨n, Nat.lt_succ_self n, _, d, hends⟩
  | classEnd name =>
    rw [ho] at hopeners hrole
    obtain ⟨c, _, _, hcloses, -⟩ := hrole
    exact standsIn_close hold hcloses hopeners [] fun _ hmem => absurd hmem List.not_mem_nil
  | unknown opcode operand => exact absurd ho hocc.ne_unknown

/-- **Operands stand in the frame that they are operands of**, unless they were skipped. -/
theorem standsIn_frames (hr : (trace code).error? = none) (hroles : Roles code links 0 code.length)
    (hn : n ≤ code.length) :
    List.Forall₂ (StandsIn code n) (openFrames code n) (stateAt code n).frames := by
  induction n with
  | zero =>
    rw [stateAt_zero]
    exact .cons nofun .nil
  | succ n ih =>
    obtain ⟨e, hocc, -⟩ := exists_occurs hr (List.getElem?_eq_getElem (Nat.lt_of_succ_le hn))
    have hrole := hroles n _ (Nat.zero_le n) hocc.lt hocc.1
    exact standsIn_succ hr hrole hocc (ih (Nat.le_of_succ_le hn))

/-! ### Operands -/

/-- The records whose values an instruction hands on: all that it consumes, conditions aside. -/
def Event.values : Event → List Nat
  | .setVar v | .defEnd _ v | .ifElse _ v | .ifEnd _ v => [v]
  | .send r args => r :: args
  | _ => []

/-- A record stands for a value that has been computed in the frame of an instruction, before it. -/
structure Operand (code : List Instruction) (n v : Nat) : Prop where
  settled : Settled code n v
  frame : frameOf code v = frameOf code n
  value : ∀ j name, code[v]? = some j → j.op ≠ .defStart name

/-- What an instruction hands on is an operand. -/
theorem Occurs.mem_stack (h : Occurs code n i e) (hv : v ∈ e.values) :
    v ∈ (stateAt code n).stack := by
  -- On the event: whatever it reads was on top of the stack, or right below it.
  cases e with
  | setVar value =>
    obtain rfl := List.mem_singleton.mp hv
    obtain ⟨name, ho⟩ := h.op_of_setVar
    obtain ⟨_, _, hstack, he, -⟩ := h.setVar ho
    obtain rfl := Event.setVar.inj he
    exact hstack ▸ .head _
  | send r args =>
    obtain ⟨name, count, ho⟩ := h.op_of_send
    obtain ⟨_, _, _, hstack, -, he, -⟩ := h.send ho
    obtain ⟨rfl, rfl⟩ := Event.send.inj he
    rw [hstack, List.mem_append, List.mem_reverse]
    exact (List.mem_cons.mp hv).elim (fun hr => .inr (hr ▸ .head _)) .inl
  | defEnd d value =>
    obtain rfl := List.mem_singleton.mp hv
    obtain ⟨name, ho⟩ := h.op_of_defEnd
    obtain ⟨_, _, _, _, -, hstack, he, -⟩ := h.defEnd ho
    obtain ⟨-, rfl⟩ := Event.defEnd.inj he
    exact hstack ▸ .head _
  | ifElse o value =>
    obtain rfl := List.mem_singleton.mp hv
    obtain ⟨_, _, _, _, -, hstack, he, -⟩ := h.ifElse h.op_of_ifElse
    obtain ⟨-, rfl⟩ := Event.ifElse.inj he
    exact hstack ▸ .head _
  | ifEnd o value =>
    obtain rfl := List.mem_singleton.mp hv
    obtain ⟨_, _, _, _, -, hstack, he, -⟩ := h.ifEnd h.op_of_ifEnd
    obtain ⟨-, rfl⟩ := Event.ifEnd.inj he
    exact hstack ▸ .head _
  | _ => cases hv

/-- It was not skipped. -/
theorem Occurs.not_skipped (hr : (trace code).error? = none)
    (hroles : Roles code links 0 code.length) (h : Occurs code n i e) (hv : v ∈ e.values) :
    ¬ Skipped code n v := by
  have hrole := hroles n i (Nat.zero_le n) h.lt h.1
  -- On the event: the role of the record says what lay on the stack, and that it was evaluated.
  cases e with
  | setVar value =>
    obtain rfl := List.mem_singleton.mp hv
    obtain ⟨name, ho⟩ := h.op_of_setVar
    rw [ho] at hrole
    obtain ⟨value, rest, hstack, hskip⟩ := hrole
    obtain ⟨_, _, hstack', he, -⟩ := h.setVar ho
    obtain ⟨rfl, -⟩ := List.cons.inj (hstack.symm.trans hstack')
    obtain rfl := Event.setVar.inj he
    exact hskip
  | send r args =>
    obtain ⟨name, count, ho⟩ := h.op_of_send
    rw [ho] at hrole
    obtain ⟨others, receiver, rest, hstack, hlen, hskip⟩ := hrole
    obtain ⟨_, _, _, hstack', hlen', he, -⟩ := h.send ho
    obtain ⟨rfl, rfl⟩ := Event.send.inj he
    rw [ho] at hlen'
    -- Both accounts of the stack have as many arguments, so they agree part by part.
    obtain ⟨rfl, htail⟩ := List.append_inj (hstack'.symm.trans hstack) (by simp [hlen, hlen'])
    obtain ⟨rfl, -⟩ := List.cons.inj htail
    refine hskip v ?_
    rcases List.mem_cons.mp hv with rfl | hv <;> simp [*]
  | defEnd d value =>
    obtain rfl := List.mem_singleton.mp hv
    obtain ⟨name, ho⟩ := h.op_of_defEnd
    rw [ho] at hrole
    obtain ⟨_, _, _, _, value, -, -, -, hends, hskip⟩ := hrole
    obtain ⟨rfl, rfl⟩ := Event.defEnd.inj (h.unique hends).2
    exact hskip
  | ifElse o value =>
    obtain rfl := List.mem_singleton.mp hv
    have ho := h.op_of_ifElse
    rw [ho] at hrole
    obtain ⟨_, _, _, _, -, -, -, hbranch, -⟩ := hrole
    obtain ⟨_, _, _, _, -, hstack, he, -⟩ := h.ifElse ho
    obtain ⟨-, rfl⟩ := Event.ifElse.inj he
    obtain ⟨_, hstack'⟩ := hbranch.stack_eq hr
    obtain ⟨rfl, -⟩ := List.cons.inj (hstack.symm.trans hstack')
    exact hbranch.evaluated
  | ifEnd o value =>
    obtain rfl := List.mem_singleton.mp hv
    have ho := h.op_of_ifEnd
    rw [ho] at hrole
    obtain ⟨_, _, _, hbranch, -⟩ := hrole
    obtain ⟨_, _, _, _, -, hstack, he, -⟩ := h.ifEnd ho
    obtain ⟨-, rfl⟩ := Event.ifEnd.inj he
    obtain ⟨_, hstack'⟩ := hbranch.stack_eq hr
    obtain ⟨rfl, -⟩ := List.cons.inj (hstack.symm.trans hstack')
    exact hbranch.evaluated
  | _ => cases hv

/-- **What an instruction hands on has been computed in its frame.** -/
theorem Occurs.operand (hr : (trace code).error? = none)
    (hroles : Roles code links 0 code.length) (h : Occurs code n i e) (hv : v ∈ e.values) :
    Operand code n v := by
  have hskip := h.not_skipped hr hroles hv
  obtain ⟨hsettled, hvalue⟩ :=
    settled_of_mem_frames hr (Nat.le_of_lt h.lt) (List.mem_append_left _ (h.mem_stack hv))
  refine ⟨hsettled, ?_, hvalue⟩
  have hstands := standsIn_frames hr hroles (Nat.le_of_lt h.lt)
  obtain ⟨others, hframes, -⟩ := openFrames_eq_cons code n
  rw [hframes] at hstands
  exact (List.forall₂_cons.mp hstands).1 v (h.mem_stack hv) hskip

end Replay
end Rubylet
