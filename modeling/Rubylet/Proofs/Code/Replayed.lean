import Rubylet.Proofs.Code.Layout
import Rubylet.Proofs.Replay.Events

/-!
# Replaying laid out code

What a part of a program leaves behind when it is replayed. `Layout.replays` says that it leaves the
open blocks as it found them and some records on the operands: one for an expression, one for each
argument, at least one for a body.

A definition leaves the record of its body's value on the operands outside, although nothing has
been evaluated there. Such a record is `Skipped` from then on. No instruction ever consumes one.
-/

namespace Rubylet

namespace Replay

variable {code : List Instruction} {n n' k r : Nat} {i : Instruction} {e : Event}

/-! ### Frames and skipped definitions -/

/-- The records that opened the frames around an instruction, the innermost first. -/
def openers (code : List Instruction) : Nat → List Nat
  | 0 => []
  | n + 1 =>
    match code[n]?.map Instruction.op with
    | some (.defStart _) | some (.classStart _) => n :: openers code n
    | some (.defEnd _) | some (.classEnd _) => (openers code n).tail
    | _ => openers code n

/-- The record that opened the frame of an instruction; the main program has none. -/
def frameOf (code : List Instruction) (n : Nat) : Option Nat := (openers code n).head?

/-- Before a point, a definition has ended that left a record outside. -/
def Skipped (code : List Instruction) (n r : Nat) : Prop :=
  ∃ j < n, ∃ i d, Occurs code j i (.defEnd d r)

/-- A definition or a class opens a level, and the record that closes it takes the level away. -/
theorem openers_succ (hi : code[n]? = some i) :
    openers code (n + 1) =
      match i.op with
      | .defStart _ | .classStart _ => n :: openers code n
      | .defEnd _ | .classEnd _ => (openers code n).tail
      | _ => openers code n := by
  rw [openers, hi, Option.map_some]
  cases i.op <;> rfl

/-- An open level was opened by an earlier record. -/
theorem openers_lt : ∀ n, ∀ o ∈ openers code n, o < n := by
  intro n
  induction n with
  | zero => exact nofun
  | succ n ih =>
    intro o ho
    -- A level that was open already was opened before.
    have old : o ∈ openers code n → o < n + 1 := fun h => Nat.lt_succ_of_lt (ih o h)
    rw [openers] at ho
    split at ho
    · exact (List.mem_cons.mp ho).elim (fun h => h ▸ Nat.lt_succ_self n) old
    · exact (List.mem_cons.mp ho).elim (fun h => h ▸ Nat.lt_succ_self n) old
    · exact old (List.mem_of_mem_tail ho)
    · exact old (List.mem_of_mem_tail ho)
    · exact old ho

/-- A record that is skipped stays skipped. -/
theorem Skipped.mono (h : Skipped code n r) (hn : n ≤ n') : Skipped code n' r := by
  obtain ⟨j, hj, h⟩ := h
  exact ⟨j, Nat.lt_of_lt_of_le hj hn, h⟩

/-- Only the end of a definition skips a record. -/
theorem skipped_succ_iff (hi : code[n]? = some i) (ho : ∀ name, i.op ≠ .defEnd name) :
    Skipped code (n + 1) r ↔ Skipped code n r := by
  refine ⟨?_, fun h => h.mono (Nat.le_succ n)⟩
  rintro ⟨j, hj, i', d, h⟩
  rcases Nat.lt_succ_iff_lt_or_eq.mp hj with hj | rfl
  · exact ⟨j, hj, i', d, h⟩
  · obtain rfl := Option.some.inj (hi.symm.trans h.1)
    obtain ⟨name, hname⟩ := h.op_of_defEnd
    exact absurd hname (ho name)

/-- Every record on the operands stands before the point. -/
theorem records_lt (hr : (trace code).error? = none) :
    ∀ n, ∀ r ∈ (stateAt code n).frames.flatten, r < n := by
  intro n
  induction n with
  | zero =>
    intro r hmem
    rw [stateAt_zero] at hmem
    cases hmem
  | succ n ih =>
    intro r hmem
    rcases Nat.lt_or_ge n code.length with hn | hn
    · obtain ⟨e, h, -⟩ := exists_occurs hr (List.getElem?_eq_getElem hn)
      have hopened := (opened_stateAt hr n (Nat.le_of_lt hn)).ifs
      rw [h.state_succ] at hmem
      -- A record on the operands is that of the instruction, that of a conditional opened before,
      -- or old.
      rcases State.mem_effect hmem with ⟨rfl, -⟩ | ⟨-, rfl⟩ | hmem
      · exact Nat.lt_succ_self _
      · cases hifs : (stateAt code n).ifs with
        | nil => exact Nat.succ_pos n
        | cons o ifs => exact Nat.lt_succ_of_lt (hopened o (hifs ▸ .head _)).1
      · exact Nat.lt_succ_of_lt (ih r hmem)
    · rw [stateAt_of_length_le (Nat.le_succ_of_le hn), ← stateAt_of_length_le hn] at hmem
      exact Nat.lt_succ_of_lt (ih r hmem)

theorem stack_lt (hr : (trace code).error? = none) (h : r ∈ (stateAt code n).stack) : r < n :=
  records_lt hr n r (List.mem_append_left _ h)

/-- A record is skipped after the instruction behind it at the earliest. -/
theorem Skipped.lt (hr : (trace code).error? = none) (h : Skipped code (n + 1) r) : r < n := by
  obtain ⟨j, hj, i, d, h⟩ := h
  obtain ⟨name, ho⟩ := h.op_of_defEnd
  obtain ⟨_, _, _, rest, -, hstack, he, -⟩ := h.defEnd ho
  obtain ⟨rfl, rfl⟩ := Event.defEnd.inj he
  have := stack_lt hr (hstack ▸ List.mem_cons_self : r ∈ _)
  omega

/-- The record of the last instruction is not skipped. -/
theorem not_skipped_succ (hr : (trace code).error? = none) : ¬ Skipped code (n + 1) n :=
  fun h => Nat.lt_irrefl n (h.lt hr)

/-! ### What a stretch of code leaves -/

/-- Between two points the open blocks end as they began, and some records are left. -/
structure Replays (code : List Instruction) (n n' : Nat) (left : List Nat) : Prop where
  state_eq : stateAt code n' = { stateAt code n with stack := left ++ (stateAt code n).stack }
  openers_eq : openers code n' = openers code n
  fresh : ∀ r ∈ left, n ≤ r
  /-- No older record is skipped. -/
  skipped : ∀ r < n, Skipped code n' r → Skipped code n r

namespace Replays

variable {left left' : List Nat}

theorem refl (code : List Instruction) (n : Nat) : Replays code n n [] :=
  ⟨rfl, rfl, nofun, fun _ _ h => h⟩

/-- The point that a stretch reaches to, under another name. -/
theorem reaches (h : Replays code n k left) (hk : k = n') : Replays code n n' left := hk ▸ h

/-- Two stretches in turn leave what each of them leaves, the later on top. -/
theorem trans (h : Replays code n k left) (h' : Replays code k n' left') (hn : n ≤ k) :
    Replays code n n' (left' ++ left) := by
  refine ⟨?_, h'.openers_eq.trans h.openers_eq, ?_, ?_⟩
  · rw [h'.state_eq, h.state_eq, List.append_assoc]
  · intro r hr
    rcases List.mem_append.mp hr with hr | hr
    · exact Nat.le_trans hn (h'.fresh r hr)
    · exact h.fresh r hr
  · intro r hlt hs
    exact h.skipped r hlt (h'.skipped r (Nat.lt_of_lt_of_le hlt hn) hs)

theorem stack (h : Replays code n n' left) :
    (stateAt code n').stack = left ++ (stateAt code n).stack := by rw [h.state_eq]

/-- One more instruction that neither opens nor closes a frame. -/
theorem snoc (h : Replays code n k left) (ho : Occurs code k i e)
    (hop : openers code (k + 1) = openers code k)
    (hstate : (stateAt code k).effect k i.op =
      { stateAt code n with stack := left' ++ (stateAt code n).stack })
    (hfresh : ∀ r ∈ left', n ≤ r) (hend : ∀ name, i.op ≠ .defEnd name) :
    Replays code n (k + 1) left' := by
  refine ⟨ho.state_succ.trans hstate, hop.trans h.openers_eq, hfresh, ?_⟩
  intro r hlt hs
  exact h.skipped r hlt ((skipped_succ_iff ho.1 hend).mp hs)

section

variable (hr : (trace code).error? = none)

include hr

/-- A record that is on the operands before a stretch is not skipped in it. -/
theorem keeps (h : Replays code k n' left) (hmem : r ∈ (stateAt code k).stack)
    (hskip : ¬ Skipped code k r) : ¬ Skipped code n' r :=
  fun h' => hskip (h.skipped r (stack_lt hr hmem) h')

/-- A record is pushed. -/
theorem push (hi : code[n]? = some i) (hp : ∀ s k, State.effect s k i.op = s.push k)
    (hop : openers code (n + 1) = openers code n) (hend : ∀ name, i.op ≠ .defEnd name) :
    Replays code n (n + 1) [n] := by
  obtain ⟨e, ho, -⟩ := exists_occurs hr hi
  refine (refl code n).snoc ho hop (hp _ _) ?_ hend
  intro r hmem
  exact Nat.le_of_eq (List.mem_singleton.mp hmem).symm

/-- An assignment takes the value its own part left. -/
theorem setVar {v : Nat} {name : String} (h : Replays code n k [v])
    (hi : code[k]? = some i) (hop : i.op = .setVar name) : Replays code n (k + 1) [] := by
  obtain ⟨e, ho, -⟩ := exists_occurs hr hi
  refine h.snoc ho ?_ ?_ nofun (by simp [hop])
  · rw [openers_succ hi, hop]
  · rw [hop, State.effect, h.state_eq]
    rfl

/-- A call takes the receiver and the arguments and leaves its own record. -/
theorem send {name : String} {count : Option Int} {args : List Nat} {receiver : Nat}
    (h : Replays code n k (args ++ [receiver])) (hn : n ≤ k) (hi : code[k]? = some i)
    (hop : i.op = .send name count) (hargs : args.length = i.op.argCount) :
    Replays code n (k + 1) [k] := by
  obtain ⟨e, ho, -⟩ := exists_occurs hr hi
  refine h.snoc ho ?_ ?_ ?_ (by simp [hop])
  · rw [openers_succ hi, hop]
  · have hdrop : (stateAt code k).stack.drop i.op.argCount =
        receiver :: (stateAt code n).stack := by
      rw [h.stack, ← hargs, List.append_assoc, List.drop_left]
      rfl
    -- The message takes its arguments and its receiver off, which is all that was left since `n`.
    rw [hop] at hdrop ⊢
    rw [State.effect, hdrop, h.state_eq]
    rfl
  · intro r hmem
    rw [List.mem_singleton.mp hmem]
    exact hn

/-- The second branch starts from where the first one did. -/
theorem ifElse {v : Nat} {rest : List Nat} {start : Instruction}
    (hs : code[k]? = some start) (hstart : start.op = .ifStart)
    (h : Replays code (k + 1) n (v :: rest))
    (hi : code[n]? = some i) (hop : i.op = .ifElse) : Replays code (k + 1) (n + 1) [] := by
  obtain ⟨f, hf, -⟩ := exists_occurs hr hs
  obtain ⟨e, ho, -⟩ := exists_occurs hr hi
  have hopened := hf.state_succ
  rw [hstart, State.effect] at hopened
  refine h.snoc ho ?_ ?_ (fun _ h => by cases h) (by simp [hop])
  · rw [openers_succ hi, hop]
  -- The operands are cut back to their height when the conditional was opened.
  · rw [hop, State.effect, h.state_eq, hopened]
    simp [OperandStack.truncate]

/-- The record of a conditional is not skipped where the conditional ends. -/
theorem not_skipped_ifEnd (h : Replays code (k + 1) n left) (hi : code[n]? = some i)
    (hop : i.op = .ifEnd) : ¬ Skipped code (n + 1) k := by
  rw [skipped_succ_iff hi (by simp [hop])]
  exact fun hskip => not_skipped_succ hr (h.skipped k (Nat.lt_succ_self k) hskip)

/-- A conditional leaves its own record. -/
theorem ifEnd {c v m : Nat} {rest : List Nat} {start : Instruction}
    (hc : Replays code n k [c]) (hn : n ≤ k) (hs : code[k]? = some start)
    (hstart : start.op = .ifStart) (h : Replays code (k + 1) m (v :: rest))
    (hi : code[m]? = some i) (hop : i.op = .ifEnd) : Replays code n (m + 1) [k] := by
  obtain ⟨f, hf, -⟩ := exists_occurs hr hs
  obtain ⟨e, ho, -⟩ := exists_occurs hr hi
  have hopened := hf.state_succ
  rw [hstart, State.effect, hc.state_eq] at hopened
  have hk : openers code (k + 1) = openers code k := by rw [openers_succ hs, hstart]
  refine ⟨?_, ?_, ?_, ?_⟩
  · rw [ho.state_succ, hop, State.effect, h.state_eq, hopened]
    simp [OperandStack.truncate]
  · rw [openers_succ hi, hop]
    exact h.openers_eq.trans (hk.trans hc.openers_eq)
  · intro r hmem
    rw [List.mem_singleton.mp hmem]
    exact hn
  -- An older record would have been skipped within the branches, or before the condition was read.
  · intro r hlt hskip
    have h₁ := (skipped_succ_iff hi (by simp [hop])).mp hskip
    have h₂ := h.skipped r (by omega) h₁
    exact hc.skipped r hlt ((skipped_succ_iff hs (by simp [hstart])).mp h₂)

/-- A definition leaves the record of its body's value, which is skipped. -/
theorem method {v : Nat} {rest : List Nat} {name name' : String} {start : Instruction}
    (hs : code[n]? = some start) (hstart : start.op = .defStart name)
    (h : Replays code (n + 1) k (v :: rest))
    (hi : code[k]? = some i) (hop : i.op = .defEnd name') :
    Occurs code k i (.defEnd n v) ∧ Replays code n (k + 1) [v] := by
  obtain ⟨f, hf, -⟩ := exists_occurs hr hs
  obtain ⟨e, ho, -⟩ := exists_occurs hr hi
  have hopened := hf.state_succ
  rw [hstart, State.effect] at hopened
  obtain ⟨d, defs, r, below, hdefs, hstack, he, -⟩ := ho.defEnd hop
  -- What the end of the definition closes and pops is what its body has left.
  rw [h.state_eq, hopened] at hdefs hstack
  obtain ⟨rfl, -⟩ := List.cons.inj (show n :: _ = d :: defs from hdefs)
  obtain ⟨rfl, -⟩ := List.cons.inj (show v :: _ = r :: below from hstack)
  have hv : n + 1 ≤ v := h.fresh v (.head _)
  refine ⟨he ▸ ho, ?_, ?_, ?_, ?_⟩
  · rw [ho.state_succ, hop, State.effect, h.state_eq, hopened]
    rfl
  · rw [openers_succ hi, hop]
    simp only [h.openers_eq, openers_succ hs, hstart, List.tail_cons]
  · intro r hmem
    rw [List.mem_singleton.mp hmem]
    omega
  · -- The end of the definition skips the value of the body, which is younger than `n`.
    rintro r hlt ⟨j, hj, i', d, hocc⟩
    rcases Nat.lt_succ_iff_lt_or_eq.mp hj with hj | rfl
    · have h₁ := h.skipped r (by omega) ⟨j, hj, i', d, hocc⟩
      exact (skipped_succ_iff hs (by simp [hstart])).mp h₁
    · obtain ⟨-, rfl⟩ := Event.defEnd.inj ((ho.unique hocc).2.symm.trans he)
      omega

/-- A class leaves nothing. -/
theorem cls {left : List Nat} {name name' : String} {start : Instruction}
    (hs : code[n]? = some start) (hstart : start.op = .classStart name)
    (h : Replays code (n + 1) k left) (hi : code[k]? = some i) (hop : i.op = .classEnd name') :
    Replays code n (k + 1) [] := by
  obtain ⟨f, hf, -⟩ := exists_occurs hr hs
  obtain ⟨e, ho, -⟩ := exists_occurs hr hi
  obtain ⟨hcls, -, hopened⟩ := hf.classStart hstart
  refine ⟨?_, ?_, nofun, ?_⟩
  · rw [ho.state_succ, hop, State.effect, h.state_eq, hopened]
    -- A class stands outside of classes, so leaving it brings back the class there was before:
    -- none.
    simp only [State.closeFrame, State.openFrame, List.tail_cons, List.headD_cons, ← hcls,
      List.nil_append]
  · rw [openers_succ hi, hop]
    simp only [h.openers_eq, openers_succ hs, hstart, List.tail_cons]
  · intro r hlt hskip
    have h₁ := (skipped_succ_iff hi (by simp [hop])).mp hskip
    exact (skipped_succ_iff hs (by simp [hstart])).mp (h.skipped r (by omega) h₁)

/-- The parameters leave nothing. -/
theorem params (ps : List Param) : ∀ n, ParamsAt code n ps → Replays code n (n + 2 * ps.length) [] := by
  induction ps with
  | nil => exact fun n _ => refl code n
  | cons p ps ih =>
    intro n h
    -- The push leaves the parameter, and the assignment takes it at once.
    have hpush : Replays code n (n + 1) [n] := by
      refine Replays.push hr (CodeAt.head h) (fun _ _ => rfl) ?_ (by simp)
      rw [openers_succ (CodeAt.head h)]
    have hset := hpush.setVar hr (CodeAt.head (CodeAt.tail h)) rfl
    -- Nothing is left of this parameter, so the rest starts from the same stack.
    refine (hset.trans (ih (n + 2) (CodeAt.tail (CodeAt.tail h))) (by omega)).reaches ?_
    simp only [List.length_cons]
    omega

end

end Replays

end Replay

/-! ### What a part leaves -/

open Replay

/-- What a part of a program leaves on the operands when it ends at a point. -/
def Part.Leaves (code : List Instruction) (n : Nat) : Part → List Nat → Prop
  | .expr _ | .receiver _ _ => fun left => ∃ r, left = [r] ∧ ¬ Skipped code n r
  | .exprs xs => fun left => left.length = xs.length ∧ ∀ r ∈ left, ¬ Skipped code n r
  | .body _ _ => fun left => ∃ r rest, left = r :: rest ∧ ¬ Skipped code n r
  | .statement x => fun left =>
    Lowering.closing x = [] → ∃ r rest, left = r :: rest ∧ ¬ Skipped code n r
  | .statements xs => fun left =>
    xs ≠ [] → Lowering.closingLast xs = [] → ∃ r rest, left = r :: rest ∧ ¬ Skipped code n r

theorem Lowering.closingLast_singleton (x : Node) : closingLast [x] = closing x := rfl

theorem Lowering.closingLast_cons (x y : Node) (xs : List Node) :
    closingLast (x :: y :: xs) = closingLast (y :: xs) := by
  simp only [closingLast, List.getLast?_cons_cons]

section Layout

variable {code : List Instruction} {links : Nat → Nat → Prop} {inside : Option String}
  {p : Part} {n n' : Nat}

theorem replays_leaf {x : Node} {i : Instruction} (hr : (trace code).error? = none)
    (hx : x.leaf? = some i) (hi : code[n]? = some i) : Replays code n (n + 1) [n] := by
  refine Replays.push hr hi ?_ ?_ ?_
  · cases x <;> cases hx <;> exact fun _ _ => rfl
  · rw [openers_succ hi]
    cases x <;> cases hx <;> rfl
  · cases x <;> cases hx <;> simp

theorem replays_closing {xs : List Node} {i : Instruction} (hr : (trace code).error? = none)
    (hx : Lowering.closingLast xs = [i]) (hi : code[n]? = some i) :
    Replays code n (n + 1) [n] := by
  -- The record belongs to the last statement: an assignment, a definition or a class.
  obtain ⟨x, hx⟩ : ∃ x, Lowering.closing x = [i] := by
    unfold Lowering.closingLast at hx
    split at hx
    · exact ⟨_, hx⟩
    · cases hx
  refine Replays.push hr hi ?_ ?_ ?_
  · cases x <;> cases hx <;> exact fun _ _ => rfl
  · rw [openers_succ hi]
    cases x <;> cases hx <;> rfl
  · cases x <;> cases hx <;> simp

/-- **What a part leaves when it is replayed.** -/
theorem Layout.replays (hr : (trace code).error? = none) (h : Layout code links inside p n n') :
    ∃ left, Replays code n n' left ∧ p.Leaves code n' left := by
  induction h with
  | leaf hx hi => exact ⟨_, replays_leaf hr hx hi, _, rfl, not_skipped_succ hr⟩
  | @call inside pos r name args n k j hrec hargs hi ihr ihargs =>
    obtain ⟨_, h₁, receiver, rfl, -⟩ := ihr
    obtain ⟨operands, h₂, hlen, -⟩ := ihargs
    refine ⟨[j], ?_, j, rfl, not_skipped_succ hr⟩
    exact (h₁.trans h₂ hrec.le).send hr (Nat.le_trans hrec.le hargs.le) hi rfl hlen
  | @conditional inside pos c t e n k j m hc hs ht he hf hd _ _ ihc iht ihf =>
    obtain ⟨_, h₁, condition, rfl, -⟩ := ihc
    obtain ⟨_, h₂, v, rest, rfl, -⟩ := iht
    obtain ⟨_, h₃, w, rest', rfl, -⟩ := ihf
    have hle := ht.le
    -- The first branch is thrown away where the second one starts, so only one value is joined.
    have hboth := (h₂.ifElse hr hs rfl he rfl).trans h₃ (by omega)
    rw [List.append_nil] at hboth
    exact ⟨[k], Replays.ifEnd hr h₁ hc.le hs rfl hboth hd rfl, k, rfl,
      hboth.not_skipped_ifEnd hr hd rfl⟩
  | absent hi =>
    refine ⟨_, .push hr hi (fun _ _ => rfl) ?_ (by simp), _, rfl, not_skipped_succ hr⟩
    rw [openers_succ hi]
  | present _ ih => exact ih
  | expression _ ih =>
    obtain ⟨left, h, r, rfl, hskip⟩ := ih
    exact ⟨_, h, fun _ => ⟨r, [], rfl, hskip⟩⟩
  | noExprs => exact ⟨[], .refl code _, rfl, nofun⟩
  | moreExprs hx hxs ihx ihxs =>
    obtain ⟨_, h₁, r, rfl, hskip⟩ := ihx
    obtain ⟨left, h₂, hlen, hskips⟩ := ihxs
    refine ⟨left ++ [r], h₁.trans h₂ hx.le, by simp [hlen], ?_⟩
    intro s hs
    rcases List.mem_append.mp hs with hs | hs
    · exact hskips s hs
    · obtain rfl := List.mem_singleton.mp hs
      exact h₂.keeps hr (h₁.stack ▸ List.mem_append_left _ (.head _)) hskip
  | assign hv hi ih =>
    obtain ⟨_, h, v, rfl, -⟩ := ih
    exact ⟨[], h.setVar hr hi rfl, nofun⟩
  | methodDef hs _ hp hb he _ ih =>
    obtain ⟨_, h, v, rest, rfl, -⟩ := ih
    have hbody := (Replays.params hr _ _ hp).trans h (by omega)
    rw [List.append_nil] at hbody
    exact ⟨_, (Replays.method hr hs rfl hbody he rfl).2, nofun⟩
  | classDef hs hb he _ ih =>
    obtain ⟨left, h, -⟩ := ih
    exact ⟨[], h.cls hr hs rfl he rfl, nofun⟩
  | noStatements => exact ⟨[], .refl code _, nofun⟩
  | @moreStatements _ x xs _ _ _ hx hxs ihx ihxs =>
    obtain ⟨left, h₁, hleaves⟩ := ihx
    obtain ⟨left', h₂, hleaves'⟩ := ihxs
    -- Of several statements the last one decides whether a value is left.
    cases xs with
    | nil =>
      cases hxs
      exact ⟨left, h₁, fun _ => hleaves⟩
    | cons y ys =>
      refine ⟨_, h₁.trans h₂ hx.le, fun _ hclosing => ?_⟩
      rw [Lowering.closingLast_cons] at hclosing
      obtain ⟨r, rest, rfl, hskip⟩ := hleaves' (by simp) hclosing
      exact ⟨r, rest ++ left, rfl, hskip⟩
  | missing hi =>
    refine ⟨_, .push hr hi (fun _ _ => rfl) ?_ (by simp), _, _, rfl, not_skipped_succ hr⟩
    rw [openers_succ hi]
  | empty hi =>
    refine ⟨_, .push hr hi (fun _ _ => rfl) ?_ (by simp), _, _, rfl, not_skipped_succ hr⟩
    rw [openers_succ hi]
  | left hne _ hc ih =>
    obtain ⟨left, h, hleaves⟩ := ih
    exact ⟨left, h, hleaves hne hc⟩
  | closed hxs hc hi ih =>
    obtain ⟨left, h, -⟩ := ih
    exact ⟨_, h.trans (replays_closing hr hc hi) hxs.le, _, _, rfl, not_skipped_succ hr⟩

end Layout

end Rubylet
