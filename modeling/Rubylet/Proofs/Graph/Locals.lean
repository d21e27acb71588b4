import Mathlib.Data.List.Forall2
import Rubylet.Proofs.Code.Role
import Rubylet.Proofs.Graph.Wired

/-!
# Tables of locals

A wiring keeps a table of locals for every frame that is open. What is in it can be told without the
wiring: a table holds the first assignment to each name in its frame (`Wired.tablesFit`). That is so
for every wiring, also for one that stops later.

A name is looked up in the table of the innermost frame, so it is the first assignment in this frame
that is found (`Wired.scope_get?_iff`).
-/

namespace Rubylet

open Replay

variable {code : List Instruction} {g : Graph} {links : Nat → Nat → Prop} {n : Nat}
  {i : Instruction} {e : Event} {frame : Option Nat} {name : String} {w : Wiring.State}

/-! ### Frames -/

/-- The frames that are open at a point, by the records that opened them; the main program is the
last. -/
def Replay.openFrames (code : List Instruction) (n : Nat) : List (Option Nat) :=
  (openers code n).map some ++ [none]

/-- Of two open frames the inner one was opened later. -/
theorem Replay.pairwise_openers (code : List Instruction) (n : Nat) :
    (openers code n).Pairwise (· > ·) := by
  induction n with
  | zero => exact .nil
  | succ n ih =>
    -- An opening record is above all the earlier ones, a closing record drops the innermost.
    rw [openers]
    split
    · exact .cons (openers_lt n) ih
    · exact .cons (openers_lt n) ih
    · exact ih.tail
    · exact ih.tail
    · exact ih

theorem Replay.mem_openers_of_succ {code : List Instruction} {o n : Nat}
    (h : o ∈ openers code (n + 1)) (hne : o ≠ n) : o ∈ openers code n := by
  rw [openers] at h
  split at h
  · exact (List.mem_cons.mp h).resolve_left hne
  · exact (List.mem_cons.mp h).resolve_left hne
  · exact List.mem_of_mem_tail h
  · exact List.mem_of_mem_tail h
  · exact h

/-- A frame that is open at a point was open at every point since it was opened. -/
theorem Replay.mem_openers_of_le {code : List Instruction} {o n n' : Nat} (hn : n ≤ n') (ho : o < n)
    (h : o ∈ openers code n') : o ∈ openers code n := by
  induction hn with
  | refl => exact h
  | step hle ih => exact ih (mem_openers_of_succ h (Nat.ne_of_lt (Nat.lt_of_lt_of_le ho hle)))

/-- A frame that has been closed is never open again. -/
theorem Replay.not_mem_openers_of_closed {code : List Instruction} {o n n' : Nat}
    {outer : List Nat} (hopen : openers code n = o :: outer)
    (hclosed : openers code (n + 1) = outer) (hn : n < n') : o ∉ openers code n' := by
  intro h
  have ho : o < n := openers_lt n o (by rw [hopen]; exact .head _)
  -- If it were open later, it would be open right behind its end, where only older frames are.
  have hmem := mem_openers_of_le (n := n + 1) hn (by omega) h
  have hsorted := pairwise_openers code n
  rw [hclosed] at hmem
  rw [hopen] at hsorted
  exact Nat.lt_irrefl o ((List.pairwise_cons.mp hsorted).1 o hmem)

theorem Replay.openFrames_eq_cons (code : List Instruction) (n : Nat) :
    ∃ others, openFrames code n = frameOf code n :: others ∧ frameOf code n ∉ others := by
  have hsorted := pairwise_openers code n
  unfold openFrames frameOf
  cases ho : openers code n with
  | nil => exact ⟨[], rfl, by simp⟩
  | cons o os =>
    -- The frame of the main program is below all of them.
    refine ⟨os.map some ++ [none], rfl, ?_⟩
    rw [ho, List.pairwise_cons] at hsorted
    simp only [List.head?_cons, List.mem_append, List.mem_map, Option.some.injEq, exists_eq_right,
      List.mem_singleton, reduceCtorEq, or_false]
    exact fun hmem => Nat.lt_irrefl o (hsorted.1 o hmem)

/-- An instruction assigns to a local of a frame. -/
def Replay.Assigns (code : List Instruction) (n : Nat) (name : String) (frame : Option Nat) : Prop :=
  (∃ i, code[n]? = some i ∧ i.op = .setVar name) ∧ frameOf code n = frame

/-! ### First assignments -/

namespace Replay

/-- The first assignment to a name in a frame, before a point. -/
structure FirstIn (code : List Instruction) (n : Nat) (frame : Option Nat) (name : String)
    (f : Nat) : Prop where
  lt : f < n
  assigns : Assigns code f name frame
  first : ∀ q < f, ¬ Assigns code q name frame

/-- What is assigned before a point is assigned there for the first time. -/
theorem exists_firstIn {q : Nat} (hq : Assigns code q name frame) :
    ∀ {n}, q < n → ∃ f, FirstIn code n frame name f := by
  induction q using Nat.strongRecOn with
  | ind q ih =>
    intro n hn
    by_cases h : ∃ p < q, Assigns code p name frame
    · obtain ⟨p, hp, ha⟩ := h
      exact ih p hp ha (Nat.lt_trans hp hn)
    · exact ⟨q, hn, hq, fun p hp ha => h ⟨p, hp, ha⟩⟩

theorem firstIn_succ_iff {f : Nat} : FirstIn code (n + 1) frame name f ↔
    FirstIn code n frame name f ∨
      f = n ∧ Assigns code n name frame ∧ ∀ q < n, ¬ Assigns code q name frame := by
  constructor
  · rintro ⟨hlt, ha, hfirst⟩
    rcases Nat.lt_succ_iff_lt_or_eq.mp hlt with hlt | rfl
    · exact .inl ⟨hlt, ha, hfirst⟩
    · exact .inr ⟨rfl, ha, hfirst⟩
  · rintro (⟨hlt, ha, hfirst⟩ | ⟨rfl, ha, hfirst⟩)
    · exact ⟨Nat.lt_succ_of_lt hlt, ha, hfirst⟩
    · exact ⟨Nat.lt_succ_self f, ha, hfirst⟩

/-- An instruction that assigns assigns to one local. -/
theorem Assigns.unique {other : String} {frame' : Option Nat} (h : Assigns code n name frame)
    (h' : Assigns code n other frame') : other = name ∧ frame' = frame := by
  obtain ⟨⟨i, hi, ho⟩, hframe⟩ := h
  obtain ⟨⟨i', hi', ho'⟩, hframe'⟩ := h'
  obtain rfl := Option.some.inj (hi.symm.trans hi')
  exact ⟨(Operation.setVar.inj (ho.symm.trans ho')).symm, hframe'.symm.trans hframe⟩

end Replay

/-! ### Tables of locals -/

/-- A table holds the first assignments of a frame. -/
def TableFits (code : List Instruction) (n : Nat) (frame : Option Nat) (table : Table String Nat) :
    Prop :=
  ∀ name f, table.get? name = some f ↔ FirstIn code n frame name f

namespace TableFits

variable {table : Table String Nat}

/-- A frame to which an instruction assigns nothing new has the same table. -/
theorem succ (h : TableFits code n frame table)
    (hnew : ∀ name, Assigns code n name frame → ∃ q < n, Assigns code q name frame) :
    TableFits code (n + 1) frame table := by
  intro name f
  rw [h name f, firstIn_succ_iff, or_iff_left]
  rintro ⟨-, ha, hfirst⟩
  obtain ⟨q, hq, ha'⟩ := hnew name ha
  exact hfirst q hq ha'

/-- A new name is bound to the instruction that assigns to it. -/
theorem set (h : TableFits code n frame table) (ha : Assigns code n name frame)
    (hnone : table.get? name = none) : TableFits code (n + 1) frame (table.set name n) := by
  -- A local that is not in the table has no assignment so far, so this one is its first.
  have hfirst : ∀ q < n, ¬ Assigns code q name frame := by
    intro q hq ha'
    obtain ⟨f, hf⟩ := exists_firstIn ha' hq
    rw [← h name f, hnone] at hf
    cases hf
  intro other f
  rw [Table.get?_set, firstIn_succ_iff]
  split
  · next heq =>
    subst heq
    rw [← h name f, hnone, Option.some.injEq]
    simp only [reduceCtorEq, false_or]
    exact ⟨fun hf => ⟨hf.symm, ha, hfirst⟩, fun hf => hf.1.symm⟩
  · next hne =>
    rw [h other f, or_iff_left]
    exact fun hf => hne (ha.unique hf.2.1).1.symm

/-- A frame that has just been opened has no locals. -/
theorem opened (code : List Instruction) (n : Nat) : TableFits code (n + 1) (some n) .empty := by
  intro name f
  refine ⟨fun h => absurd h (by simp), fun h => ?_⟩
  have hmem : n ∈ openers code f := List.mem_of_mem_head? h.assigns.2
  have := openers_lt f n hmem
  have := h.lt
  omega

end TableFits

/-- What ends a frame closes one. -/
theorem Role.exists_closes {op : Operation} (h : Role code links n op)
    (ho : (∃ name, op = .defEnd name) ∨ ∃ name, op = .classEnd name) : ∃ o, Closes code o n := by
  rcases ho with ⟨name, rfl⟩ | ⟨name, rfl⟩
  · obtain ⟨d, _, _, _, _, hcloses, -⟩ := h
    exact ⟨d, hcloses⟩
  · obtain ⟨c, _, _, hcloses, -⟩ := h
    exact ⟨c, hcloses⟩

/-- **A wiring has the first assignments in its tables**, in all frames that are open. -/
theorem Wired.tablesFit (hroles : Roles code links 0 code.length) (h : Wired code n w) :
    List.Forall₂ (TableFits code n) (openFrames code n) w.scopes := by
  induction n generalizing w with
  | zero =>
    obtain ⟨rfl, -⟩ := Prod.mk.inj h.wired
    refine .cons (fun name f => ⟨fun h => absurd h (by simp), fun h => ?_⟩) .nil
    exact absurd h.lt (Nat.not_lt_zero f)
  | succ n ih =>
    obtain ⟨i, e, w, hw, hocc, hlearn⟩ := h.exists_of_succ
    have hbefore := ih hw
    have hrole := hroles n i (Nat.zero_le n) hocc.lt hocc.1
    have hopeners := openers_succ hocc.1
    -- Without an assignment the first assignments are the same as before.
    have kept : (∀ name, i.op ≠ .setVar name) → ∀ frame table, TableFits code n frame table →
        TableFits code (n + 1) frame table := by
      intro hop frame table hfit
      refine hfit.succ fun name ha => ?_
      obtain ⟨⟨j, hj, hset⟩, -⟩ := ha
      obtain rfl := Option.some.inj (hocc.1.symm.trans hj)
      exact absurd hset (hop name)
    rw [Wiring.scopes_of_learn hocc hlearn]
    cases ho : i.op with
    | setVar name =>
      have hassigns : Assigns code n name (frameOf code n) := ⟨⟨i, hocc.1, ho⟩, rfl⟩
      obtain ⟨others, hframes, hnot⟩ := openFrames_eq_cons code n
      rw [ho] at hopeners
      rw [openFrames, hopeners, ← openFrames, hframes]
      rw [hframes] at hbefore
      cases hs : w.scopes with
      | nil => rw [hs] at hbefore; cases hbefore
      | cons t ts =>
        rw [hs] at hbefore
        obtain ⟨hhead, hrest⟩ := List.forall₂_cons.mp hbefore
        have hscope : w.scope = t := by rw [Wiring.State.scope, hs]; rfl
        -- The instruction assigns in the innermost frame alone.
        have hothers : List.Forall₂ (TableFits code (n + 1)) others ts := by
          refine List.forall₂_iff_get.mpr ⟨hrest.length_eq, fun k hk hk' => ?_⟩
          refine (hrest.get hk hk').succ fun other ha => absurd ?_ hnot
          rw [← (hassigns.unique ha).2]
          exact List.get_mem others ⟨k, hk⟩
        simp only [hscope]
        split
        · next hname =>
          obtain ⟨f, hf⟩ := Option.isSome_iff_exists.mp hname
          refine .cons (hhead.succ fun other ha => ?_) hothers
          obtain ⟨rfl, -⟩ := hassigns.unique ha
          have hfirst := (hhead other f).mp hf
          exact ⟨f, hfirst.lt, hfirst.assigns⟩
        · next hname =>
          rw [Table.contains, Bool.not_eq_true, Option.isSome_eq_false_iff,
            Option.isNone_iff_eq_none] at hname
          exact .cons (hhead.set hassigns hname) hothers
    | defStart name | classStart name =>
      rw [ho] at hopeners
      rw [openFrames, hopeners]
      exact .cons (.opened code n) (hbefore.imp (kept (by simp [ho])))
    | defEnd name | classEnd name =>
      obtain ⟨o, hcloses⟩ := hrole.exists_closes (by simp [ho])
      have hcons : openers code n = o :: openers code (n + 1) := by
        rw [hopeners, ho, hcloses.openers_eq]
        rfl
      rw [openFrames, hcons] at hbefore
      rw [openFrames]
      cases hs : w.scopes with
      | nil => rw [hs] at hbefore; cases hbefore
      | cons t ts =>
        rw [hs] at hbefore
        exact (List.forall₂_cons.mp hbefore).2.imp (kept (by simp [ho]))
    | _ =>
      rw [ho] at hopeners
      rw [openFrames, hopeners, ← openFrames]
      exact hbefore.imp (kept (by simp [ho]))

/-- A name is looked up in the current frame. -/
theorem Wired.scope_get?_iff (hroles : Roles code links 0 code.length) (h : Wired code n w)
    {f : Nat} : w.scope.get? name = some f ↔ FirstIn code n (frameOf code n) name f := by
  have hfit := h.tablesFit hroles
  obtain ⟨others, hframes, -⟩ := openFrames_eq_cons code n
  rw [hframes] at hfit
  cases hs : w.scopes with
  | nil => rw [hs] at hfit; cases hfit
  | cons t ts =>
    rw [hs] at hfit
    rw [Wiring.State.scope, hs]
    exact (List.forall₂_cons.mp hfit).1 name f

/-- A wiring that goes through gets to every point. -/
theorem Graph.Built.wiredAt (b : Built code g) (hn : n ≤ code.length) :
    Rubylet.Wired code n (wiringAt code g n) := by
  refine b.point_induction (P := fun n => Rubylet.Wired code n (wiringAt code g n)) ?_ ?_ n hn
  · exact ⟨b.replayed, Nat.zero_le _, rfl⟩
  · intro n i e h hw
    refine ⟨b.replayed, h.lt, ?_⟩
    rw [List.take_add_one, b.step_eq h, Option.toList_some, fold_append, hw.wired]
    have hl := b.learns h
    rw [b.index_eq] at hl
    simp only [hl]

end Rubylet
