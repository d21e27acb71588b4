import Rubylet.Proofs.Native.Progress
import Rubylet.Proofs.Native.Translated
import Rubylet.Proofs.Native.Words

/-!
# Native code follows the machine

What a run of the machine does in a part of the program, the native code of the part does too
(`Emits.follows`): the operands of the part show the values that the machine has pushed, and the
slots mirror its locals. This holds up to the first division by zero. There the machine stops, and
native code keeps the record in mind and goes on.

A run can be followed if it reads no local that is not there and divides nothing but words by words,
where the quotient is a word too (`Followable`).
-/

namespace Rubylet

/-- The integer that the next instruction divides, and the one it divides by. -/
def Machine.division? (m : Machine) (s : Machine.State) : Option (Int × Int) :=
  match m.code[s.next]?.map Instruction.op, s.frames.head?.map Activation.stack with
  | some (.send name _), some (.int y :: .int x :: _) => if name = "/" then some (x, y) else none
  | _, _ => none

/-- The run divides by zero at a record, and stops there. -/
def Machine.DividesByZeroAt (m : Machine) (r : Nat) : Prop :=
  ∃ s i s', m.Visits s ∧ s.next = r ∧ m.code[r]? = some i ∧
    m.step i s = .stop (.failedAt r i .dividedByZero) s'

namespace Native

open Replay Machine

/-- A run that native code can follow. -/
structure Followable (m : Machine) : Prop where
  bound : ∀ s, m.Visits s → ¬ m.ReadsUnbound s
  words : ∀ s x y, m.Visits s → m.division? s = some (x, y) → y ≠ 0 →
    Word.Holds x ∧ Word.Holds y ∧ ¬ (x = -2 ^ 63 ∧ y = -1)

/-- An operand shows a value. -/
def Frame.Shows (f : Frame) (o : Operand) (v : Value) : Prop :=
  ∃ c, f.operand o = .ok c ∧ Matches v c

/-- Every local that is there is in its slot. -/
def Frame.Mirrors (f : Frame) (locals : Table String Value) : Prop :=
  ∀ name v, locals.get? name = some v → ∃ c, f.slots.get? name = some c ∧ Matches v c

/-- What has come of a part that an activation went through: it has pushed what the operands show,
or the run has divided by zero. -/
inductive Follows (m : Machine) (a : Activation) (outer : List Activation) (n : Nat)
    (os : List Operand) (f : Frame) : Prop
  | reached {vs locals calls} :
      m.Visits ⟨n, { a with stack := vs.reverse ++ a.stack, locals } :: outer, calls⟩ →
      List.Forall₂ f.Shows os vs → f.Mirrors locals → f.fault? = none → Follows m a outer n os f
  | divided {r} : f.fault? = some r → m.DividesByZeroAt r → Follows m a outer n os f

/-- A function does what the machine does with calls of its method, while there is room for a number
of frames. -/
def CallFollows (m : Machine) (code : List Instruction) (call : Caller) (room method : Nat) :
    Prop :=
  ∀ {n pos name values cells a outer calls below c fault?}, m.methods.get? name = some method →
    code[n]? = some ⟨.send name (some values.length), ⟨.call, pos⟩⟩ →
    m.Visits ⟨n, a :: outer, calls⟩ → a.stack = values.reverse ++ .nil :: below →
    outer.length + 1 + room ≤ maxCallDepth → List.Forall₂ Matches values cells →
    call method cells none = .ok (c, fault?) →
    (fault? = none ∧ ∃ v calls', Matches v c ∧
      m.Visits ⟨n + 1, { a with stack := v :: below } :: outer, calls'⟩) ∨
    ∃ r, fault? = some r ∧ m.DividesByZeroAt r

section

variable {code : List Instruction} {g : Graph} {m : Machine} {statements : List Node}
  {d : Declarations} {slots : Table String Kind} {calls : Nat → Prop} {call : Caller} {room : Nat}
  {n n' : Nat} {p : Part} {is : List Inst} {os : List Operand} {i : Instruction} {a : Activation}
  {outer : List Activation} {v : Value} {locals : Table String Value} {f f' : Frame} {o : Operand}

/-! ### Frames -/

/-- A slot that is stored mirrors the local that is bound. -/
theorem Frame.Mirrors.set {name : String} {c : Cell} (h : f.Mirrors locals) (hv : Matches v c) :
    ({ f with slots := f.slots.set name c } : Frame).Mirrors (locals.set name v) := by
  intro other w hget
  rw [Table.get?_set] at hget ⊢
  split at hget
  · next heq =>
    obtain rfl := Option.some.inj hget
    exact ⟨c, if_pos heq, hv⟩
  · next hne =>
    rw [if_neg hne]
    exact h other w hget

theorem shows_result (f : Frame) (n : Nat) (kind : Kind) {c : Cell} (h : Matches v c) :
    (f.setResult n c).Shows (.result n kind) v := ⟨c, operand_setResult f n kind c, h⟩

/-- What is shown stays so while later code is executed. -/
theorem Emits.shows (h : Emits code m.Linked d slots calls p n n' is os) (hk : KeepsFaults call)
    (hexec : execAll call f is = .ok f') (ho : o.Before n) (hs : f.Shows o v) : f'.Shows o v := by
  obtain ⟨c, hc, hv⟩ := hs
  exact ⟨c, (h.keep hk hexec ho).trans hc, hv⟩

/-- The cells of operands match the values that they show. -/
theorem matches_of_shows {vs : List Value} {cells : List Cell} (h : List.Forall₂ f.Shows os vs)
    (hc : f.operands os = .ok cells) : List.Forall₂ Matches vs cells := by
  rw [operands_eq_ok_iff] at hc
  -- On the operands: each has one cell, which matches the value it shows.
  induction h generalizing cells with
  | nil =>
    cases hc
    exact .nil
  | cons hv _ ih =>
    obtain ⟨c, hc', hmatch⟩ := hv
    obtain ⟨c', cs, hfirst, hrest, rfl⟩ := List.forall₂_cons_left_iff.mp hc
    obtain rfl := Except.ok.inj (hc'.symm.trans hfirst)
    exact .cons hmatch (ih hrest)

/-- The last value that is shown is the topmost. -/
theorem shows_last {front : List Operand} {vs : List Value}
    (h : List.Forall₂ f.Shows (front ++ [o]) vs) : ∃ v us, vs.reverse = v :: us ∧ f.Shows o v := by
  rw [← List.forall₂_reverse_iff, List.reverse_append] at h
  obtain ⟨v, us, hv, -, hvs⟩ := List.forall₂_cons_left_iff.mp h
  exact ⟨v, us, hvs, hv⟩

theorem shows_singleton {vs : List Value} (h : List.Forall₂ f.Shows [o] vs) :
    ∃ v, vs = [v] ∧ f.Shows o v := by
  obtain ⟨v, us, hv, hrest, rfl⟩ := List.forall₂_cons_left_iff.mp h
  obtain rfl := List.forall₂_nil_left_iff.mp hrest
  exact ⟨v, rfl, hv⟩

/-- A division by zero is kept in mind while native code goes on. -/
theorem Follows.divided_of_exec {js : List Inst} {r : Nat} (hk : KeepsFaults call)
    (hexec : execAll call f js = .ok f') (hfault : f.fault? = some r) (hr : m.DividesByZeroAt r) :
    Follows m a outer n os f' :=
  .divided ((execAll_keeps hk js hexec).fault r hfault) hr

/-- What is done with the values of a part, once they are there. -/
theorem Follows.bind {a' : Activation} {k : Nat} {os' : List Operand} {js : List Inst}
    (h : Follows m a outer k os f) (hk : KeepsFaults call) (hexec : execAll call f js = .ok f')
    (next : ∀ (vs : List Value) (locals : Table String Value) (calls : List (String × Nat)),
      m.Visits ⟨k, { a with stack := vs.reverse ++ a.stack, locals } :: outer, calls⟩ →
      List.Forall₂ f.Shows os vs → f.Mirrors locals → f.fault? = none →
      Follows m a' outer n' os' f') : Follows m a' outer n' os' f' := by
  rcases h with @⟨vs, locals, calls, hvisits, hshows, hmirrors, hfault⟩ | ⟨hfault, hr⟩
  · exact next vs locals calls hvisits hshows hmirrors hfault
  · exact .divided_of_exec hk hexec hfault hr

/-- One part after another. -/
theorem Follows.append {k : Nat} {os' : List Operand} {js : List Inst}
    (h : Follows m a outer k os f) (hk : KeepsFaults call) (hexec : execAll call f js = .ok f')
    (hkeep : ∀ o ∈ os, ∀ v, f.Shows o v → f'.Shows o v)
    (next : ∀ (vs : List Value) (locals : Table String Value) (calls : List (String × Nat)),
      m.Visits ⟨k, { a with stack := vs.reverse ++ a.stack, locals } :: outer, calls⟩ →
      f.Mirrors locals → f.fault? = none →
      Follows m { a with stack := vs.reverse ++ a.stack, locals } outer n' os' f') :
    Follows m a outer n' (os ++ os') f' := by
  refine h.bind hk hexec fun vs locals calls hvisits hshows hmirrors hfault => ?_
  have hshows' : List.Forall₂ f'.Shows os vs :=
    ((List.forall₂_and_left _ _).mpr ⟨fun o ho => ho, hshows⟩).imp fun o v h => hkeep o h.1 v h.2
  rcases next vs locals calls hvisits hmirrors hfault with
    @⟨ws, locals', calls', hvisits', hshows'', hmirrors', hfault'⟩ | ⟨hfault', hr⟩
  -- The values of the second part are above those of the first.
  · refine @Follows.reached m a outer n' _ f' (vs ++ ws) locals' calls' ?_
      (List.rel_append hshows' hshows'') hmirrors' hfault'
    rw [List.reverse_append, List.append_assoc]
    exact hvisits'
  · exact .divided hfault' hr

/-- **A call is followed**, if the function is. -/
theorem follows_call {calls : List (String × Nat)} {name : String} {pos : Pos} {values : List Value}
    {method : Nat} {kind : Kind} (hm : m.methods.get? name = some method)
    (hi : code[n]? = some ⟨.send name (some values.length), ⟨.call, pos⟩⟩)
    (h : m.Visits
      ⟨n, { a with stack := values.reverse ++ .nil :: a.stack, locals } :: outer, calls⟩)
    (hroom : outer.length + 1 + room ≤ maxCallDepth) (hcall : CallFollows m code call room method)
    (hshows : List.Forall₂ f.Shows os values) (hf : f.Mirrors locals) (hfault : f.fault? = none)
    (hexec : execAll call f [.call n method os] = .ok f') :
    Follows m a outer (n + 1) [.result n kind] f' := by
  rw [execAll_singleton, Inst.exec] at hexec
  obtain ⟨cells, hcells, hexec⟩ := exists_of_bind_eq_ok hexec
  obtain ⟨⟨c, fault?⟩, hanswer, hexec⟩ := exists_of_bind_eq_ok hexec
  obtain rfl := Except.ok.inj hexec
  -- No fault has been noted yet, so the function starts without one.
  rw [hfault] at hanswer
  rcases hcall hm hi h rfl hroom (matches_of_shows hshows hcells) hanswer with
    ⟨rfl, v, calls', hmatch, hvisits⟩ | ⟨r, rfl, hr⟩
  · exact @Follows.reached m a outer (n + 1) _ _ [v] locals calls' hvisits
      (.cons (shows_result _ n kind hmatch) .nil) hf rfl
  · exact .divided rfl hr

/-! ### States of the machine -/

namespace Emittable

variable (u : Emittable code g m statements d) (hrun : Followable m)

include u

theorem getElem?_code (hi : code[n]? = some i) : m.code[n]? = some i := by
  rw [u.checked.loaded.code_eq, List.getElem?_toArray, hi]

/-- Without classes no frame has an owner. -/
theorem owner_eq_none {calls : List (String × Nat)} (h : m.Visits ⟨n, a :: outer, calls⟩) :
    a.owner = none := by
  obtain ⟨hle, hframes⟩ := u.checked.fits h
  rw [hframes.activation.owner, u.currentClass_eq_none hle]

/-- What is on top has the type of its record, or is nil in place of a definition. -/
theorem top_cases {calls : List (String × Nat)} {t : Ty} (h : m.Visits ⟨n, a :: outer, calls⟩)
    (ht : TopType code d n t) : ∃ r below v rest, (stateAt code n).stack = r :: below ∧
      a.stack = v :: rest ∧ (Skipped code n r ∧ v = .nil ∨ v.ty = t) := by
  obtain ⟨r, below, hstack, htype⟩ := ht
  -- The stack of a visited state fits the stack of the replay.
  have hops := (u.checked.fits h).frames.activation.operands
  dsimp only at hops
  rw [hstack] at hops
  obtain ⟨v, rest, hv, -, heq⟩ := List.forall₂_cons_left_iff.mp hops
  refine ⟨r, below, v, rest, hstack, heq, ?_⟩
  -- The top was skipped and is nil, or has the type of its record.
  rcases hv with hskipped | ⟨-, hholds⟩
  · exact .inl hskipped
  · exact .inr (Option.some.inj ((u.types hholds.type).symm.trans htype))

/-- **The value of an expression has the type of its record.** -/
theorem ty_of_top {calls : List (String × Nat)} {links : Nat → Nat → Prop} {stack : List Value}
    {t : Ty} (hl : Layout code links none p n n')
    (hleaves : ∀ left, p.Leaves code n' left → ∃ r rest, left = r :: rest ∧ ¬ Skipped code n' r)
    (h : m.Visits ⟨n', a :: outer, calls⟩) (hv : a.stack = v :: stack)
    (ht : TopType code d n' t) : v.ty = t := by
  obtain ⟨left, hreplays, hleft⟩ := hl.replays u.replayed
  obtain ⟨r, rest, rfl, hskip⟩ := hleaves left hleft
  obtain ⟨r', below, w, rest', hstack, heq, hw⟩ := u.top_cases h ht
  obtain ⟨rfl, -⟩ := List.cons.inj (hreplays.stack.symm.trans hstack)
  obtain ⟨rfl, -⟩ := List.cons.inj (hv.symm.trans heq)
  exact hw.resolve_left fun hs => hskip hs.1

include hrun

theorem visits_step {s s' : Machine.State} (hs : m.Visits s) (hi : code[s.next]? = some i)
    (hstep : m.step i s = .next s') : m.Visits s' :=
  .step hs (hrun.bound s hs) (u.getElem?_code hi) hstep

/-! ### Instructions -/

/-- A value is pushed that an operand shows. -/
theorem follows_push {calls : List (String × Nat)} {w : Value} (h : m.Visits ⟨n, a :: outer, calls⟩)
    (hi : code[n]? = some i)
    (hstep : m.step i ⟨n, a :: outer, calls⟩ =
      .next ⟨n', { a with stack := w :: a.stack } :: outer, calls⟩)
    (hshows : f.Shows o w) (hf : f.Mirrors a.locals) (hfault : f.fault? = none) :
    Follows m a outer n' [o] f :=
  @Follows.reached m a outer n' [o] f [w] a.locals calls (u.visits_step hrun h hi hstep)
    (.cons hshows .nil) hf hfault

/-- A constant is pushed. -/
theorem follows_constant {calls : List (String × Nat)} (h : m.Visits ⟨n, a :: outer, calls⟩)
    (hi : code[n]? = some i) (ho : constant? i.op = some o) (hf : f.Mirrors a.locals)
    (hfault : f.fault? = none) : Follows m a outer (n + 1) [o] f := by
  -- One step of the machine, and none of the frame.
  have push : ∀ {v}, m.step i ⟨n, a :: outer, calls⟩ =
      .next ⟨n + 1, { a with stack := v :: a.stack } :: outer, calls⟩ → f.Shows o v →
      Follows m a outer (n + 1) [o] f := fun hstep hshows =>
    u.follows_push hrun h hi hstep hshows hf hfault
  unfold constant? at ho
  split at ho
  · next hop =>
    obtain rfl := Option.some.inj ho
    exact push (by simp only [Machine.step, hop]; rfl) ⟨_, rfl, .int _⟩
  · next hop =>
    obtain rfl := Option.some.inj ho
    exact push (by simp only [Machine.step, hop]; rfl) ⟨_, rfl, .str _⟩
  · next hop =>
    obtain rfl := Option.some.inj ho
    exact push (by simp only [Machine.step, hop]; rfl) ⟨_, rfl, .nil⟩
  · cases ho

/-- A local that is read is there. -/
theorem exists_local {calls : List (String × Nat)} {name : String}
    (h : m.Visits ⟨n, a :: outer, calls⟩) (hi : code[n]? = some i) (hop : i.op = .pushVar name) :
    ∃ v, a.locals.get? name = some v ∧ m.step i ⟨n, a :: outer, calls⟩ =
      .next ⟨n + 1, { a with stack := v :: a.stack } :: outer, calls⟩ := by
  cases hv : a.locals.get? name with
  | none => exact absurd ⟨i, name, a, outer, u.getElem?_code hi, hop, rfl, hv⟩ (hrun.bound _ h)
  | some v =>
    refine ⟨v, rfl, ?_⟩
    simp only [Machine.step, hop, hv, Option.getD_some]
    rfl

/-- A local is read from its slot. -/
theorem follows_load {calls : List (String × Nat)} {name : String} {kind : Kind}
    (h : m.Visits ⟨n, a :: outer, calls⟩) (hi : code[n]? = some i) (hop : i.op = .pushVar name)
    (hf : f.Mirrors a.locals) (hfault : f.fault? = none)
    (hexec : execAll call f [.load n name] = .ok f') :
    Follows m a outer (n + 1) [.result n kind] f' := by
  obtain ⟨v, hv, hstep⟩ := u.exists_local hrun h hi hop
  obtain ⟨c, hc, hmatch⟩ := hf name v hv
  rw [execAll_singleton, Inst.exec, hc] at hexec
  obtain rfl := Except.ok.inj hexec
  exact u.follows_push hrun h hi hstep (shows_result f n kind hmatch) hf hfault

/-- No call in a typed program has the wrong arguments. -/
theorem step_ne_unconverted {s : Machine.State} (h : m.Visits s) (hi : code[s.next]? = some i)
    (r : Nat) (pos : Pos) (name : String) (values : List Value) (s' : Machine.State) :
    m.step i s ≠ .stop (.showing r pos (BackendCause.unconverted name values)) s' := by
  intro hstop
  rcases u.checked.progress h (hrun.bound s h) (u.getElem?_code hi) with
    ⟨s'', hnext⟩ | ⟨e, s'', hstop', hreason⟩
  · rw [hstop] at hnext
    cases hnext
  · rw [hstop] at hstop'
    obtain ⟨rfl, -⟩ := Progress.stop.inj hstop'
    exact hreason.ne_unconverted r pos name values rfl

/-- **Arithmetic is followed.** -/
theorem follows_arith {calls : List (String × Nat)} {name : String} {pos : Pos} {x : Int}
    {values : List Value} {op : Arith} {o' : Operand} (hop : Arith.named? name = some op)
    (hi : code[n]? = some ⟨.send name (some values.length), ⟨.call, pos⟩⟩)
    (h : m.Visits
      ⟨n, { a with stack := values.reverse ++ .int x :: a.stack, locals } :: outer, calls⟩)
    (hx : f.Shows o (.int x)) (hshows : List.Forall₂ f.Shows (o' :: os) values)
    (hf : f.Mirrors locals) (hfault : f.fault? = none)
    (hexec : execAll call f [.arith n op o o'] = .ok f') :
    Follows m a outer (n + 1) [.result n .word] f' := by
  have hstep := Direct.step_send m n pos name outer calls
    (rfl : ({ a with stack := values.reverse ++ .int x :: a.stack, locals } : Activation).stack = _)
  have hreact : m.react a.owner name (.int x) values =
      primitive m.memory name (.int x) values := rfl
  rw [hreact] at hstep
  -- The arguments are one integer, or the machine would stop for their sake.
  rcases primitive_int hop m.memory x values with ⟨y, rfl, hprimitive⟩ | hprimitive
  · rw [hprimitive] at hstep
    obtain ⟨⟨cy, hcy, hmatchy⟩, -⟩ := List.forall₂_cons.mp hshows
    obtain ⟨cx, hcx, hmatchx⟩ := hx
    cases hmatchx
    cases hmatchy
    rw [execAll_singleton, Inst.exec, hcx, hcy] at hexec
    change f.arith n op (.word (.ofInt x)) (.word (.ofInt y)) = .ok f' at hexec
    cases hz : op.onInt? x y with
    | some z =>
      rw [Arith.react, hz] at hstep
      -- What is divided on the way is known to be a word.
      have hwords : op = .divide → y ≠ 0 →
          Word.Holds x ∧ Word.Holds y ∧ ¬ (x = -2 ^ 63 ∧ y = -1) := by
        rintro rfl
        obtain rfl : name = "/" := by
          rcases Arith.named?_eq_some hop with ⟨-, h⟩ | ⟨-, h⟩ | ⟨-, h⟩ | ⟨h, -⟩
          · cases h
          · cases h
          · cases h
          · exact h
        refine hrun.words _ x y h ?_
        rw [Machine.division?, u.getElem?_code hi]
        rfl
      obtain rfl := Except.ok.inj ((arith_ofInt hz hwords).symm.trans hexec)
      exact @Follows.reached m a outer (n + 1) _ _ [.int z] locals calls
        (u.visits_step hrun h hi hstep) (.cons (shows_result f n .word (.int z)) .nil) hf hfault
    | none =>
      rw [Arith.react, hz] at hstep
      -- The machine stops here, and the record is noted.
      exact .divided (fault_of_arith hz hfault hexec)
        ⟨_, _, _, h, rfl, u.getElem?_code hi, hstep⟩
  · have hne := u.step_ne_unconverted hrun h hi n pos name values
    rw [hprimitive] at hstep
    cases hcause : BackendCause.unconverted name values <;> rw [hcause] at hstep hne <;>
      exact absurd hstep (hne _)

/-- A branch that has been followed is closed, and its value is that of the conditional. -/
theorem follows_branch {front : List Operand} {k t : Nat} {kind : Kind} {c : Cell}
    (h : Follows m { a with locals, ifs := a.stack.length :: a.ifs } outer n (front ++ [o]) f)
    (hi : code[n]? = some i)
    (hstep : ∀ a₁ a₂ calls, closeBranch a₁ = .ok a₂ →
      m.step i ⟨n, a₁ :: outer, calls⟩ = .next ⟨t, a₂ :: outer, calls⟩)
    (ho : f.operand o = .ok c) : Follows m a outer t [.result k kind] (f.setResult k c) := by
  rcases h with @⟨vs, locals', calls, hvisits, hshows, hmirrors, hfault⟩ | ⟨hfault, hr⟩
  -- The value of the branch is the last one it shows.
  · obtain ⟨v, us, hvs, c', hc', hmatch⟩ := shows_last hshows
    obtain rfl := Except.ok.inj (ho.symm.trans hc')
    rw [hvs] at hvisits
    exact @Follows.reached m a outer t _ _ [v] locals' calls
      (u.visits_step hrun hvisits hi (hstep _ _ calls (closeBranch_eq rfl rfl)))
      (.cons (shows_result f k kind hmatch) .nil) hmirrors hfault
  · exact .divided hfault hr

end Emittable

/-! ### Parts -/

/-- The native code of a part follows the machine, in whatever activation the run comes to it. -/
def PartFollows (m : Machine) (call : Caller) (room n n' : Nat) (is : List Inst)
    (os : List Operand) : Prop :=
  ∀ ⦃f f' : Frame⦄ (a : Activation) ⦃outer l⦄, m.Visits ⟨n, a :: outer, l⟩ →
    outer.length + 1 + room ≤ maxCallDepth → f.Mirrors a.locals → f.fault? = none →
    execAll call f is = .ok f' → Follows m a outer n' os f'

theorem PartFollows.nothing : PartFollows m call room n n [] [] := by
  intro f f' a outer l h hroom hf hfault hexec
  obtain rfl := Except.ok.inj hexec
  exact @Follows.reached m a outer n _ _ [] a.locals l h .nil hf hfault

/-- A part that follows the machine, and then another one, follow it in turn. -/
theorem PartFollows.append {k : Nat} {js : List Inst} {os' : List Operand} (hk : KeepsFaults call)
    (h : PartFollows m call room n k is os) (h' : PartFollows m call room k n' js os')
    (hkeep : ∀ {f f' o v}, execAll call f js = .ok f' → o ∈ os → f.Shows o v → f'.Shows o v) :
    PartFollows m call room n n' (is ++ js) (os ++ os') := by
  intro f f' a outer l hvisits hroom hf hfault hexec
  obtain ⟨f₁, h₁, h₂⟩ := exists_of_execAll_append hexec
  exact (h a hvisits hroom hf hfault h₁).append hk h₂ (fun o ho v => hkeep h₂ ho)
    fun vs locals calls hvisits hmirrors hfault₁ => h' _ hvisits hroom hmirrors hfault₁ h₂

/-- Receiver and arguments are followed, and then the message that is sent with them. -/
theorem PartFollows.message {k j : Nat} {js : List Inst} {inst : Inst} {os' : List Operand} {t : Ty}
    (hk : KeepsFaults call) (hr : PartFollows m call room n k is [o])
    (hargs : PartFollows m call room k j js os)
    (hty : ∀ {a outer l v stack}, m.Visits ⟨k, a :: outer, l⟩ → a.stack = v :: stack → v.ty = t)
    (hkeep : ∀ {f f' v}, execAll call f js = .ok f' → f.Shows o v → f'.Shows o v)
    (next : ∀ {f f' a outer l locals v values}, v.ty = t →
      m.Visits ⟨j, { a with stack := values.reverse ++ v :: a.stack, locals } :: outer, l⟩ →
      outer.length + 1 + room ≤ maxCallDepth → f.Shows o v → List.Forall₂ f.Shows os values →
      f.Mirrors locals → f.fault? = none → execAll call f [inst] = .ok f' →
      Follows m a outer n' os' f') :
    PartFollows m call room n n' (is ++ js ++ [inst]) os' := by
  intro f f' a outer l h hroom hf hfault hexec
  rw [List.append_assoc] at hexec
  -- The instructions of the receiver, of the arguments, and the one of the call.
  obtain ⟨f₁, h₁, hexec⟩ := exists_of_execAll_append hexec
  obtain ⟨f₂, h₂, h₃⟩ := exists_of_execAll_append hexec
  -- At each seam the machine has got as far as the frame, or a division has failed.
  refine (hr a h hroom hf hfault h₁).bind hk hexec
    fun vs locals calls hvisits hshows hmirrors hfault₁ => ?_
  obtain ⟨v, rfl, hv⟩ := shows_singleton hshows
  refine (hargs { a with stack := v :: a.stack, locals } hvisits hroom hmirrors hfault₁ h₂).bind
    hk h₃ fun values locals' calls' hvisits' hshows' hmirrors' hfault₂ => ?_
  exact next (hty hvisits rfl) hvisits' hroom (hkeep h₂ hv) hshows' hmirrors' hfault₂ h₃

theorem isTruthy_eq (v : Value) : v.isTruthy = decide (v.ty ≠ .nil) := by cases v <;> rfl

namespace Emittable

variable (u : Emittable code g m statements d) (hrun : Followable m)

include u hrun

/-- A conditional takes the branch that the machine takes, since the type of its condition tells
whether it is nil. -/
theorem follows_conditional {k j : Nat} {js ks : List Inst} {w w' : Operand}
    {front front' : List Operand} {pos : Pos} {kind : Kind} {t : Ty} (hk : KeepsFaults call)
    (hc : PartFollows m call room n k is [o])
    (hs : code[k]? = some ⟨.ifStart, ⟨.conditional, pos⟩⟩)
    (ht : PartFollows m call room (k + 1) j js (front ++ [w]))
    (he : code[j]? = some ⟨.ifElse, ⟨.conditional, pos⟩⟩)
    (hb : PartFollows m call room (j + 1) n' ks (front' ++ [w']))
    (hd : code[n']? = some ⟨.ifEnd, ⟨.conditional, pos⟩⟩) (hlink : m.Linked k j)
    (hlink' : m.Linked j n')
    (hty : ∀ {a outer l v stack}, m.Visits ⟨k, a :: outer, l⟩ → a.stack = v :: stack → v.ty = t) :
    PartFollows m call room n (n' + 1) (is ++ [.branch k (decide (t ≠ .nil)) js w ks w'])
      [.result k kind] := by
  intro f f' a outer l h hroom hf hfault hexec
  obtain ⟨f₁, h₁, h₂⟩ := exists_of_execAll_append hexec
  refine (hc a h hroom hf hfault h₁).bind hk h₂
    fun vs locals calls hvisits hshows hmirrors hfault₁ => ?_
  obtain ⟨c, rfl, -⟩ := shows_singleton hshows
  have hstart := u.visits_step hrun hvisits hs
    (Direct.step_ifStart _ outer calls hlink { a with locals } c)
  rw [execAll_singleton, Inst.exec, ← hty hvisits rfl, ← isTruthy_eq] at h₂
  -- Both sides take the first branch, or both take the second.
  split at h₂
  · next htruthy =>
    obtain ⟨f₂, hjs, hend⟩ := exists_of_bind_eq_ok h₂
    obtain ⟨cell, hcell, hend⟩ := exists_of_bind_eq_ok hend
    obtain rfl := Except.ok.inj hend
    rw [if_pos htruthy] at hstart
    exact u.follows_branch hrun (ht _ hstart hroom hmirrors hfault₁ hjs) he
      (fun _ _ calls => Direct.step_ifElse _ outer calls hlink') hcell
  · next hfalse =>
    obtain ⟨f₂, hks, hend⟩ := exists_of_bind_eq_ok h₂
    obtain ⟨cell, hcell, hend⟩ := exists_of_bind_eq_ok hend
    obtain rfl := Except.ok.inj hend
    rw [if_neg hfalse] at hstart
    exact u.follows_branch hrun (hb _ hstart hroom hmirrors hfault₁ hks) hd
      (fun _ _ calls => Direct.step_ifEnd _ outer calls) hcell

/-- What is assigned is in the slot of the local. -/
theorem follows_assign {k : Nat} {name : String} {pos : Pos} (hk : KeepsFaults call)
    (hv : PartFollows m call room n k is [o])
    (hi : code[k]? = some ⟨.setVar name, ⟨.assignment, pos⟩⟩) :
    PartFollows m call room n (k + 1) (is ++ [.store name o]) [] := by
  intro f f' a outer l h hroom hf hfault hexec
  obtain ⟨f₁, h₁, h₂⟩ := exists_of_execAll_append hexec
  -- The value first; then one step stores it on both sides.
  refine (hv a h hroom hf hfault h₁).bind hk h₂
    fun vs locals calls hvisits hshows hmirrors hfault₁ => ?_
  obtain ⟨v, rfl, c, hc, hmatch⟩ := shows_singleton hshows
  rw [execAll_singleton, Inst.exec, hc] at h₂
  obtain rfl := Except.ok.inj h₂
  exact @Follows.reached m a outer (k + 1) _ _ [] (locals.set name v) calls
    (u.visits_step hrun hvisits hi rfl) .nil (hmirrors.set hmatch) hfault₁

/-- A definition leaves nil behind, and no code. -/
theorem follows_methodDef {name : String} {pos : Pos} {params : List Param} {b : Option Node}
    (hl : Layout code m.Linked none (.statement (.methodDef pos name params b)) n n') :
    PartFollows m call room n n' [] [.null] := by
  intro f f' a outer l h hroom hf hfault hexec
  obtain rfl := Except.ok.inj hexec
  cases hl with
  | expression hx => cases hx with | leaf hx _ => cases hx
  | methodDef hs _ _ _ _ hlink =>
    exact u.follows_push hrun h hs (Direct.step_defStart _ outer l hlink a name) ⟨_, rfl, .nil⟩ hf
      hfault

end Emittable

/-- **Native code follows the machine** through every part of a program. -/
theorem Emits.follows (u : Emittable code g m statements d) (hrun : Followable m)
    (h : Emits code m.Linked d slots calls p n n' is os) (hk : KeepsFaults call)
    (hcalls : ∀ {name method}, m.methods.get? name = some method → calls method →
      CallFollows m code call room method) : PartFollows m call room n n' is os := by
  induction h with
  | constant hx hi ho =>
    intro f f' a outer l h hroom hf hfault hexec
    obtain rfl := Except.ok.inj hexec
    exact u.follows_constant hrun h hi ho hf hfault
  | localRead hi hs =>
    intro f f' a outer l h hroom hf hfault hexec
    exact u.follows_load hrun h hi rfl hf hfault hexec
  | @call pos r name args n k j is js o os method s hr hargs hi htop hm hcall hreq ihr ihargs =>
    -- The type of the receiver told the emission what to make of the message, and it is the type of
    -- the value at run time.
    refine PartFollows.message hk ihr ihargs
      (fun h hv => u.ty_of_top hr.layout (fun left h => h.imp fun r h => ⟨[], h⟩) h hv htop)
      (fun hexec => hargs.shows hk hexec (hr.before o (.head _))) ?_
    intro f f' a outer l locals v values hty hvisits hroom _ hshows hmirrors hfault hexec
    obtain rfl : v = .nil := by cases v <;> first | rfl | cases hty
    have hlen : values.length = args.length := hshows.length_eq.symm.trans hargs.has
    exact follows_call (u.methods_get? hm) (hlen ▸ hi) hvisits hroom
      (hcalls (u.methods_get? hm) hcall) hshows hmirrors hfault hexec
  | @arith pos r name args n k j is js o o' os op hr hargs hi htop hop hkind hkind' ihr ihargs =>
    refine PartFollows.message hk ihr ihargs
      (fun h hv => u.ty_of_top hr.layout (fun left h => h.imp fun r h => ⟨[], h⟩) h hv htop)
      (fun hexec => hargs.shows hk hexec (hr.before o (.head _))) ?_
    intro f f' a outer l locals v values hty hvisits hroom hv hshows hmirrors hfault hexec
    obtain ⟨x, rfl⟩ : ∃ x, v = .int x := by cases v <;> first | exact ⟨_, rfl⟩ | cases hty
    have hlen : values.length = args.length := hshows.length_eq.symm.trans hargs.has
    exact u.follows_arith hrun hop (hlen ▸ hi) hvisits hv hshows hmirrors hfault hexec
  | conditional hc hs ht he hb hd hlink hlink' htop hv hw ihc iht ihb =>
    exact u.follows_conditional hrun hk ihc hs iht he ihb hd hlink hlink'
      (fun h hv => u.ty_of_top hc.layout (fun left h => h.imp fun r h => ⟨[], h⟩) h hv htop)
  | absent hi | missing hi | empty hi =>
    intro f f' a outer l h hroom hf hfault hexec
    obtain rfl := Except.ok.inj hexec
    exact u.follows_constant hrun h hi rfl hf hfault
  | present _ ih | expression _ ih | left _ _ _ ih => exact ih
  | noExprs | noStatements => exact PartFollows.nothing
  | moreExprs hx hxs ihx ihxs | moreStatements hx hxs ihx ihxs =>
    exact ihx.append hk ihxs fun hexec ho => hxs.shows hk hexec (hx.before _ ho)
  | assign _ hi _ _ ih => exact u.follows_assign hrun hk ih hi
  | methodDef hl => exact u.follows_methodDef hrun hl
  | @closedNil _ pos xs i n k is os hxs hc hi hop ih =>
    -- Behind a definition or an assignment nothing is executed, and nil stands for the value.
    have hnil : PartFollows m call room k (k + 1) [] [.null] := by
      intro f f' a outer l h hroom hf hfault hexec
      obtain rfl := Except.ok.inj hexec
      exact u.follows_constant hrun h hi (by rw [hop]; rfl) hf hfault
    have h := ih.append hk hnil fun hexec _ hv => Except.ok.inj hexec ▸ hv
    rwa [List.append_nil] at h
  | @closedVar _ pos xs i n k is os name kind hxs hc hi hop hs ih =>
    have hload : PartFollows m call room k (k + 1) [.load k name] [.result k kind] := by
      intro f f' a outer l h hroom hf hfault hexec
      exact u.follows_load hrun h hi hop hf hfault hexec
    refine ih.append hk hload fun {f f' o v} hexec ho => ?_
    rintro ⟨c, hc, hmatch⟩
    refine ⟨c, ?_, hmatch⟩
    rw [(execAll_keeps hk _ hexec).operand (hxs.before o ho) fun r hr =>
      Nat.le_of_eq (List.mem_singleton.mp hr).symm, hc]

end

end Native

end Rubylet
