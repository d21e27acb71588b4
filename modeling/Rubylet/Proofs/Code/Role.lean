import Rubylet.Proofs.Code.Replayed

/-!
# The roles of instructions

What every instruction of a program can count on, at the point where it stands: that its operands
were not skipped, where its block was opened and how things stood there, and where a jump leads.
`Layout.role` collects this once for the whole code, so that a proof that goes through the
instructions one at a time need not ask which part of the program they belong to.
-/

namespace Rubylet

open Replay

/-- A branch of the conditional that a record opens ends at a point, with a value on top. From
`start` to the opener, only the condition was left. -/
structure Branch (code : List Instruction) (start opener n value : Nat) : Prop where
  condition : ∃ c, Replays code start opener [c]
  opened : ∃ origin, code[opener]? = some ⟨.ifStart, origin⟩
  body : ∃ rest, Replays code (opener + 1) n (value :: rest)
  evaluated : ¬ Skipped code n value
  start_le : start ≤ opener
  opener_lt : opener < n

/-- Behind a conditional, it has left its own record. -/
structure Joined (code : List Instruction) (start opener n : Nat) : Prop where
  replays : Replays code start n [opener]
  evaluated : ¬ Skipped code n opener

/-- A frame that a record opened is closed by an instruction. -/
structure Closes (code : List Instruction) (opener n : Nat) : Prop where
  openers_eq : openers code n = opener :: openers code opener
  lt : opener < n

/-- What an instruction counts on, by its operation. -/
def Role (code : List Instruction) (links : Nat → Nat → Prop) (n : Nat) :
    Operation → Prop
  | .setVar _ => ∃ value rest, (stateAt code n).stack = value :: rest ∧ ¬ Skipped code n value
  | op@(.send _ _) => ∃ args receiver rest, (stateAt code n).stack = args ++ receiver :: rest ∧
      args.length = op.argCount ∧ ∀ r ∈ args ++ [receiver], ¬ Skipped code n r
  | .pushArg index => ∃ d i name params k, Closes code d n ∧ code[d]? = some i ∧
      i.op = .defStart name ∧ (∃ defs, (stateAt code n).defs = d :: defs) ∧
      ParamsAt code (d + 1) params ∧ k < params.length ∧ index = (k : Int)
  | .defStart _ => ∃ j value, links n j ∧ n < j ∧ j < code.length ∧
      Replays code n (j + 1) [value] ∧ Skipped code (j + 1) value
  | .defEnd _ => ∃ d i j name value, Closes code d n ∧ code[d]? = some i ∧
      i.op = .defStart name ∧ Occurs code n j (.defEnd d value) ∧ ¬ Skipped code n value
  | .classEnd _ => ∃ c i name, Closes code c n ∧ code[c]? = some i ∧ i.op = .classStart name ∧
      Replays code c (n + 1) []
  | .ifStart => ∃ j, links n j ∧ n < j ∧ j < code.length ∧ Replays code (n + 1) (j + 1) []
  | .ifElse => ∃ m start opener value, links n m ∧ n < m ∧ m < code.length ∧
      Branch code start opener n value ∧ Joined code start opener (m + 1)
  | .ifEnd => ∃ start opener value, Branch code start opener n value ∧
      Joined code start opener (n + 1)
  | _ => True

section

variable {code : List Instruction} {links : Nat → Nat → Prop} {inside : Option String}
  {p : Part} {n n' : Nat}

/-- How things stand at the end of a branch. -/
theorem Branch.state_eq {start opener value : Nat} (hr : (trace code).error? = none)
    (h : Branch code start opener n value) :
    ∃ rest, stateAt code n = { stateAt code start with
      stack := value :: (rest ++ (stateAt code start).stack)
      ifs := ⟨opener, (stateAt code start).stack.length⟩ :: (stateAt code start).ifs } := by
  -- The condition, the marker that takes it, and the body, in the order of the code.
  obtain ⟨c, hc⟩ := h.condition
  obtain ⟨origin, ho⟩ := h.opened
  obtain ⟨rest, hb⟩ := h.body
  obtain ⟨e, hocc, -⟩ := exists_occurs hr ho
  refine ⟨rest, ?_⟩
  -- The marker notes the height of the stack without the condition.
  rw [hb.state_eq, hocc.state_succ, State.effect, hc.state_eq]
  rfl

/-- A branch closes every level it opens. -/
theorem Branch.openers_eq {start opener value : Nat} (h : Branch code start opener n value) :
    openers code n = openers code start := by
  obtain ⟨c, hc⟩ := h.condition
  obtain ⟨origin, ho⟩ := h.opened
  obtain ⟨rest, hb⟩ := h.body
  rw [hb.openers_eq, openers_succ ho]
  exact hc.openers_eq

/-- An instruction that pushes counts on nothing. -/
theorem role_leaf {x : Node} {i : Instruction} (h : x.leaf? = some i) :
    Role code links n i.op := by
  cases x <;> cases h <;> trivial

theorem role_closing {xs : List Node} {i : Instruction} (h : Lowering.closingLast xs = [i]) :
    Role code links n i.op := by
  unfold Lowering.closingLast at h
  split at h
  · next x _ => cases x <;> cases h <;> trivial
  · cases h

/-- The one instruction between two points. -/
theorem eq_of_between {q : Nat} {i j : Instruction} (hi : code[n]? = some i) (hle : n ≤ q)
    (hlt : q < n + 1) (hq : code[q]? = some j) : n = q ∧ i = j := by
  obtain rfl : n = q := by omega
  exact ⟨rfl, Option.some.inj (hi.symm.trans hq)⟩

/-- The roles of the instructions between two points. -/
def Roles (code : List Instruction) (links : Nat → Nat → Prop) (n n' : Nat) : Prop :=
  ∀ q i, n ≤ q → q < n' → code[q]? = some i → Role code links q i.op

theorem Roles.refl (code : List Instruction) (links : Nat → Nat → Prop) (n : Nat) :
    Roles code links n n := fun q _ hle hlt => by omega

/-- Two stretches whose records have their roles, side by side. -/
theorem Roles.trans {k : Nat} (h : Roles code links n k) (h' : Roles code links k n') :
    Roles code links n n' := by
  intro q i hle hlt hq
  rcases Nat.lt_or_ge q k with hk | hk
  · exact h q i hle hk hq
  · exact h' q i hk hlt hq

theorem Roles.single {i : Instruction} (hi : code[n]? = some i) (h : Role code links n i.op) :
    Roles code links n (n + 1) := by
  intro q j hle hlt hq
  obtain ⟨rfl, rfl⟩ := eq_of_between hi hle hlt hq
  exact h

/-- Every parameter takes its argument. -/
theorem roles_params {d : Nat} {name : String} {origin : Origin} {all : List Param}
    (hr : (trace code).error? = none) (hd : code[d]? = some ⟨.defStart name, origin⟩)
    (hall : ParamsAt code (d + 1) all) (hn : Numbered all) :
    Roles code links (d + 1) (d + 1 + 2 * all.length) := by
  -- The induction is on the parameters that are left; those before them have taken their arguments.
  suffices h : ∀ rest front, all = front ++ rest →
      Roles code links (d + 1 + 2 * front.length) (d + 1 + 2 * all.length) from h all [] rfl
  intro rest
  induction rest with
  | nil =>
    rintro front rfl
    rw [List.append_nil]
    exact .refl code links _
  | cons p rest ih =>
    intro front hsplit
    have hsplit' : all = (front ++ [p]) ++ rest := by
      rw [List.append_assoc]
      exact hsplit
    have hparams : CodeAt code (d + 1) (front.flatMap Lowering.lowerParam ++
        (Lowering.lowerParam p ++ rest.flatMap Lowering.lowerParam)) := by
      rw [ParamsAt, hsplit, List.flatMap_append, List.flatMap_cons] at hall
      exact hall
    have hp := hparams.right.left
    rw [length_lowerParams] at hp
    have hbefore := Replays.params hr front (d + 1) hparams.left
    obtain ⟨e, ho, -⟩ := exists_occurs hr hd
    have hpush : Replays code (d + 1 + 2 * front.length) (d + 1 + 2 * front.length + 1)
        [d + 1 + 2 * front.length] := by
      refine Replays.push hr hp.head (fun _ _ => rfl) ?_ (by simp)
      rw [openers_succ hp.head]
    refine (Roles.single hp.head ?_).trans ((Roles.single hp.tail.head ?_).trans ?_)
    · refine ⟨d, _, name, all, front.length, ⟨?_, by omega⟩, hd, rfl, ⟨(stateAt code d).defs, ?_⟩,
        hall, ?_, ?_⟩
      · rw [hbefore.openers_eq, openers_succ hd]
      · rw [hbefore.state_eq, (ho.defStart rfl).2]
        rfl
      · rw [hsplit, List.length_append, List.length_cons]
        omega
      · exact hn front.length p (by rw [hsplit, List.getElem?_append_right (Nat.le_refl _)]; simp)
    · exact ⟨_, _, hpush.stack, not_skipped_succ hr⟩
    · have h := ih (front ++ [p]) hsplit'
      rw [List.length_append, List.length_singleton, Nat.mul_add, Nat.mul_one, ← Nat.add_assoc] at h
      exact h

/-- **Every instruction of a part has its role.** -/
theorem Layout.roles (hr : (trace code).error? = none) (h : Layout code links inside p n n') :
    Roles code links n n' := by
  induction h with
  | leaf hx hi => exact .single hi (role_leaf hx)
  | @call inside pos r name args n k j hrec hargs hi ihr ihargs =>
    obtain ⟨_, h₁, receiver, rfl, hskip⟩ := hrec.replays hr
    obtain ⟨operands, h₂, hlen, hskips⟩ := hargs.replays hr
    have hall := h₁.trans h₂ hrec.le
    refine (ihr.trans ihargs).trans (.single hi ⟨operands, receiver, (stateAt code n).stack, ?_, hlen, ?_⟩)
    · rw [hall.stack, List.append_assoc]
      rfl
    · intro s hs
      rcases List.mem_append.mp hs with hs | hs
      · exact hskips s hs
      · obtain rfl := List.mem_singleton.mp hs
        exact h₂.keeps hr (h₁.stack ▸ List.mem_append_left _ (.head _)) hskip
  | @conditional inside pos c t e n k j m hc hs ht he hf hd hlink hlink' ihc iht ihf =>
    obtain ⟨_, h₁, condition, rfl, -⟩ := hc.replays hr
    obtain ⟨_, h₂, v, rest, rfl, hv⟩ := ht.replays hr
    obtain ⟨_, h₃, w, rest', rfl, hw⟩ := hf.replays hr
    have hcle := hc.le
    have htle := ht.le
    have hfle := hf.le
    have hjlt := (List.getElem?_eq_some_iff.mp he).1
    have hmlt := (List.getElem?_eq_some_iff.mp hd).1
    have hback := h₂.ifElse hr hs rfl he rfl
    have hboth := hback.trans h₃ (by omega)
    rw [List.append_nil] at hboth
    have hjoined : Joined code n k (m + 1) :=
      ⟨Replays.ifEnd hr h₁ hcle hs rfl hboth hd rfl, hboth.not_skipped_ifEnd hr hd rfl⟩
    -- The opener and the two joins have a role of their own, and the rest are those of the parts.
    refine ihc.trans ((Roles.single hs ?_).trans (iht.trans ((Roles.single he ?_).trans
      (ihf.trans (.single hd ?_)))))
    · exact ⟨j, hlink, by omega, hjlt, hback⟩
    · exact ⟨m, n, k, v, hlink', by omega, hmlt,
        ⟨⟨_, h₁⟩, ⟨_, hs⟩, ⟨_, h₂⟩, hv, hcle, by omega⟩, hjoined⟩
    · exact ⟨n, k, w, ⟨⟨_, h₁⟩, ⟨_, hs⟩, ⟨_, hboth⟩, hw, hcle, by omega⟩, hjoined⟩
  | absent hi | missing hi | empty hi => exact .single hi trivial
  | present _ ih | expression _ ih => exact ih
  | noExprs | noStatements => exact .refl code links _
  | moreExprs _ _ ihx ihxs | moreStatements _ _ ihx ihxs => exact ihx.trans ihxs
  | assign hv hi ih =>
    obtain ⟨_, h, v, rfl, hskip⟩ := hv.replays hr
    exact ih.trans (.single hi ⟨v, _, h.stack, hskip⟩)
  | @methodDef inside pos name params body n j hs hn hp hb he hlink ih =>
    obtain ⟨_, h, v, rest, rfl, hskip⟩ := hb.replays hr
    have hle := hb.le
    have hbody := (Replays.params hr _ _ hp).trans h (by omega)
    rw [List.append_nil] at hbody
    obtain ⟨hocc, hout⟩ := Replays.method hr hs rfl hbody he rfl
    -- The frame that the definition opened is on top again behind its body.
    have hcloses : Closes code n j := by
      refine ⟨?_, by omega⟩
      rw [hbody.openers_eq, openers_succ hs]
    refine (Roles.single hs ?_).trans ((roles_params hr hs hp hn).trans (ih.trans (.single he ?_)))
    · exact ⟨j, v, hlink, by omega, hocc.lt, hout, j, Nat.lt_succ_self j, _, n, hocc⟩
    · exact ⟨n, _, _, name, v, hcloses, hs, rfl, hocc, hskip⟩
  | classDef hs hb he _ ih =>
    obtain ⟨left, h, -⟩ := hb.replays hr
    have hle := hb.le
    refine (Roles.single hs trivial).trans (ih.trans (.single he ?_))
    refine ⟨_, _, _, ⟨?_, by omega⟩, hs, rfl, h.cls hr hs rfl he rfl⟩
    rw [h.openers_eq, openers_succ hs]
  | left _ _ _ ih => exact ih
  | closed _ hc hi ih => exact ih.trans (.single hi (role_closing hc))

end

end Rubylet
