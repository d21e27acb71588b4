import Mathlib.Data.List.Chain
import Mathlib.Data.List.Nodup
import Mathlib.Logic.Relation
import Rubylet.Proofs.Native.Following

/-!
# Calls in native code

That native code runs and follows the machine was shown of a part of a program under the assumption
that the calls in it do. Here the assumption is discharged for programs in which no method reaches
itself: a chain of calls then meets no method twice, so it is no longer than there are functions
(`Translated.length_le_size`), and all calls are answered and followed by induction on the chains
that start with them (`Translated.answers`, `Translated.callFollows`).

`Within` is what the induction is on. Its bound is both the depth of calls that native code is given
and the number of frames that the machine must have left.
-/

namespace Rubylet.Native

open Replay Machine

/-! ### Chains of calls -/

/-- The chains that start somewhere are no longer than a number. -/
inductive Within {α : Type} (R : α → α → Prop) : Nat → α → Prop
  | intro {k : Nat} {a : α} : (∀ b, R a b → Within R k b) → Within R (k + 1) a

section

variable {α : Type} {R : α → α → Prop}

/-- Where chains are bounded, so is the depth. -/
theorem within_of_chains : ∀ {k : Nat} {a : α},
    (∀ chain, (a :: chain).IsChain R → chain.length < k) → Within R k a := by
  intro k
  induction k with
  | zero => exact fun h => absurd (h [] (.singleton _)) (Nat.not_lt_zero _)
  | succ k ih =>
    intro a h
    refine .intro fun b hab => ih fun chain hchain => ?_
    exact Nat.lt_of_succ_lt_succ (h (b :: chain) (.cons_cons hab hchain))

/-- Where nothing leads back to itself, a chain meets nothing twice. -/
theorem nodup_of_isChain (hR : ∀ a, ¬ Relation.TransGen R a a) {chain : List α}
    (h : chain.IsChain R) : chain.Nodup := by
  have htrans : chain.IsChain (Relation.TransGen R) := h.imp fun _ _ => .single
  refine (List.isChain_iff_pairwise.mp htrans).imp ?_
  rintro a b hab rfl
  exact hR a hab

end

/-! ### Methods -/

section

variable {code : List Instruction} {g : Graph} {m : Machine} {statements : List Node}
  {d : Declarations} {slots : Table String Kind} {calls : Nat → Prop} {call : Caller} {room : Nat}
  {n k : Nat} {is : List Inst} {kinds : List Kind} {ps : List Param} {s : Signature} {body : Body}
  {p : Program}

/-- Arguments of the right kinds can be taken. -/
theorem Takes.runs (h : Takes slots kinds k ps is) :
    ∀ f : Frame, ArgsOf kinds f.args → f.Fits slots →
      ∃ f', execAll call f is = .ok f' ∧ f'.Fits slots := by
  induction h with
  | nil => exact fun f _ hf => ⟨f, rfl, hf⟩
  | @cons k p ps is kind hindex hkind hslot _ ih =>
    intro f hargs hf
    -- The caller has passed this argument, of this kind.
    obtain ⟨c, hc, hof⟩ := hargs k kind hkind
    -- It is stored under the name of the parameter, and the other slots stay.
    obtain ⟨f', hexec, hf'⟩ :=
      ih { f with slots := f.slots.set p.name c } hargs (hf.store hslot hof)
    refine ⟨f', ?_, hf'⟩
    have hoperand : f.operand (.argument k kind) = .ok c := by rw [Frame.operand, hc]
    rw [execAll, Inst.exec, hoperand]
    exact hexec

/-- An argument that the frame has was passed by the caller. -/
theorem exists_argument {f : Frame} {args : List Value} {kind : Kind} {c : Cell}
    (h : List.Forall₂ Matches args f.args) (hc : f.operand (.argument k kind) = .ok c) :
    ∃ v, args[k]? = some v ∧ Matches v c := by
  rw [Frame.operand] at hc
  split at hc
  · next cell hget =>
    obtain rfl := Except.ok.inj hc
    obtain ⟨hlt, rfl⟩ := List.getElem?_eq_some_iff.mp hget
    have hlt' : k < args.length := h.length_eq.symm ▸ hlt
    exact ⟨args[k], List.getElem?_eq_getElem hlt', h.get hlt' hlt⟩
  · cases hc

/-- The parameters are bound on both sides. -/
theorem Takes.follows (u : Emittable code g m statements d) (hrun : Followable m)
    (h : Takes slots kinds k ps is) : ∀ {q : Nat} {f f' : Frame} {a : Activation} {outer l},
      ParamsAt code q ps → m.Visits ⟨q, a :: outer, l⟩ → List.Forall₂ Matches a.args f.args →
      f.Mirrors a.locals → execAll call f is = .ok f' →
      f'.fault? = f.fault? ∧ ∃ locals, m.Visits ⟨q + 2 * ps.length, { a with locals } :: outer, l⟩ ∧
        f'.Mirrors locals := by
  induction h with
  | nil =>
    intro q f f' a outer l _ hvisits _ hf hexec
    obtain rfl := Except.ok.inj hexec
    exact ⟨rfl, a.locals, hvisits, hf⟩
  | @cons k p ps is kind hindex hkind hslot _ ih =>
    intro q f f' a outer l hp hvisits hargs hf hexec
    rw [execAll, Inst.exec] at hexec
    obtain ⟨f₁, hfirst, hexec⟩ := exists_of_bind_eq_ok hexec
    obtain ⟨c, hc, hfirst⟩ := exists_of_bind_eq_ok hfirst
    obtain rfl := Except.ok.inj hfirst
    obtain ⟨v, hv, hmatch⟩ := exists_argument hargs hc
    have hpush : m.step ⟨.pushArg p.index, p.origin⟩ ⟨q, a :: outer, l⟩ =
        .next ⟨q + 1, { a with stack := v :: a.stack } :: outer, l⟩ := by
      simp only [Machine.step, hindex, elementAt?_natCast, hv]
      rfl
    -- A parameter is pushed and then assigned, which is two steps.
    have hset := u.visits_step hrun (u.visits_step hrun hvisits hp.head hpush) hp.tail.head rfl
    obtain ⟨hfault, locals, hvisits', hmirrors⟩ := ih
      (f := { f with slots := f.slots.set p.name c })
      (a := { a with locals := a.locals.set p.name v })
      hp.tail.tail hset hargs (hf.set hmatch) hexec
    refine ⟨hfault, locals, ?_, hmirrors⟩
    have hlen : q + 2 * (p :: ps).length = q + 1 + 1 + 2 * ps.length := by
      rw [List.length_cons]
      omega
    rw [hlen]
    exact hvisits'

/-- **A method's function answers**, if those that it calls do. -/
theorem EmitsMethod.answers (h : EmitsMethod code m.Linked d calls n s body) (hk : KeepsFaults call)
    (hcalls : ∀ {name method s}, d.methodNamed? name = some (method, s) → calls method →
      Answers call method s) {cells : List Cell} {fault? : Option Nat}
    (hargs : ArgsOf s.params cells) :
    ∃ c fault'?, body.exec call cells fault? = .ok (c, fault'?) ∧ c.Of s.result := by
  cases h with
  | @intro pos name params b j slots is js front o value t hs hp htakes hemits he htop hvalue
      hkind =>
    obtain ⟨f₁, h₁, hf₁⟩ := htakes.runs ⟨cells, .empty, .empty, fault?⟩ hargs nofun
    obtain ⟨f₂, h₂, -, hos⟩ := hemits.runs hk hcalls f₁ hf₁
    -- The value is nil, or it is what the body has left last.
    obtain ⟨c, hc, hof⟩ : f₂.Has value := by
      rcases hvalue with ⟨-, rfl⟩ | ⟨-, rfl⟩
      · exact ⟨.pointer none, rfl, trivial⟩
      · exact hos _ (List.mem_append_right _ (.head _))
    refine ⟨c, f₂.fault?, ?_, hkind ▸ hof⟩
    rw [Body.exec, execAll_append_of_eq_ok h₁, h₂]
    change (f₂.operand value).bind _ = _
    rw [hc]
    rfl

/-- **A method's function does what the machine does** in the method, if those that it calls do. -/
theorem EmitsMethod.follows (u : Emittable code g m statements d) (hrun : Followable m)
    (h : EmitsMethod code m.Linked d calls n s body) (hk : KeepsFaults call)
    (hcalls : ∀ {name method}, m.methods.get? name = some method → calls method →
      CallFollows m code call room method)
    {r : Nat} {values : List Value} {cells : List Cell} {caller : Activation}
    {rest : List Activation} {l : List (String × Nat)} {c : Cell} {fault? : Option Nat}
    (hvisits : m.Visits ⟨n + 1, .fresh values (some r) none :: caller :: rest, l⟩)
    (hroom : rest.length + 1 + (room + 1) ≤ maxCallDepth)
    (hargs : List.Forall₂ Matches values cells)
    (hexec : body.exec call cells none = .ok (c, fault?)) :
    (fault? = none ∧ ∃ v calls', Matches v c ∧
      m.Visits ⟨r + 1, { caller with stack := v :: caller.stack } :: rest, calls'⟩) ∨
    ∃ r, fault? = some r ∧ m.DividesByZeroAt r := by
  cases h with
  | @intro pos name params b j slots is js front o value t hs hp htakes hemits he htop hvalue
      hkind =>
    obtain ⟨f₂, hall, hend⟩ := exists_of_bind_eq_ok hexec
    obtain ⟨c', hc, hend⟩ := exists_of_bind_eq_ok hend
    obtain ⟨rfl, rfl⟩ := Prod.mk.inj (Except.ok.inj hend)
    obtain ⟨f₁, h₁, h₂⟩ := exists_of_execAll_append hall
    -- The function begins with empty slots and without a fault.
    obtain ⟨hfault₁, locals, hvisits, hmirrors⟩ := htakes.follows u hrun
      (f := ⟨cells, .empty, .empty, none⟩) hp hvisits hargs nofun h₁
    rcases hemits.follows u hrun hk hcalls _ hvisits (by rw [List.length_cons]; omega) hmirrors
      hfault₁ h₂ with @⟨vs, locals', l', hvisits', hshows, -, hfault₂⟩ | ⟨hfault₂, hdivided⟩
    · obtain ⟨v, us, hvs, hv⟩ := shows_last hshows
      have htype := u.ty_of_top hemits.layout (fun _ h => h) hvisits' (by rw [hvs]; rfl) htop
      -- A method of type nil answers nil, and so does the machine.
      have hmatch : Matches v c' := by
        rcases hvalue with ⟨rfl, rfl⟩ | ⟨-, rfl⟩
        · obtain rfl : v = .nil := by cases v <;> first | rfl | cases htype
          obtain rfl := Except.ok.inj hc
          exact .nil
        · obtain ⟨c'', hc'', hmatch⟩ := hv
          obtain rfl := Except.ok.inj (hc.symm.trans hc'')
          exact hmatch
      refine .inl ⟨hfault₂, v, l', hmatch, u.visits_step hrun hvisits' he ?_⟩
      simp only [Machine.step, hvs]
      rfl
    · exact .inr ⟨_, hfault₂, hdivided⟩

/-! ### Calls -/

variable (x : Translated code g m statements d p)

/-- In the body of a method, a method is called. -/
def MethodCalls (code : List Instruction) (m : Machine) (a b : Nat) : Prop :=
  CallsFrom code m (some a) b

include x

/-- **Every call is answered**, down to the depth of the chains of calls. -/
theorem Translated.answers {method : Nat} (h : Within (MethodCalls code m) k method) :
    ∀ {name : String} {s : Signature} {depth : Nat}, d.methodNamed? name = some (method, s) →
      k ≤ depth → Answers (p.call depth) method s := by
  induction h with
  | @intro k method _ ih =>
    intro name s depth hm hdepth cells fault? hargs
    -- As long as a chain may go on, there is some depth left.
    obtain ⟨depth, rfl⟩ : ∃ n, depth = n + 1 := ⟨depth - 1, by omega⟩
    obtain ⟨s', body, hs, hfunction, hemits⟩ := x.function (x.program.methods_get? hm)
    obtain rfl := Option.some.inj (hs.symm.trans (x.program.signature_of_named hm))
    rw [Program.call, hfunction]
    exact hemits.answers (p.keepsFaults_call depth) (fun hm hcall => ih _ hcall hm (by omega)) hargs

/-- **Every call is followed**, down to the depth of the chains of calls. -/
theorem Translated.callFollows (hrun : Followable m) {method : Nat}
    (h : Within (MethodCalls code m) k method) :
    ∀ {depth : Nat}, k ≤ depth → CallFollows m code (p.call depth) k method := by
  induction h with
  | @intro k method _ ih =>
    intro depth hdepth n pos name values cells a outer l below c fault? hm hi hvisits hstack hroom
      hargs hanswer
    obtain ⟨depth, rfl⟩ : ∃ n, depth = n + 1 := ⟨depth - 1, by omega⟩
    obtain ⟨s, body, hs, hfunction, hemits⟩ := x.function hm
    rw [Program.call, hfunction] at hanswer
    have howner := x.program.owner_eq_none hvisits
    have hreact : m.react a.owner name .nil values = .call method none := by
      simp only [react, howner, methodOf?, Option.bind_none, hm]
    have hstep := Direct.step_send m n pos name outer l hstack
    -- There is room for one more frame, so the machine does not refuse the call.
    have hdeep : ¬ maxCallDepth ≤ outer.length + 1 := by omega
    rw [hreact] at hstep
    simp only [if_neg hdeep] at hstep
    exact hemits.follows x.program hrun (p.keepsFaults_call depth)
      (fun _ hcall => ih _ hcall (by omega)) (x.program.visits_step hrun hvisits hi hstep) hroom
      hargs hanswer

/-- **A chain of calls is no longer than there are methods**, if no method reaches itself. -/
theorem Translated.length_le_size (hacyclic : ∀ a, ¬ Relation.TransGen (MethodCalls code m) a a)
    {name : String} {method : Nat} {chain : List Nat} (hm : m.methods.get? name = some method)
    (h : (method :: chain).IsChain (MethodCalls code m)) :
    (method :: chain).length ≤ p.functions.size := by
  -- Every method on the chain has a function.
  have hkeys : ∀ {chain : List Nat} {method : Nat} {name : String},
      m.methods.get? name = some method → (method :: chain).IsChain (MethodCalls code m) →
        method :: chain ⊆ p.functions.keys := by
    intro chain
    induction chain with
    | nil =>
      intro method name hm _
      obtain ⟨s, body, -, hfunction, -⟩ := x.function hm
      exact List.cons_subset.mpr ⟨Table.mem_keys_of_get? hfunction, List.nil_subset _⟩
    | cons next rest ih =>
      intro method name hm h
      obtain ⟨s, body, -, hfunction, -⟩ := x.function hm
      obtain ⟨⟨_, _, name', _, _, _, _, hnext⟩, hrest⟩ := List.isChain_cons_cons.mp h
      exact List.cons_subset.mpr ⟨Table.mem_keys_of_get? hfunction, ih hnext hrest⟩
  have hle := ((nodup_of_isChain hacyclic h).subperm (hkeys hm h)).length_le
  rwa [Table.keys, List.length_map] at hle

end

end Rubylet.Native
