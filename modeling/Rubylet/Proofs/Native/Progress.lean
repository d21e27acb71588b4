import Rubylet.Proofs.Native.Parts

/-!
# Native code never gets stuck

Emitted code can always be executed, whatever is in the slots: where a cell of a kind is wanted
there is one of that kind, or an undefined one (`Emits.runs`). Nothing is said about values, so this
also holds behind a division by zero, where native code goes on and the machine does not.
-/

namespace Rubylet.Native

/-- A cell that a value of a kind may be in. -/
def Cell.Of : Kind → Cell → Prop
  | _, .undefined | .word, .word _ | .pointer, .pointer _ => True
  | _, _ => False

/-- An operand has a cell of its kind. -/
def Frame.Has (f : Frame) (o : Operand) : Prop := ∃ c, f.operand o = .ok c ∧ c.Of o.kind

/-- What has been written to the slots is of their kinds. -/
def Frame.Fits (f : Frame) (slots : Table String Kind) : Prop :=
  ∀ name c kind, f.slots.get? name = some c → slots.get? name = some kind → c.Of kind

/-- Every parameter has a cell of its kind. -/
def ArgsOf (kinds : List Kind) (cells : List Cell) : Prop :=
  ∀ (k : Nat) (kind : Kind), kinds[k]? = some kind → ∃ c, cells[k]? = some c ∧ c.Of kind

/-- A function answers arguments of the right kinds. -/
def Answers (call : Caller) (method : Nat) (s : Signature) : Prop :=
  ∀ cells fault?, ArgsOf s.params cells →
    ∃ c fault'?, call method cells fault? = .ok (c, fault'?) ∧ c.Of s.result

section

variable {f f' : Frame} {o : Operand} {slots : Table String Kind} {written : List Nat} {n : Nat}

theorem Frame.Has.keep (h : f.Has o) (hk : f.Keeps f' written) (ho : o.Before n)
    (hw : ∀ r ∈ written, n ≤ r) : f'.Has o := by
  obtain ⟨c, hc, hof⟩ := h
  exact ⟨c, by rw [hk.operand ho hw, hc], hof⟩

theorem has_result (f : Frame) (n : Nat) {c : Cell} {kind : Kind} (h : c.Of kind) :
    (f.setResult n c).Has (.result n kind) := ⟨c, operand_setResult f n kind c, h⟩

theorem Frame.Fits.store {name : String} {c : Cell} {kind : Kind} (h : f.Fits slots)
    (hs : slots.get? name = some kind) (hc : c.Of kind) :
    ({ f with slots := f.slots.set name c } : Frame).Fits slots := by
  intro other c' kind' hget hkind
  rw [Table.get?_set] at hget
  -- The slot that is stored, or one of the others.
  split at hget
  · next heq =>
    subst heq
    obtain rfl := Option.some.inj hget
    obtain rfl := Option.some.inj (hs.symm.trans hkind)
    exact hc
  · exact h other c' kind' hget hkind

theorem Frame.Fits.load {name : String} {kind : Kind} (h : f.Fits slots)
    (hs : slots.get? name = some kind) : ((f.slots.get? name).getD .undefined).Of kind := by
  cases hget : f.slots.get? name with
  | none => cases kind <;> trivial
  | some c => exact h name c kind hget hs

/-- Operands that are there can be fetched. -/
theorem exists_operands {os : List Operand} (h : ∀ o ∈ os, f.Has o) :
    ∃ cells, List.Forall₂ (fun o c => f.operand o = .ok c ∧ c.Of o.kind) os cells := by
  induction os with
  | nil => exact ⟨[], .nil⟩
  | cons o os ih =>
    obtain ⟨c, hc⟩ := h o (.head _)
    obtain ⟨cs, hcs⟩ := ih fun o ho => h o (.tail _ ho)
    exact ⟨c :: cs, .cons hc hcs⟩

/-- Arguments that are accepted have the kinds of the parameters. -/
theorem requireArgs_get : ∀ {kinds : List Kind} {os : List Operand},
    requireArgs kinds os = .ok () → ∀ {k : Nat} {kind : Kind}, kinds[k]? = some kind →
      ∃ o, os[k]? = some o ∧ o.kind = kind := by
  intro kinds
  induction kinds with
  | nil => intro os _ k kind hk; cases hk
  | cons first rest ih =>
    intro os h k kind hk
    cases os with
    | nil => cases h
    | cons o os =>
      rw [requireArgs] at h
      split at h
      · next heq =>
        -- The first argument, or one of the rest.
        cases k with
        | zero =>
          obtain rfl := Option.some.inj hk
          exact ⟨o, rfl, heq⟩
        | succ k => exact ih h hk
      · cases h

/-- Arguments that are not refused are of the right kinds. -/
theorem argsOf_of_requireArgs {kinds : List Kind} {os : List Operand} {cells : List Cell}
    (h : requireArgs kinds os = .ok ())
    (hc : List.Forall₂ (fun o c => f.operand o = .ok c ∧ c.Of o.kind) os cells) :
    ArgsOf kinds cells := by
  intro k kind hk
  obtain ⟨o, ho, rfl⟩ := requireArgs_get h hk
  obtain ⟨hlt, rfl⟩ := List.getElem?_eq_some_iff.mp ho
  have hlt' : k < cells.length := hc.length_eq ▸ hlt
  exact ⟨cells[k], List.getElem?_eq_getElem hlt', (hc.get hlt hlt').2⟩

/-- Words can be computed with. -/
theorem exists_arith (f : Frame) (n : Nat) (op : Arith) {a b : Cell} (ha : a.Of .word)
    (hb : b.Of .word) : ∃ f', f.arith n op a b = .ok f' ∧ f'.slots = f.slots ∧
      f'.Has (.result n .word) := by
  have hundefined : ∀ f : Frame, (f.setResult n .undefined).Has (.result n .word) :=
    fun f => has_result f n trivial
  cases a with
  | pointer text? => cases ha
  | undefined =>
    cases b with
    | pointer text? => cases hb
    -- What is computed from an undefined cell is undefined.
    | word _ | undefined => exact ⟨_, rfl, rfl, hundefined f⟩
  | word x =>
    cases b with
    | pointer text? => cases hb
    | undefined => exact ⟨_, rfl, rfl, hundefined f⟩
    | word y =>
      refine ⟨_, rfl, ?_, has_result _ n ?_⟩
      · rw [Frame.setResult]
        split <;> rfl
      · split <;> trivial

end

section

variable {code : List Instruction} {links : Nat → Nat → Prop} {d : Declarations}
  {slots : Table String Kind} {calls : Nat → Prop} {p : Part} {n n' : Nat} {is : List Inst}
  {os : List Operand} {call : Caller}

/-- The operands that are known before a part are known behind it. -/
theorem Emits.keep (h : Emits code links d slots calls p n n' is os) (hk : KeepsFaults call)
    {f f' : Frame} (hexec : execAll call f is = .ok f') {o : Operand} (ho : o.Before n) :
    f'.operand o = f.operand o :=
  (execAll_keeps hk is hexec).operand ho fun r hr => (h.records r hr).1

/-- What is there before a part is there behind it. -/
theorem Emits.has_of_has (h : Emits code links d slots calls p n n' is os) (hk : KeepsFaults call)
    {f f' : Frame} (hexec : execAll call f is = .ok f') {o : Operand} (ho : o.Before n)
    (hf : f.Has o) : f'.Has o :=
  hf.keep (execAll_keeps hk is hexec) ho fun r hr => (h.records r hr).1

/-- Instructions can be executed wherever the slots fit, and leave operands behind. -/
def Runs (call : Caller) (slots : Table String Kind) (is : List Inst) (os : List Operand) : Prop :=
  ∀ f : Frame, f.Fits slots →
    ∃ f', execAll call f is = .ok f' ∧ f'.Fits slots ∧ ∀ o ∈ os, f'.Has o

namespace Runs

variable {js : List Inst} {os' : List Operand} {o o' : Operand} {k : Nat} {kind : Kind}

theorem nothing : Runs call slots [] [] := fun f hf => ⟨f, rfl, hf, nofun⟩

theorem constant {i : Instruction} (ho : constant? i.op = some o) : Runs call slots [] [o] := by
  intro f hf
  refine ⟨f, rfl, hf, fun o' hmem => ?_⟩
  obtain rfl := List.mem_singleton.mp hmem
  unfold constant? at ho
  split at ho <;> first | (obtain rfl := Option.some.inj ho; exact ⟨_, rfl, trivial⟩) | cases ho

theorem null : Runs call slots [] [.null] := constant (i := ⟨.pushNil, default⟩) rfl

theorem load {name : String} (n : Nat) (hs : slots.get? name = some kind) :
    Runs call slots [.load n name] [.result n kind] := by
  intro f hf
  refine ⟨_, execAll_singleton call f _, hf, fun o hmem => ?_⟩
  obtain rfl := List.mem_singleton.mp hmem
  exact has_result f n (hf.load hs)

/-- One after the other, if what the first ones leave is kept. -/
theorem append (h : Runs call slots is os) (h' : Runs call slots js os')
    (hkeep : ∀ {f f' o}, execAll call f js = .ok f' → o ∈ os → f.Has o → f'.Has o) :
    Runs call slots (is ++ js) (os ++ os') := by
  intro f hf
  obtain ⟨f₁, h₁, hf₁, hos₁⟩ := h f hf
  obtain ⟨f₂, h₂, hf₂, hos₂⟩ := h' f₁ hf₁
  refine ⟨f₂, (execAll_append_of_eq_ok h₁).trans h₂, hf₂, fun o hmem => ?_⟩
  rcases List.mem_append.mp hmem with hmem | hmem
  · exact hkeep h₂ hmem (hos₁ o hmem)
  · exact hos₂ o hmem

/-- One more instruction, which needs some of the operands. -/
theorem snoc {inst : Inst} (h : Runs call slots is os)
    (h' : ∀ f : Frame, f.Fits slots → (∀ o ∈ os, f.Has o) →
      ∃ f', inst.exec call f = .ok f' ∧ f'.Fits slots ∧ ∀ o ∈ os', f'.Has o) :
    Runs call slots (is ++ [inst]) os' := by
  intro f hf
  obtain ⟨f₁, h₁, hf₁, hos₁⟩ := h f hf
  obtain ⟨f₂, h₂, hf₂, hos₂⟩ := h' f₁ hf₁ hos₁
  exact ⟨f₂, ((execAll_append_of_eq_ok h₁).trans (execAll_singleton call f₁ inst)).trans h₂, hf₂,
    hos₂⟩

/-- A call runs if the function answers arguments of the kinds it asks for. -/
theorem exec_call {f : Frame} {method : Nat} {s : Signature} (hf : f.Fits slots)
    (hos : ∀ o ∈ os, f.Has o) (hreq : requireArgs s.params os = .ok ())
    (hanswers : Answers call method s) :
    ∃ f', (Inst.call k method os).exec call f = .ok f' ∧ f'.Fits slots ∧
      ∀ o ∈ [Operand.result k s.result], f'.Has o := by
  obtain ⟨cells, hcells⟩ := exists_operands hos
  obtain ⟨c, fault?, hanswer, hc⟩ := hanswers cells f.fault? (argsOf_of_requireArgs hreq hcells)
  -- The arguments are fetched and are of the kinds that the function asks for.
  have hoperands : f.operands os = .ok cells :=
    operands_eq_ok_iff.mpr (hcells.imp fun _ _ h => h.1)
  refine ⟨({ f with fault? } : Frame).setResult k c, ?_, hf, fun o hmem => ?_⟩
  · rw [Inst.exec, hoperands]
    change (call method cells f.fault?).bind _ = _
    rw [hanswer]
    rfl
  · obtain rfl := List.mem_singleton.mp hmem
    exact has_result _ k hc

/-- An operator on two words runs and leaves a word. -/
theorem exec_arith {f : Frame} {op : Arith} (hf : f.Fits slots) (ho : f.Has o) (ho' : f.Has o')
    (hkind : o.kind = .word) (hkind' : o'.kind = .word) :
    ∃ f', (Inst.arith k op o o').exec call f = .ok f' ∧ f'.Fits slots ∧
      ∀ o ∈ [Operand.result k .word], f'.Has o := by
  obtain ⟨a, ha, hao⟩ := ho
  obtain ⟨b, hb, hbo⟩ := ho'
  rw [hkind] at hao
  rw [hkind'] at hbo
  obtain ⟨f', hexec, hslots, hresult⟩ := exists_arith f k op hao hbo
  -- The operator touches no slot.
  refine ⟨f', ?_, by rw [Frame.Fits, hslots]; exact hf, fun o hmem => ?_⟩
  · rw [Inst.exec, ha, hb]
    exact hexec
  · obtain rfl := List.mem_singleton.mp hmem
    exact hresult

/-- What a branch leaves becomes the result of the conditional. -/
theorem result {front : List Operand} {f : Frame} (h : Runs call slots js (front ++ [o]))
    (hf : f.Fits slots) (ho : o.kind = kind) :
    ∃ f', (execAll call f js).bind (fun f => (f.operand o).map (f.setResult k)) = .ok f' ∧
      f'.Fits slots ∧ f'.Has (.result k kind) := by
  obtain ⟨f', hexec, hf', hos⟩ := h f hf
  obtain ⟨c, hc, hof⟩ := hos o (List.mem_append_right _ (.head _))
  refine ⟨f'.setResult k c, ?_, hf', has_result f' k (ho ▸ hof)⟩
  rw [hexec, Except.bind, hc]
  rfl

/-- Either branch of a conditional leaves a value of its kind. -/
theorem exec_branch {front front' : List Operand} {ks : List Inst} {f : Frame} {taken : Bool}
    (h : Runs call slots js (front ++ [o])) (h' : Runs call slots ks (front' ++ [o']))
    (hf : f.Fits slots) (ho : o.kind = kind) (ho' : o'.kind = kind) :
    ∃ f', (Inst.branch k taken js o ks o').exec call f = .ok f' ∧ f'.Fits slots ∧
      ∀ o ∈ [Operand.result k kind], f'.Has o := by
  simp only [Inst.exec, List.forall_mem_singleton]
  cases taken with
  | true => exact h.result hf ho
  | false => exact h'.result hf ho'

theorem exec_store {f : Frame} {name : String} (hf : f.Fits slots) (ho : f.Has o)
    (hs : slots.get? name = some o.kind) :
    ∃ f', (Inst.store name o).exec call f = .ok f' ∧ f'.Fits slots ∧
      ∀ o ∈ ([] : List Operand), f'.Has o := by
  obtain ⟨c, hc, hof⟩ := ho
  refine ⟨{ f with slots := f.slots.set name c }, ?_, hf.store hs hof, nofun⟩
  rw [Inst.exec, hc]
  rfl

end Runs

/-- **Emitted code can be executed**, and what it leaves is there behind it. -/
theorem Emits.runs (h : Emits code links d slots calls p n n' is os) (hk : KeepsFaults call)
    (hcalls : ∀ {name method s}, d.methodNamed? name = some (method, s) → calls method →
      Answers call method s) : Runs call slots is os := by
  induction h with
  | constant _ _ ho => exact .constant ho
  | @localRead pos name n kind _ hs => exact .load n hs
  | call hr hargs _ _ hm hcall hreq ihr ihargs =>
    -- The receiver's operand outlives the code of the arguments.
    exact (ihr.append ihargs fun h ho => hargs.has_of_has hk h (hr.before _ ho)).snoc fun f hf hos =>
      Runs.exec_call hf (fun o ho => hos o (.tail _ ho)) hreq (hcalls hm hcall)
  | arith hr hargs _ _ _ hkind hkind' ihr ihargs =>
    exact (ihr.append ihargs fun h ho => hargs.has_of_has hk h (hr.before _ ho)).snoc fun f hf hos =>
      Runs.exec_arith hf (hos _ (.head _)) (hos _ (.tail _ (.head _))) hkind hkind'
  | conditional _ _ _ _ _ _ _ _ _ hv hw ihc iht ihb =>
    exact ihc.snoc fun f hf _ => iht.exec_branch ihb hf hv hw
  | absent | methodDef | missing | empty => exact .null
  | noExprs | noStatements => exact .nothing
  | present _ ih | expression _ ih | left _ _ _ ih => exact ih
  | moreExprs hx hxs ihx ihxs | moreStatements hx hxs ihx ihxs =>
    exact ihx.append ihxs fun h ho => hxs.has_of_has hk h (hx.before _ ho)
  | assign _ _ hs hkind ih =>
    exact ih.snoc fun f hf hos => Runs.exec_store hf (hos _ (.head _)) (hkind ▸ hs)
  | closedNil hxs _ _ _ ih =>
    have h := ih.append .null fun h _ ho => Except.ok.inj h ▸ ho
    rwa [List.append_nil] at h
  | @closedVar _ pos xs i n k is os name kind hxs _ _ _ hs ih =>
    refine ih.append (.load k hs) fun h ho hf => ?_
    exact hf.keep (execAll_keeps hk _ h) (hxs.before _ ho) fun r hr =>
      Nat.le_of_eq (List.mem_singleton.mp hr).symm

end

end Rubylet.Native
