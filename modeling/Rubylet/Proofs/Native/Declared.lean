import Rubylet.Native.Emission
import Rubylet.Proofs.Code.Tables
import Rubylet.Proofs.Graph.Locals

/-!
# What is declared before native code is emitted

The signatures of the methods and the slots of a body are read off the records beforehand. Here is
what they hold: a signature has the kinds of the records of its parameters and of its definition
(`mem_signatures`), the last signature of a name is that of the method which the machine calls
(`methods_get?_eq_methodNamed?`), every slot has the kind of an assignment in its own frame
(`slotsFrom_assigns`), and every local that is assigned in the frame has one (`slotsFrom_covers`).

Native code is emitted for code without classes only, so the frames in it are the main program and
the methods.
-/

namespace Rubylet.Native

open Replay

/-- The kind of machine value that the values of a type are. -/
def kindOf? : Ty → Option Kind
  | .int => some .word
  | .str | .nil => some .pointer
  | _ => none

/-- A record has a kind when its type does. -/
theorem kindOf_eq_ok_iff {n : Nat} {r : TypedRecord} {kind : Kind} :
    kindOf n r = .ok kind ↔ r.type?.bind kindOf? = some kind := by
  unfold kindOf
  split
  · next h => simp [h, kindOf?]
  · next h => simp [h, kindOf?]
  · next h => simp [h, kindOf?]
  · next t h₁ h₂ h₃ h =>
    -- The types with a kind have been ruled out.
    have hnone : kindOf? t = none := by
      cases t <;> first | rfl | simp_all
    simp [h, hnone]
  · next h => simp [h, misfit]

/-! ### Signatures -/

variable {rs : List TypedRecord}

/-- A signature belongs to a definition, with the kinds of its records. -/
theorem mem_signatures : ∀ {n : Nat} {sigs : List (Nat × Signature)},
    signaturesFrom n rs = .ok sigs → ∀ {m : Nat} {s : Signature}, (m, s) ∈ sigs →
      ∃ k r, m = n + k ∧ rs[k]? = some r ∧ r.instruction.op = .defStart s.name ∧
        paramKinds (m + 1) (rs.drop (k + 1)) = .ok s.params ∧
        r.type?.bind kindOf? = some s.result := by
  induction rs with
  | nil =>
    intro n sigs h m s hmem
    obtain rfl := Except.ok.inj h
    cases hmem
  | cons r rest ih =>
    intro n sigs h m s hmem
    -- What is found further on is one place further from the beginning.
    have later : ∀ {sigs'}, signaturesFrom (n + 1) rest = .ok sigs' → (m, s) ∈ sigs' →
        ∃ k r', m = n + k ∧ (r :: rest)[k]? = some r' ∧ r'.instruction.op = .defStart s.name ∧
          paramKinds (m + 1) ((r :: rest).drop (k + 1)) = .ok s.params ∧
          r'.type?.bind kindOf? = some s.result := by
      intro sigs' h hmem
      obtain ⟨k, r', rfl, hr', ho, hp, hk⟩ := ih h hmem
      exact ⟨k + 1, r', by omega, hr', ho, hp, hk⟩
    rw [signaturesFrom] at h
    split at h
    · next name ho =>
      obtain ⟨params, hparams, h⟩ := exists_of_bind_eq_ok h
      obtain ⟨result, hresult, h⟩ := exists_of_bind_eq_ok h
      obtain ⟨others, hothers, h⟩ := exists_of_bind_eq_ok h
      obtain rfl := Except.ok.inj h
      rcases List.mem_cons.mp hmem with heq | hmem
      · obtain ⟨rfl, rfl⟩ := Prod.mk.inj heq
        exact ⟨0, r, rfl, rfl, ho, hparams, kindOf_eq_ok_iff.mp hresult⟩
      · exact later hothers hmem
    · exact later h hmem

/-- A definition has one signature. -/
theorem find_signatures : ∀ {n : Nat} {sigs : List (Nat × Signature)},
    signaturesFrom n rs = .ok sigs → ∀ {m : Nat} {s : Signature}, (m, s) ∈ sigs →
      Table.find m sigs = some s := by
  induction rs with
  | nil =>
    intro n sigs h m s hmem
    obtain rfl := Except.ok.inj h
    cases hmem
  | cons r rest ih =>
    intro n sigs h m s hmem
    rw [signaturesFrom] at h
    split at h
    · obtain ⟨params, -, h⟩ := exists_of_bind_eq_ok h
      obtain ⟨result, -, h⟩ := exists_of_bind_eq_ok h
      obtain ⟨others, hothers, h⟩ := exists_of_bind_eq_ok h
      obtain rfl := Except.ok.inj h
      rw [Table.find]
      -- The entry is the first, or one of those behind it, which have greater records.
      rcases List.mem_cons.mp hmem with heq | hmem
      · obtain ⟨rfl, rfl⟩ := Prod.mk.inj heq
        rw [if_pos rfl]
      · obtain ⟨k, -, rfl, -⟩ := mem_signatures hothers hmem
        rw [if_neg (by omega), ih hothers hmem]
    · exact ih h hmem

theorem mem_of_methodNamed? {d : Declarations} {name : String} {m : Nat} {s : Signature}
    (h : d.methodNamed? name = some (m, s)) : (m, s) ∈ d.signatures.entries := by
  rw [Declarations.methodNamed?] at h
  exact List.mem_reverse.mp (List.mem_of_find?_eq_some h)

/-- The definitions in code, by record and name. -/
def definitionsFrom (n : Nat) : List Instruction → List (Nat × String)
  | [] => []
  | i :: rest =>
    match i.op with
    | .defStart name => (n, name) :: definitionsFrom (n + 1) rest
    | _ => definitionsFrom (n + 1) rest

/-- A definition is entered under its record and its name. -/
theorem mem_definitionsFrom {i : Instruction} {name : String} (hop : i.op = .defStart name) :
    ∀ {code : List Instruction} {k n : Nat}, code[n]? = some i →
      (k + n, name) ∈ definitionsFrom k code := by
  intro code
  induction code with
  | nil => intro k n h; cases h
  | cons j rest ih =>
    intro k n h
    rw [definitionsFrom]
    cases n with
    | zero =>
      obtain rfl := Option.some.inj h
      rw [hop]
      exact .head _
    | succ n =>
      -- The definition stands further on, counted from the next record.
      have hlater := ih (k := k + 1) h
      rw [Nat.add_right_comm, Nat.add_assoc] at hlater
      split
      · exact .tail _ hlater
      · exact hlater

/-- Every definition has a signature, in order. -/
theorem map_signatures : ∀ {n : Nat} {sigs : List (Nat × Signature)},
    signaturesFrom n rs = .ok sigs →
      sigs.map (fun p => (p.1, p.2.name)) =
        definitionsFrom n (rs.map TypedRecord.instruction) := by
  induction rs with
  | nil =>
    intro n sigs h
    obtain rfl := Except.ok.inj h
    rfl
  | cons r rest ih =>
    intro n sigs h
    rw [signaturesFrom] at h
    split at h
    -- A record adds a signature exactly when it opens a definition.
    · next name ho =>
      obtain ⟨params, -, h⟩ := exists_of_bind_eq_ok h
      obtain ⟨result, -, h⟩ := exists_of_bind_eq_ok h
      obtain ⟨others, hothers, h⟩ := exists_of_bind_eq_ok h
      obtain rfl := Except.ok.inj h
      simp only [List.map_cons, definitionsFrom, ho, ih hothers]
    · next hno =>
      cases ho : r.instruction.op with
      | defStart name => exact absurd ho (hno name)
      | _ => simp only [List.map_cons, definitionsFrom, ho, ih h]

/-- Loading registers the last definition of a name. -/
theorem methods_of_learnAll {code : List Instruction} (name : String) :
    ∀ {n : Nat} {l l' : Machine.Loading}, l.learnAll n code = .ok l' → l.currentClass = none →
      (∀ i ∈ code, ∀ c, i.op ≠ .classStart c) →
      l'.methods.get? name =
        (((definitionsFrom n code).reverse.find? fun d => d.2 = name).map Prod.fst).or
          (l.methods.get? name) := by
  induction code with
  | nil =>
    intro n l l' h _ _
    obtain rfl := Except.ok.inj h
    rfl
  | cons i rest ih =>
    intro n l l' h hl hcls
    obtain ⟨l₁, hlearn, h⟩ := exists_of_bind_eq_ok h
    have hrest := fun j hj => hcls j (List.mem_cons_of_mem _ hj)
    rw [definitionsFrom]
    split
    · next other ho =>
      rw [ho] at hlearn
      obtain rfl := Except.ok.inj hlearn
      -- Without classes, all methods are learned into the same table.
      have hcurrent : (((l.openBlock n).define other n).currentClass) = none := by
        rw [Machine.Loading.currentClass_define]
        exact hl
      have hmethods : ((l.openBlock n).define other n).methods = l.methods.set other n := by
        have hopened : (l.openBlock n).currentClass = none := hl
        rw [Machine.Loading.define, hopened]
        rfl
      rw [ih h hcurrent hrest, hmethods, Table.get?_set, List.reverse_cons, List.find?_append]
      by_cases heq : other = name
      · simp [heq]
        cases (definitionsFrom (n + 1) rest).reverse.find? fun d => d.2 = name <;> rfl
      · simp [heq]
    · next hno =>
      obtain ⟨hmethods, -, hcurrent⟩ :=
        Machine.Loading.learn_other hlearn hno (hcls i (List.mem_cons_self))
      have hcurrent' : l₁.currentClass = none := by
        rw [hcurrent]
        split
        · rfl
        · exact hl
      rw [ih h hcurrent' hrest, hmethods]

/-- **A name means the same method** to native code as to the machine. -/
theorem methods_get?_eq_methodNamed? {code : List Instruction} {m : Machine}
    {statements : List Node} {d : Declarations} (hl : Loaded m code statements)
    (hcls : ∀ i ∈ code, ∀ c, i.op ≠ .classStart c)
    (hcode : rs.map TypedRecord.instruction = code)
    (hsigs : signaturesFrom 0 rs = .ok d.signatures.entries) (name : String) :
    m.methods.get? name = (d.methodNamed? name).map Prod.fst := by
  obtain ⟨l, hloads, hmethods, -⟩ := hl.loads
  have hall := methods_of_learnAll name (Machine.Loading.learnAll_of_loads hloads rfl) rfl hcls
  rw [hmethods, hall, List.drop_zero, ← hcode, ← map_signatures hsigs, ← List.map_reverse,
    List.find?_map, Declarations.methodNamed?, Option.map_map]
  exact Option.or_none

/-! ### Slots -/

/-- One record of a scan for slots, in which some definitions inside the frame of the body are open:
the scan ends with the frame, or goes on with a slot for the local that is assigned in it. -/
theorem slotsFrom_cons {code : List Instruction} {r : TypedRecord} {n : Nat}
    {opened base : List Nat} {slots slots' : Table String Kind}
    (hcls : ∀ i ∈ code, (∀ c, i.op ≠ .classStart c) ∧ ∀ c, i.op ≠ .classEnd c)
    (hcode : (r :: rs).map TypedRecord.instruction = code.drop n)
    (hopen : openers code n = opened ++ base)
    (h : slotsFrom n opened.length slots (r :: rs) = .ok slots') :
    code[n]? = some r.instruction ∧ rs.map TypedRecord.instruction = code.drop (n + 1) ∧
      ((opened = [] ∧ (∃ name, r.instruction.op = .defEnd name) ∧ slots' = slots) ∨
        ∃ opened' slots₁, openers code (n + 1) = opened' ++ base ∧
          slotsFrom (n + 1) opened'.length slots₁ rs = .ok slots' ∧
          ((slots₁ = slots ∧ ∀ name, r.instruction.op = .setVar name → opened = [] →
              slots.contains name) ∨
            ∃ name kind, r.instruction.op = .setVar name ∧ opened = [] ∧
              r.type?.bind kindOf? = some kind ∧ slots₁ = slots.set name kind)) := by
  have hlt : n < code.length := by
    by_contra hge
    rw [List.drop_of_length_le (Nat.le_of_not_lt hge)] at hcode
    cases hcode
  rw [List.map_cons, List.drop_eq_getElem_cons hlt] at hcode
  obtain ⟨hr, hrest⟩ := List.cons.inj hcode
  have hi : code[n]? = some r.instruction := hr ▸ List.getElem?_eq_getElem hlt
  have hsucc := openers_succ hi
  obtain ⟨hstart, hend⟩ := hcls _ (List.mem_of_getElem? hi)
  refine ⟨hi, hrest, ?_⟩
  rw [slotsFrom] at h
  split at h
  · next other ho =>
    rw [ho] at hsucc
    exact .inr ⟨n :: opened, slots, by rw [hsucc, hopen]; rfl, h, .inl ⟨rfl, by simp [ho]⟩⟩
  · next other ho =>
    rw [ho] at hsucc
    cases opened with
    | nil => exact .inl ⟨rfl, ⟨other, ho⟩, (Except.ok.inj h).symm⟩
    | cons o opened =>
      exact .inr ⟨opened, slots, by rw [hsucc, hopen]; rfl, h, .inl ⟨rfl, by simp⟩⟩
  · next other ho =>
    rw [ho] at hsucc
    have hopen' : openers code (n + 1) = opened ++ base := hsucc.trans hopen
    split at h
    · next hnew =>
      obtain ⟨kind, hkind, h⟩ := exists_of_bind_eq_ok h
      -- A slot is made where no definition is open within the frame, and only for a new name.
      have hnil : opened = [] := by
        simp only [Bool.and_eq_true, decide_eq_true_eq, List.length_eq_zero_iff] at hnew
        exact hnew.1
      exact .inr ⟨opened, _, hopen', h,
        .inr ⟨other, kind, ho, hnil, kindOf_eq_ok_iff.mp hkind, rfl⟩⟩
    · next hnew =>
      refine .inr ⟨opened, slots, hopen', h, .inl ⟨rfl, fun name hname hnil => ?_⟩⟩
      obtain rfl := Operation.setVar.inj (ho.symm.trans hname)
      simpa [hnil] using hnew
  · next hnd hne hnv =>
    refine .inr ⟨opened, slots, ?_, h, .inl ⟨rfl, fun name hname => absurd hname (hnv name)⟩⟩
    rw [hsucc, ← hopen]
    cases ho : r.instruction.op with
    | defStart c => exact absurd ho (hnd c)
    | defEnd c => exact absurd ho (hne c)
    | classStart c => exact absurd ho (hstart c)
    | classEnd c => exact absurd ho (hend c)
    | _ => rfl

/-- A slot has the kind of an assignment, in the frame that the body begins in. -/
theorem slotsFrom_assigns {code : List Instruction} {base : List Nat} {name : String} {kind : Kind}
    (hcls : ∀ i ∈ code, (∀ c, i.op ≠ .classStart c) ∧ ∀ c, i.op ≠ .classEnd c) :
    ∀ (rs : List TypedRecord) {n : Nat} {opened : List Nat} {slots slots' : Table String Kind},
      rs.map TypedRecord.instruction = code.drop n → openers code n = opened ++ base →
      slotsFrom n opened.length slots rs = .ok slots' → slots'.get? name = some kind →
      slots.get? name = some kind ∨ ∃ k r, rs[k]? = some r ∧ r.instruction.op = .setVar name ∧
        openers code (n + k) = base ∧ r.type?.bind kindOf? = some kind := by
  intro rs
  induction rs with
  | nil =>
    intro n opened slots slots' _ _ h hget
    obtain rfl := Except.ok.inj h
    exact .inl hget
  | cons r rest ih =>
    intro n opened slots slots' hcode hopen h hget
    obtain ⟨-, hrest, ⟨-, -, rfl⟩ | ⟨opened', slots₁, hopen', h, hslots⟩⟩ :=
      slotsFrom_cons hcls hcode hopen h
    · exact .inl hget
    rcases ih hrest hopen' h hget with hold | ⟨k, r', hr', ho, hbase, hkind⟩
    -- The slot is an old one, or it was made for this very assignment.
    · rcases hslots with ⟨rfl, -⟩ | ⟨other, found, ho, rfl, hfound, rfl⟩
      · exact .inl hold
      · rw [Table.get?_set] at hold
        split at hold
        · next heq =>
          obtain rfl := Option.some.inj hold
          exact .inr ⟨0, r, rfl, heq ▸ ho, hopen, hfound⟩
        · exact .inl hold
    · exact .inr ⟨k + 1, r', hr', ho, by rw [← hbase]; congr 1; omega, hkind⟩

/-- At a point of the frame that a scan began in, no frame is open within it. -/
theorem opened_eq_nil {code : List Instruction} {n : Nat} {opened base : List Nat}
    (hopen : openers code n = opened ++ base) (hframe : frameOf code n = base.head?) :
    opened = [] := by
  cases opened with
  | nil => rfl
  | cons o opened =>
    have hsorted := pairwise_openers code n
    rw [frameOf, hopen] at hframe
    rw [hopen] at hsorted
    have hmem : o ∈ base := List.mem_of_mem_head? hframe.symm
    -- What is open above the base would lie below it.
    have hlt := (List.pairwise_cons.mp hsorted).1 o (List.mem_append_right _ hmem)
    exact absurd hlt (Nat.lt_irrefl o)

/-- Every local that is assigned in the frame that a body begins in has a slot: the scan ends at the
end of the frame, and what is deeper belongs to other frames. -/
theorem slotsFrom_covers {code : List Instruction} {base : List Nat} {name : String} {q : Nat}
    (hcls : ∀ i ∈ code, (∀ c, i.op ≠ .classStart c) ∧ ∀ c, i.op ≠ .classEnd c)
    (hcloses : ∀ n i name, code[n]? = some i → i.op = .defEnd name → openers code n ≠ [])
    (hq : Assigns code q name base.head?) :
    ∀ (rs : List TypedRecord) {n : Nat} {opened : List Nat} {slots slots' : Table String Kind},
      rs.map TypedRecord.instruction = code.drop n → openers code n = opened ++ base →
      slotsFrom n opened.length slots rs = .ok slots' → (slots.get? name).isSome ∨ n ≤ q →
      (slots'.get? name).isSome := by
  obtain ⟨⟨i, hi, hset⟩, hframe⟩ := hq
  intro rs
  induction rs with
  | nil =>
    intro n opened slots slots' hcode _ h hname
    obtain rfl := Except.ok.inj h
    refine hname.resolve_right fun hle => ?_
    -- The scan has come to the end of the code, and so past the assignment.
    have hlt := (List.getElem?_eq_some_iff.mp hi).1
    have hlen := congrArg List.length hcode
    rw [List.length_drop, List.length_map, List.length_nil] at hlen
    omega
  | cons r rest ih =>
    intro n opened slots slots' hcode hopen h hname
    obtain ⟨hn, hrest, hstep⟩ := slotsFrom_cons hcls hcode hopen h
    rcases hstep with ⟨rfl, ⟨other, ho⟩, rfl⟩ | ⟨opened', slots₁, hopen', h, hslots⟩
    · -- The frame is closed here and never open again.
      refine hname.resolve_right fun hle => ?_
      have hne : n ≠ q := by
        rintro rfl
        rw [Option.some.inj (hn.symm.trans hi), hset] at ho
        cases ho
      cases base with
      | nil => exact hcloses n _ _ hn ho hopen
      | cons o outer =>
        have hclosed : openers code (n + 1) = outer := by rw [openers_succ hn, ho, hopen]; rfl
        exact not_mem_openers_of_closed hopen hclosed (by omega) (List.mem_of_mem_head? hframe)
    · refine ih hrest hopen' h ?_
      -- A slot that is there is not lost; one that is not is made at the assignment.
      rcases hname with hname | hle
      · left
        rcases hslots with ⟨rfl, -⟩ | ⟨other, kind, -, -, -, rfl⟩
        · exact hname
        · rw [Table.get?_set]
          split
          · rfl
          · exact hname
      rcases Nat.lt_or_eq_of_le hle with hlt | rfl
      · exact .inr hlt
      left
      obtain rfl := Option.some.inj (hn.symm.trans hi)
      have hnil := opened_eq_nil hopen hframe
      rcases hslots with ⟨rfl, hold⟩ | ⟨other, kind, ho, -, -, rfl⟩
      · exact hold name hset hnil
      · obtain rfl := Operation.setVar.inj (ho.symm.trans hset)
        rw [Table.get?_set_self]
        rfl

end Rubylet.Native
