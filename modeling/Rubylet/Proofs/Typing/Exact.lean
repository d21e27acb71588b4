import Rubylet.Proofs.Typing.Complete

/-!
# Inference is the typing relation

The store is the memory of a search, and no answer depends on it: `resolve` answers the types that
can be derived and no others, whatever was asked before and whether it was found
(`resolve_iff`). What is written down after a failure is right as well. All records are typed
just in case every one of them has a type, and then a backend that asks for all types gets them.

* `inference_exact`: all of this, for every graph that is built.
* `getElem?_of_infer`: what `infer` hands to a backend, for the proofs about backends.
-/

namespace Rubylet

open Rubylet.Graph

variable {code : List Instruction} {g : Graph} {s : Store} {n : Nat} {t : Ty}
  {records : List TypedRecord}

namespace Inference

/-! ### Stores that are reached -/

variable (g) in
/-- The stores that asking for the types of records leads to, whether they are found or not. -/
inductive Reached : Store → Prop
  | fresh : Reached (.ofGraph g)
  | resolve {s : Store} (n : Nat) : Reached s → Reached (outcome (resolve g n) s).2

/-- Every store that inference reaches is sound. -/
theorem Reached.sound (w : g.Wired) (h : Reached g s) : s.Sound g := by
  induction h with
  | fresh => exact Store.sound_ofGraph w
  | resolve n _ ih => exact (keeps_resolveWithin w _ _ (.record n) _ trivial ih).sound

/-- **From a store that is reached, `resolve` answers what can be derived.** -/
theorem resolve_iff (w : g.Wired) (h : Reached g s) :
    (outcome (resolve g n) s).1 = .ok t ↔ g.HasType (.record n) t := by
  have hs := h.sound w
  constructor
  · exact fun ht => ((keeps_resolveWithin w _ _ (.record n) s trivial hs).post t ht).1
  · exact fun ht => HasType.found w ht trivial (.start _) s hs

/-- An error means that there is no type. -/
theorem resolve_error_iff (w : g.Wired) (h : Reached g s) :
    (∃ e, (outcome (resolve g n) s).1 = .error e) ↔ ∀ t, ¬ g.HasType (.record n) t := by
  constructor
  · rintro ⟨e, he⟩ t ht
    rw [(resolve_iff w h).mpr ht] at he
    cases he
  · intro hno
    cases hr : (outcome (resolve g n) s).1 with
    | error e => exact ⟨e, rfl⟩
    | ok t => exact absurd ((resolve_iff w h).mp hr) (hno t)

/-! ### All records -/

/-- Asking for several types goes through stores that are reached, and stops only at a record
without a type. -/
theorem mapM_resolve (w : g.Wired) :
    ∀ (ns : List Nat) {s : Store}, Reached g s →
      Reached g (outcome (ns.mapM (resolve g)) s).2 ∧
      ((∃ ts, (outcome (ns.mapM (resolve g)) s).1 = .ok ts) ↔
        ∀ n ∈ ns, ∃ t, g.HasType (.record n) t) ∧
      ∀ ts, (outcome (ns.mapM (resolve g)) s).1 = .ok ts →
        s.Grows (outcome (ns.mapM (resolve g)) s).2 ∧
        ∀ n ∈ ns, ((outcome (ns.mapM (resolve g)) s).2.type? n).isSome := by
  intro ns
  induction ns with
  | nil =>
    intro s h
    exact ⟨h, ⟨fun _ _ hn => (List.not_mem_nil hn).elim, fun _ => ⟨[], rfl⟩⟩,
      fun _ _ => ⟨.refl s, fun _ hn => (List.not_mem_nil hn).elim⟩⟩
  | cons n ns ih =>
    intro s h
    have hkeep := keeps_resolveWithin w (Inference.steps g) [] (.record n) s trivial (h.sound w)
    have hreach : Reached g (outcome (resolve g n) s).2 := .resolve n h
    obtain ⟨hreach', hiff, hts⟩ := ih hreach
    rw [List.mapM_cons]
    cases hr : outcome (resolve g n) s with
    | mk r s₁ =>
      change Keeps g s (resolve g n) _ at hkeep
      obtain ⟨-, hgrow, hpost⟩ := hkeep
      rw [hr] at hreach hreach' hiff hts hgrow hpost
      cases r with
      -- The first record without a type stops the asking, and refutes that all have one.
      | error e =>
        rw [outcome_bind_error hr]
        have hno := (resolve_error_iff w h (n := n)).mp ⟨e, by rw [hr]⟩
        refine ⟨hreach, ⟨nofun, fun hall => ?_⟩, nofun⟩
        obtain ⟨t, ht⟩ := hall n (.head _)
        exact absurd ht (hno t)
      | ok t =>
        rw [outcome_bind_ok hr]
        -- The rest is asked from the store that the first question left, which is reached as well.
        have htype : g.HasType (.record n) t := (resolve_iff w h).mp (by rw [hr])
        cases hrest : outcome (ns.mapM (resolve g)) s₁ with
        | mk r s₂ =>
          rw [hrest] at hreach' hiff hts
          cases r with
          | error e =>
            rw [outcome_bind_error hrest]
            refine ⟨hreach', ⟨nofun, fun hall => ?_⟩, nofun⟩
            obtain ⟨ts, hts⟩ := hiff.mpr fun m hm => hall m (.tail _ hm)
            cases hts
          | ok ts =>
            rw [outcome_bind_ok hrest, outcome_pure]
            obtain ⟨hgrow', hall⟩ := hts ts rfl
            refine ⟨hreach', ⟨fun _ m hm => ?_, fun _ => ⟨_, rfl⟩⟩, fun _ _ => ?_⟩
            · rcases List.mem_cons.mp hm with rfl | hm
              · exact ⟨t, htype⟩
              · exact hiff.mp ⟨ts, rfl⟩ m hm
            · refine ⟨hgrow.trans hgrow', fun m hm => ?_⟩
              rcases List.mem_cons.mp hm with rfl | hm
              · exact (Store.Settled.grow (d := .record _) (hpost t rfl).2 hgrow')
              · exact hall m hm

end Inference

open Inference

/-! ### What a backend is handed -/

theorem getElem?_typedRecords (s : Store) (g : Graph) (n : Nat) :
    (s.typedRecords g)[n]? =
      if n < g.records.size then some ⟨(g.record n).instruction, s.type? n⟩ else none := by
  rw [Store.typedRecords, List.getElem?_map]
  split
  · next hn => rw [List.getElem?_range hn]; rfl
  · next hn =>
    rw [List.getElem?_eq_none (by rw [List.length_range]; exact Nat.le_of_not_lt hn)]
    rfl

/-- When all records have a type, none is missing. -/
theorem firstUntyped?_eq_none (h : ∀ r ∈ records, r.type?.isSome) :
    firstUntyped? records = none := by
  rw [firstUntyped?, Option.map_eq_none_iff, List.find?_eq_none]
  rintro ⟨r, k⟩ hr
  have hmem : r ∈ records := by
    have := List.mem_map_of_mem (f := Prod.fst) hr
    rwa [List.zipIdx_map_fst] at this
  simpa using Option.isSome_iff_ne_none.mp (h r hmem)

/-- What is typed has a graph. -/
theorem exists_build_of_infer (hr : infer code = .ok records) : ∃ g, Graph.build code = .ok g := by
  cases hg : Graph.build code with
  | error e => rw [infer, hg] at hr; cases hr
  | ok g => exact ⟨g, rfl⟩

/-- Once there is a graph, all types are asked for. -/
theorem infer_eq (h : Graph.build code = .ok g) :
    infer code = match outcome (resolveAll g) (.ofGraph g) with
      | (.error e, _) => .error (.compile e)
      | (.ok _, store) => .ok (store.typedRecords g) := by
  rw [infer, h]
  rfl

/-- `infer` answers what asking for all types leads to. -/
theorem infer_eq_ok_iff (h : Graph.build code = .ok g) :
    infer code = .ok records ↔
      (∃ ts, (outcome (resolveAll g) (.ofGraph g)).1 = .ok ts) ∧
        records = (outcome (resolveAll g) (.ofGraph g)).2.typedRecords g := by
  rw [infer_eq h]
  cases outcome (resolveAll g) (.ofGraph g) with
  | mk r s =>
    -- The records are taken from the store only when every question has been answered.
    cases r with
    | error e => exact ⟨nofun, fun h => nomatch h.1⟩
    | ok ts =>
      constructor
      · exact fun h => ⟨⟨ts, rfl⟩, (Except.ok.inj h).symm⟩
      · exact fun h => congrArg Except.ok h.2.symm

/-- Every record that a backend is handed has its instruction and its type. -/
theorem getElem?_of_infer (h : Graph.build code = .ok g) (hr : infer code = .ok records)
    {i : Instruction} (hi : code[n]? = some i) :
    ∃ t, records[n]? = some ⟨i, some t⟩ ∧ g.HasType (.record n) t := by
  have b := Graph.built_of_build h
  obtain ⟨⟨ts, hts⟩, rfl⟩ := (infer_eq_ok_iff h).mp hr
  obtain ⟨hreach, -, hall⟩ := mapM_resolve b.isWired (List.range g.records.size) .fresh
  have hn : n < g.records.size := b.size_eq ▸ (List.getElem?_eq_some_iff.mp hi).1
  obtain ⟨t, ht⟩ := Option.isSome_iff_exists.mp ((hall ts hts).2 n (List.mem_range.mpr hn))
  refine ⟨t, ?_, (hreach.sound b.isWired).typed ht⟩
  rw [getElem?_typedRecords, if_pos hn, b.record_eq hi]
  exact congrArg (fun u => some (TypedRecord.mk i u)) ht

/-- Inference returns one record for each instruction. -/
theorem length_of_infer (h : Graph.build code = .ok g) (hr : infer code = .ok records) :
    records.length = code.length := by
  obtain ⟨-, rfl⟩ := (infer_eq_ok_iff h).mp hr
  rw [Store.typedRecords, List.length_map, List.length_range, (Graph.built_of_build h).size_eq]

/-- No record that `infer` hands on is without a type. -/
theorem firstUntyped?_of_infer (h : Graph.build code = .ok g) (hr : infer code = .ok records) :
    firstUntyped? records = none := by
  refine firstUntyped?_eq_none fun r hmem => ?_
  obtain ⟨n, hn, rfl⟩ := List.mem_iff_getElem.mp hmem
  obtain ⟨t, ht, -⟩ := getElem?_of_infer h hr
    (List.getElem?_eq_getElem (length_of_infer h hr ▸ hn))
  rw [List.getElem?_eq_getElem hn] at ht
  rw [Option.some.inj ht]
  rfl

/-! ### The main result -/

/-- **Inference is the typing relation.** From every store that is reached, `resolve` answers a type
just in case it can be derived, and an error just in case none can be; what is written down can be
derived, also after an error. Asking for all types reaches such a store, and goes through just in
case every record has a type; so does `infer`, and then it leaves no record without one. -/
theorem inference_exact (h : Graph.build code = .ok g) :
    (∀ s, Reached g s → ∀ n,
      (∀ t, (outcome (resolve g n) s).1 = .ok t ↔ g.HasType (.record n) t) ∧
      ((∃ e, (outcome (resolve g n) s).1 = .error e) ↔ ∀ t, ¬ g.HasType (.record n) t) ∧
      ∀ t, s.type? n = some t → g.HasType (.record n) t) ∧
    Reached g (outcome (resolveAll g) (.ofGraph g)).2 ∧
    ((∃ ts, (outcome (resolveAll g) (.ofGraph g)).1 = .ok ts) ↔
      ∀ n < g.records.size, ∃ t, g.HasType (.record n) t) ∧
    ((∃ records, infer code = .ok records) ↔
      ∀ n < g.records.size, ∃ t, g.HasType (.record n) t) ∧
    ∀ records, infer code = .ok records → firstUntyped? records = none := by
  have w := (Graph.built_of_build h).isWired
  obtain ⟨hreach, hiff, -⟩ := mapM_resolve w (List.range g.records.size) .fresh
  -- The sweep asks for every record of the graph.
  have hall : (∃ ts, (outcome (resolveAll g) (.ofGraph g)).1 = .ok ts) ↔
      ∀ n < g.records.size, ∃ t, g.HasType (.record n) t := by
    refine hiff.trans ⟨fun hn n hlt => hn n (List.mem_range.mpr hlt), fun hn n hmem => ?_⟩
    exact hn n (List.mem_range.mp hmem)
  -- A type is found where it is derivable, and an error where none is.
  refine ⟨fun s hs n => ⟨fun t => resolve_iff w hs, resolve_error_iff w hs,
    fun t => (hs.sound w).typed⟩, hreach, hall, ?_, fun _ => firstUntyped?_of_infer h⟩
  rw [← hall]
  constructor
  · rintro ⟨records, hr⟩
    exact ((infer_eq_ok_iff h).mp hr).1
  · exact fun hts => ⟨_, (infer_eq_ok_iff h).mpr ⟨hts, rfl⟩⟩

/-- A method with a parameter that is called on a new object: every record has a type. -/
theorem inference_exact_method_of_object :
    let code : List Instruction := [.classStart "A", .defStart "f", .pushArg 0, .setVar "x",
      .pushVar "x", .defEnd "f", .classEnd "A", .pushConst "A", .send "new" (some 0), .pushInt 1,
      .send "f" (some 1)].map fun op => ⟨op, default⟩
    ∃ g, Graph.build code = .ok g ∧ ∀ n < g.records.size, ∃ t, g.HasType (.record n) t := by
  intro code
  -- The example is inferred by evaluation; that its records have types is what the theorem adds.
  have hinfer : (infer code).isOk = true := by decide +kernel
  have hbuild : (Graph.build code).isOk = true := by decide +kernel
  cases hg : Graph.build code with
  | error e => rw [hg] at hbuild; cases hbuild
  | ok g =>
    refine ⟨g, rfl, (inference_exact hg).2.2.2.1.mp ?_⟩
    cases hr : infer code with
    | error e => rw [hr] at hinfer; cases hinfer
    | ok records => exact ⟨records, rfl⟩

end Rubylet
