import Rubylet.Proofs.Syntax.Places
import Rubylet.Proofs.Typing.Closed

/-!
# Where graphs and types are refused

A stage after lowering reports its errors at the origins of instructions. It has the instructions by
number, and a number that no instruction has would stand for an origin that is not in the program
(`Graph.record` answers a default there). So the point is that no such number ever comes up: a search
for types starts at a record that is there, and never leaves what is there (`Built.has_of_dependsOn`).

* `reported_resolveWithin`: what a search reports, with the records it reports it at (`Reported`).
* `pointsTo_of_infer_error`: whatever keeps code from being typed is reported at instructions of the
  code, with all the types that compete.
-/

namespace Rubylet

open Rubylet.Graph Inference Replay

variable {code : List Instruction} {g : Graph} {n : Nat} {i : Instruction} {d : Dependency}
  {P : Pos → Prop} {s : Store}

/-! ### Calls -/

/-- A call for which there is no choice is refused where it is. -/
theorem Index.exists_of_choose_error {x : Index} {receiver : Ty} {info : CallInfo}
    {error : CompileError} (h : x.choose receiver i info = .error error) :
    ∃ cause, error = .atOrigin i.origin cause ∧ cause ≠ .ambiguousType := by
  -- The check of the arguments reports the call.
  have harity : ∀ {given method name}, x.checkArity i given method name = .error error →
      ∃ cause, error = .atOrigin i.origin cause ∧ cause ≠ .ambiguousType := by
    intro given method name h
    unfold checkArity at h
    dsimp only at h
    split at h
    · cases h
    · exact ⟨_, (Except.error.inj h).symm, nofun⟩
  unfold choose at h
  split at h
  · split at h
    · exact harity h
    · exact ⟨_, (Except.error.inj h).symm, nofun⟩
  · split at h <;> cases h
  · split at h
    · exact harity h
    · cases h
  · cases h

/-- The choice of a method reports the call. -/
theorem Index.points_choose (x : Index) {receiver : Ty} {info : CallInfo} (h : P i.origin.pos) :
    PointsOr P (fun _ => True) (x.choose receiver i info) := by
  cases hc : x.choose receiver i info with
  | ok choice => trivial
  | error error =>
    obtain ⟨cause, rfl, -⟩ := exists_of_choose_error hc
    exact CompileError.pointsTo_atOrigin h _

/-- Wiring a call reports the call. -/
theorem Wiring.points_sendDependency {x : Index} {receiverType? : Option Ty} {info : CallInfo}
    {site : CallSite} (h : P i.origin.pos) :
    PointsOr P (fun _ => True) (sendDependency x receiverType? i info site) := by
  unfold sendDependency
  split
  · trivial
  · trivial
  · refine (x.points_choose h).bind fun choice _ => ?_
    cases choice <;> trivial

/-! ### Graphs -/

/-- The wiring reports its errors where the instruction comes from. -/
theorem Wiring.pointsTo_of_learn {x : Array Instruction} {y : Index} {w : Wiring.State}
    {t : Step} {error : CompileError} (h : learn x y w t = .error (.compile error))
    (ht : P t.instruction.origin.pos) : error.PointsTo P := by
  unfold learn at h
  simp only at h
  -- Only four records can be refused by the wiring.
  split at h
  case h_2 =>
    split at h
    · cases h
    · cases h
      exact CompileError.pointsTo_atOrigin ht _
  case h_3 =>
    split at h
    · cases h
    · cases h
      exact CompileError.pointsTo_atOrigin ht _
  case h_4 =>
    rcases error_of_bind_eq_error h with h | ⟨ds, -, h⟩
    · exact absurd h compile_ne_passedArgs
    · cases h
  case h_5 =>
    split at h
    · cases h
    · next hsend =>
      cases h
      exact (points_sendDependency ht).of_error hsend
  all_goals cases h

/-- A graph that cannot be built is refused at an instruction. -/
theorem pointsTo_of_build_error {error : CompileError} (hcode : ComeFrom P code)
    (hr : (trace code).error? = none) (h : Graph.build code = .error (.compile error)) :
    error.PointsTo P := by
  obtain ⟨n, i, e, w, hocc, -, hlearn⟩ := exists_of_build_error hr h
  exact Wiring.pointsTo_of_learn hlearn (hcode i (List.mem_of_getElem? hocc.1))

namespace Graph

theorem originOf_eq (g : Graph) (d : Dependency) : g.originOf d = g.origin (placeOf d) := by
  cases d <;> rfl

namespace Built

variable (b : Built code g)

include b

/-- What the records of a graph come from. -/
theorem pos_origin (hcode : ComeFrom P code) (hn : n < g.records.size) : P (g.origin n).pos := by
  have hi := List.getElem?_eq_getElem (b.size_eq ▸ hn)
  rw [origin, b.record_eq hi]
  exact hcode _ (List.getElem_mem _)

/-- A node of the graph has the place of a token. -/
theorem pos_originOf (hcode : ComeFrom P code) (h : g.Has d) : P (g.originOf d).pos :=
  originOf_eq g d ▸ b.pos_origin hcode h.lt

end Built

end Graph

/-! ### Types -/

namespace Inference

variable {typeOf : Dependency → Finding Ty}

theorem Keeps.and {α : Type} {x : Finding α} {Q R : α → Store → Prop} (h : Keeps g s x Q)
    (h' : Keeps g s x R) : Keeps g s x fun a s' => Q a s' ∧ R a s' :=
  ⟨h.sound, h.grows, fun a ha => ⟨h.post a ha, h'.post a ha⟩⟩

/-- The types that compete come from the dependencies that are asked for. -/
theorem keeps_sources (hfinds : Finds g typeOf) :
    ∀ (ds : List Dependency) (found : List Possible) (s : Store), (∀ d ∈ ds, Owned g d) →
      s.Sound g → Keeps g s (possibleTypes typeOf found ds) fun ps _ =>
        ∀ p ∈ ps, p ∈ found ∨ p.source ∈ ds := by
  intro ds
  induction ds with
  | nil => exact fun found s _ hs => .pure hs fun p hp => .inl hp
  | cons d rest ih =>
    intro found s hown hs
    rw [possibleTypes]
    refine (hfinds d s (hown d (.head _)) hs).bind fun t s₁ hs₁ _ _ => ?_
    have hrest := ih (if found.any fun p => p.type = t then found else found ++ [⟨d, t⟩]) s₁
      (fun d hd => hown d (.tail _ hd)) hs₁
    refine ⟨hrest.sound, hrest.grows, fun ps hps p hp => ?_⟩
    -- A type that is found first has the dependency at hand as its source, and the others have
    -- later ones.
    rcases hrest.post ps hps p hp with hfound | hlater
    · split at hfound
      · exact .inl hfound
      · rcases List.mem_append.mp hfound with hfound | hnew
        · exact .inl hfound
        · obtain rfl := List.mem_singleton.mp hnew
          exact .inr (.head _)
    · exact .inr (.tail _ hlater)

/-- What a search reports: an error at a record that is there, or the types that compete for a
record, which are none only if it depends on nothing. -/
inductive Reported (g : Graph) : CompileError → Prop
  | single {n : Nat} {cause : Cause} (lt : n < g.records.size) (hne : cause ≠ .ambiguousType) :
      Reported g (.atOrigin (g.origin n) cause)
  | types {n : Nat} {ps : List Possible} (lt : n < g.records.size)
      (given : (g.record n).given? = none)
      (sources : ∀ p ∈ ps, p.source ∈ (g.record n).dependencies)
      (depends : ps = [] → (g.record n).dependencies = []) :
      Reported g { CompileError.atOrigin (g.origin n) .ambiguousType with
        candidates := ps.map fun p => ⟨p.type, .ofPos (g.originOf p.source).pos⟩ }

/-- A cycle is reported at one of its nodes. -/
theorem reported_circular (h : g.Has d) : Reported g (circular g d) := by
  rw [circular, originOf_eq]
  exact .single h.lt nofun

/-- A call that is not dispatched is reported where it is, or where its receiver is. -/
theorem reported_dispatch {targets : Table Nat Target} {receiver : Ty} {call start : Nat}
    {error : CompileError} (hcall : call < g.records.size) (hstart : start < g.records.size)
    (h : g.dispatch targets receiver call start = .error error) : Reported g error := by
  rcases error_of_bind_eq_error h with h | ⟨choice, -, h⟩
  · obtain ⟨cause, rfl, hne⟩ := Index.exists_of_choose_error h
    exact .single hcall hne
  -- An object without one class is reported at its receiver, everything else at the call.
  · cases choice with
    | method n => cases h
    | operator => cases h
    | instantiate =>
      rcases error_of_bind_eq_error h with h | ⟨name, -, h⟩
      · unfold className at h
        split at h
        · cases h
        · obtain rfl := Except.error.inj h
          exact .single hstart nofun
      · cases h

section Reported

variable (b : Built code g)

include b

/-- An operator reports itself or its argument. -/
theorem reported_operatorType {site : CallSite} (hfinds : Finds g typeOf)
    (hsite : g.Has (.operator site))
    (hd : ∀ d, g.Has d → ∀ s, s.Sound g → Fails s (typeOf d) (Reported g))
    (hs : s.Sound g) : Fails s (operatorType g typeOf site) (Reported g) := by
  unfold operatorType
  refine (hd _ (b.has_of_dependsOn hsite .operand) s hs).bind (hfinds _ s trivial hs)
    fun t s₁ hs₁ _ => ?_
  dsimp only
  split
  · exact .throw (.single hsite.lt nofun)
  · split
    · next arg hargs =>
      -- The argument is a node of the graph, so its place can be reported.
      have harg := b.has_of_dependsOn hsite (.argument hargs)
      refine (hd _ harg s₁ hs₁).bind (hfinds _ s₁ trivial hs₁) fun u s₂ _ _ => ?_
      split
      · exact .pure _
      · exact .throw (.single harg.lt nofun)
    · exact .throw (.single hsite.lt nofun)

/-- **A search reports errors at records that are there.** -/
theorem reported_resolveWithin :
    ∀ (k : Nat) (path : List PathNode) (d : Dependency) (s : Store), g.Has d → s.Sound g →
      Fails s (resolveWithin g k path d) (Reported g) := by
  have w := b.isWired
  intro k
  induction k with
  | zero =>
    intro path d s hd _
    exact .throw (reported_circular hd)
  | succ k ih =>
    intro path d s hd hs
    cases hk : s.known? d with
    | some t =>
      intro e he
      rw [resolveWithin_known hk] at he
      cases he
    | none =>
      by_cases hp : nodeOf d ∈ path
      · intro e he
        rw [resolveWithin_of_mem hk hp] at he
        obtain rfl := Except.error.inj he
        exact reported_circular hd
      · have hfinds := keeps_resolveWithin w k (nodeOf d :: path)
        have hnext := fun d' s (hd' : g.Has d') hs => ih (nodeOf d :: path) d' s hd' hs
        unfold Fails
        rw [outcome_resolveWithin hk hp]
        change Fails s _ _
        -- The search goes on at what the dependency takes its type from, and all of that is there.
        cases d with
        | record n =>
          have hgiven : (g.record n).given? = none := given_eq_none hs hk
          have hthere : ∀ d ∈ (g.record n).dependencies, g.Has d := fun d hmem =>
            b.has_of_dependsOn hd (.edge hgiven hmem)
          have howned := fun d hd => (hthere d hd).owned
          have hsources := keeps_sources hfinds _ [] s howned hs
          have hfound := keeps_possibleTypes hfinds _ [] s howned hs
          refine (fails_possibleTypes hfinds _ _ s hs fun d' hd' =>
            ⟨howned d' hd', fun s hs => hnext d' s (hthere d' hd') hs⟩).bind
              (hsources.and hfound) fun ps s₁ _ hps => ?_
          obtain ⟨hsources, -, hfound, -⟩ := hps
          split
          · exact fun e he => nomatch he
          · refine .throw (.types hd.lt hgiven
              (fun p hp => (hsources p hp).resolve_left List.not_mem_nil) fun hnil => ?_)
            -- A dependency would have added its type.
            refine List.eq_nil_iff_forall_not_mem.mpr fun d' hd' => ?_
            obtain ⟨-, p, hp, -⟩ := hfound d' hd'
            exact List.not_mem_nil (hnil ▸ hp)
        | operator site =>
          exact reported_operatorType b hfinds hd (fun d' hd' s hs => hnext d' s hd' hs) hs
        | send site =>
          have hreceiver := b.has_of_dependsOn hd .receiver
          refine (fails_target hfinds (fun s hs => hnext _ s hreceiver hs)
            (fun _ _ _ he => reported_dispatch hd.lt hreceiver.lt he) hs).bind
              (keeps_target w hfinds hd.owned hs) fun found s₁ hs₁ hp => ?_
          obtain ⟨hfound, -⟩ := hp
          cases found with
          | object name => exact .pure _
          | method n => exact hnext _ s₁ (b.has_of_dependsOn hd (.method hfound)) hs₁
          | operator site' =>
            exact hnext _ s₁ (b.has_of_dependsOn hd (.primitive hfound)) hs₁

/-- What is reported is reported at instructions, with all the types that compete. -/
theorem Reported.pointsTo (hcode : ComeFrom P code) {error : CompileError}
    (h : Reported g error) : error.PointsTo P := by
  cases h with
  | single lt _ => exact CompileError.pointsTo_atOrigin (b.pos_origin hcode lt) _
  | @types n ps lt given sources _ =>
    refine CompileError.pointsTo_atOrigin_with (b.pos_origin hcode lt) _ fun c hc => ?_
    obtain ⟨p, hp, rfl⟩ := List.mem_map.mp hc
    have hsource := b.has_of_dependsOn (has_record lt) (.edge given (sources p hp))
    exact ⟨_, b.pos_originOf hcode hsource, rfl⟩

end Reported

end Inference

/-- What keeps the records of a graph from being typed is reported by a search. -/
theorem reported_of_infer_error {error : CompileError} (hg : Graph.build code = .ok g)
    (h : infer code = .error (.compile error)) : Reported g error := by
  have b := Graph.built_of_build hg
  obtain ⟨n, hn, s, hs, he⟩ := exists_of_infer_error hg h
  exact reported_resolveWithin b _ _ _ s (Graph.has_record hn) (hs.sound b.isWired) _ he

/-- **Code that is not typed is refused at its instructions.** -/
theorem pointsTo_of_infer_error {error : CompileError} (hr : (trace code).error? = none)
    (hcode : ComeFrom P code) (h : infer code = .error (.compile error)) : error.PointsTo P := by
  cases hg : Graph.build code with
  | error e =>
    rw [infer, hg] at h
    obtain rfl := Except.error.inj h
    exact pointsTo_of_build_error hcode hr hg
  | ok g =>
    have b := Graph.built_of_build hg
    exact (reported_of_infer_error hg h).pointsTo b hcode

end Rubylet
