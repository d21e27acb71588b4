import Mathlib.Data.List.Forall2
import Rubylet.Proofs.Graph.Edges
import Rubylet.Proofs.Replay.Prescribed

/-!
# Wirings that stop

`Graph.Built` is about wirings that go through. A wiring may also refuse an instruction on its way:
`Wired code n w` says that it takes the instructions before a point, and leads to `w` there.

`namesAt` says from the instructions alone which names are bound in the open frames at a point. A
wiring that gets there has bound just these (`Wired.contains_iff`). So what it needs for the reads of
locals can be told beforehand: it refuses one as undefined only where the name is not among them
(`exists_of_undefinedLocal`).
-/

namespace Rubylet

open Replay

variable {code : List Instruction} {n : Nat} {i : Instruction} {e : Event} {w w' : Wiring.State}

namespace Replay

section Fold

variable {σ ε : Type} {f : σ → Step → Except ε σ}

theorem fold_append (ts : List Step) {t : Step} : ∀ {s : σ}, fold f s (ts ++ [t]) =
    match fold f s ts with
    | (s', none) => match f s' t with
      | .ok s'' => (s'', none)
      | .error e => (s', some e)
    | (s', some e) => (s', some e) := by
  -- On the steps before: the fold stops for good at the first error.
  induction ts with
  | nil =>
    intro s
    rw [List.nil_append, fold, fold]
    cases h : f s t <;> simp only [h, fold]
  | cons u ts ih =>
    intro s
    rw [List.cons_append, fold, fold]
    cases f s u with
    | error e => rfl
    | ok s' => exact ih

/-- A fold stops at a step that it refuses. -/
theorem exists_of_fold_error {ts : List Step} {s s' : σ} {e : ε} (h : fold f s ts = (s', some e)) :
    ∃ n t, ts[n]? = some t ∧ fold f s (ts.take n) = (s', none) ∧ f s' t = .error e := by
  induction ts generalizing s with
  | nil => cases h
  | cons t ts ih =>
    rw [fold] at h
    -- The fold fails at this step, or at one of the steps behind it.
    cases ht : f s t with
    | error e' =>
      rw [ht] at h
      cases h
      exact ⟨0, t, rfl, rfl, ht⟩
    | ok s₁ =>
      rw [ht] at h
      obtain ⟨n, u, hu, hfold, herror⟩ := ih h
      exact ⟨n + 1, u, hu, by rw [List.take_succ_cons, fold, ht]; exact hfold, herror⟩

end Fold

/-- The names that are bound in the frames that are open at a point, the innermost first. -/
def namesAt (code : List Instruction) : Nat → List (List String)
  | 0 => [[]]
  | n + 1 =>
    match code[n]?.map Instruction.op with
    | some (.setVar name) => (name :: (namesAt code n).headD []) :: (namesAt code n).tail
    | some (.defStart _) | some (.classStart _) => [] :: namesAt code n
    | some (.defEnd _) | some (.classEnd _) => (namesAt code n).tail
    | _ => namesAt code n

/-- What a record does to the names that are bound: an assignment binds one, a frame opens or
closes. -/
theorem namesAt_succ (hi : code[n]? = some i) :
    namesAt code (n + 1) =
      match i.op with
      | .setVar name => (name :: (namesAt code n).headD []) :: (namesAt code n).tail
      | .defStart _ | .classStart _ => [] :: namesAt code n
      | .defEnd _ | .classEnd _ => (namesAt code n).tail
      | _ => namesAt code n := by
  rw [namesAt, hi, Option.map_some]
  cases i.op <;> rfl

end Replay

/-- The wiring takes the instructions before a point, and leads to a state there. -/
structure Wired (code : List Instruction) (n : Nat) (w : Wiring.State) : Prop where
  replayed : (trace code).error? = none
  le : n ≤ code.length
  wired : fold (Wiring.learn code.toArray (.ofTrace (trace code))) .initial
    ((trace code).steps.take n) = (w, none)

/-- A wiring that takes an instruction has taken those before it. -/
theorem Wired.exists_of_succ (h : Wired code (n + 1) w') : ∃ i e w, Wired code n w ∧
    Occurs code n i e ∧ Wiring.learn code.toArray (.ofTrace (trace code)) w
      ⟨n, i, e, stateAt code (n + 1)⟩ = .ok w' := by
  obtain ⟨e, hocc, hstep⟩ :=
    exists_occurs h.replayed (List.getElem?_eq_getElem (Nat.lt_of_succ_le h.le))
  have hfold := h.wired
  -- Split off the last step: the fold before it has gone through, and so has the step.
  rw [List.take_add_one, hstep, Option.toList_some, fold_append] at hfold
  split at hfold
  · next w hw =>
    split at hfold
    · next hlearn =>
      cases hfold
      exact ⟨_, e, w, ⟨h.replayed, Nat.le_of_succ_le h.le, hw⟩, hocc, hlearn⟩
    · cases hfold
  · cases hfold

/-- A table binds some names, and no others. -/
def Binds (names : List String) (table : Table String Nat) : Prop :=
  ∀ name, table.contains name ↔ name ∈ names

theorem Binds.empty : Binds [] .empty := fun _ => ⟨nofun, nofun⟩

theorem Binds.set {names : List String} {table : Table String Nat} (h : Binds names table)
    (name : String) (n : Nat) : Binds (name :: names) (table.set name n) := by
  intro other
  rw [Table.contains, Table.get?_set, List.mem_cons]
  split
  · next heq => exact ⟨fun _ => .inl heq.symm, fun _ => rfl⟩
  · next hne => exact (h other).trans ⟨.inr, fun hmem => hmem.resolve_left (Ne.symm hne)⟩

theorem Binds.known {names : List String} {table : Table String Nat} {name : String}
    (h : Binds names table) (hname : table.contains name) : Binds (name :: names) table := by
  intro other
  rw [List.mem_cons, h other]
  exact ⟨.inr, fun hmem => hmem.elim (fun heq => heq ▸ (h name).mp hname) id⟩

/-- Tables that bind the same names bind the same ones in the innermost frame. -/
theorem Binds.headD {names : List (List String)} {tables : List (Table String Nat)}
    (h : List.Forall₂ Binds names tables) : Binds (names.headD []) (tables.headD .empty) := by
  cases h with
  | nil => exact .empty
  | cons h _ => exact h

theorem forall₂_tail {names : List (List String)} {tables : List (Table String Nat)}
    (h : List.Forall₂ Binds names tables) : List.Forall₂ Binds names.tail tables.tail := by
  cases h with
  | nil => exact .nil
  | cons _ h => exact h

/-- **A wiring binds the names that are bound at the point** it gets to, frame by frame. -/
theorem Wired.binds (h : Wired code n w) : List.Forall₂ Binds (namesAt code n) w.scopes := by
  induction n generalizing w with
  | zero =>
    obtain ⟨rfl, -⟩ := Prod.mk.inj h.wired
    exact .cons .empty .nil
  | succ n ih =>
    obtain ⟨i, e, w, hw, hocc, hlearn⟩ := h.exists_of_succ
    have hbefore := ih hw
    rw [namesAt_succ hocc.1, Wiring.scopes_of_learn hocc hlearn]
    cases i.op with
    | setVar name =>
      have hhead : Binds ((namesAt code n).headD []) w.scope := Binds.headD hbefore
      simp only
      -- A name that is bound already is not bound again, but it is among the names in either case.
      split
      · next hname =>
        cases hs : w.scopes with
        | nil =>
          rw [Wiring.State.scope, hs] at hname
          cases hname
        | cons t ts =>
          rw [Wiring.State.scope, hs] at hhead hname
          rw [hs] at hbefore
          exact .cons (hhead.known hname) (forall₂_tail hbefore)
      · exact .cons (hhead.set name n) (forall₂_tail hbefore)
    | defStart name | classStart name => exact .cons .empty hbefore
    | defEnd name | classEnd name => exact forall₂_tail hbefore
    | _ => exact hbefore

/-- A name is bound in the current frame of a wiring if it is bound in the innermost frame. -/
theorem Wired.contains_iff {name : String} (h : Wired code n w) :
    w.scope.contains name ↔ name ∈ (namesAt code n).headD [] :=
  Binds.headD h.binds name

/-! ### Graphs that cannot be built -/

/-- Wiring refuses a call because there is no such method, or because of the number of arguments. -/
theorem cause_of_sendDependency {x : Index} {receiverType? : Option Ty} {info : CallInfo}
    {site : CallSite} {e : CompileError}
    (h : Wiring.sendDependency x receiverType? i info site = .error e) :
    (∃ name, e.cause = .undefinedMethod name) ∨
      ∃ name given expected, e.cause = .wrongArgumentCount name given expected := by
  unfold Wiring.sendDependency at h
  split at h
  · cases h
  · cases h
  · next type _ =>
    -- Only the choice of the method can fail here.
    cases hc : x.choose type i info with
    | error e' =>
      rw [hc] at h
      cases h
      exact Index.cause_of_choose hc
    | ok choice =>
      rw [hc] at h
      cases choice <;> cases h

/-- Arguments can be missing, but that is no compile error. -/
theorem compile_ne_passedArgs {x : Index} {index : Int} {calls : List Nat} {error : CompileError} :
    Wiring.passedArgs x index calls ≠ .error (.compile error) := by
  induction calls with
  | nil => exact nofun
  | cons call rest ih =>
    intro h
    rw [Wiring.passedArgs] at h
    -- What may fail is an argument that is missing from its list, which is no compile error.
    split at h
    · split at h
      · rcases error_of_bind_eq_error h with h | ⟨_, -, h⟩
        · exact ih h
        · cases h
      · cases h
    · exact ih h

/-- What the wiring refuses: the read of a local that is not bound, an unknown class, or a call. -/
theorem cause_of_learn {a : Array Instruction} {x : Index} {t : Step} {error : CompileError}
    (h : Wiring.learn a x w t = .error (.compile error)) :
    (∃ name, error.cause = .undefinedLocal name ∧ t.instruction.op = .pushVar name ∧
        ¬ w.scope.contains name) ∨
      (∃ name, error.cause = .uninitializedConstant name) ∨
      (∃ name, error.cause = .undefinedMethod name) ∨
      ∃ name given expected, error.cause = .wrongArgumentCount name given expected := by
  unfold Wiring.learn at h
  simp only at h
  split at h
  -- A read, the name of a class or a call is refused; a parameter only for a missing argument.
  case h_2 hop _ =>
    split at h
    · cases h
    · next hnone =>
      cases h
      exact .inl ⟨_, rfl, hop, by simp [Table.contains, hnone]⟩
  case h_3 =>
    split at h
    · cases h
    · cases h
      exact .inr (.inl ⟨_, rfl⟩)
  case h_4 =>
    rcases error_of_bind_eq_error h with h | ⟨ds, -, h⟩
    · exact absurd h compile_ne_passedArgs
    · cases h
  case h_5 =>
    split at h
    · cases h
    · next hsend =>
      cases h
      exact .inr (.inr (cause_of_sendDependency hsend))
  all_goals cases h

/-- A graph that cannot be built has an instruction that the wiring refuses. -/
theorem exists_of_build_error {error : CompileError} (hr : (trace code).error? = none)
    (h : Graph.build code = .error (.compile error)) :
    ∃ n i e w, Occurs code n i e ∧ Wired code n w ∧
      Wiring.learn code.toArray (.ofTrace (trace code)) w ⟨n, i, e, stateAt code (n + 1)⟩ =
        .error (.compile error) := by
  unfold Graph.build at h
  simp only [hr] at h
  split at h
  · next w error' hfold =>
    cases h
    obtain ⟨n, t, ht, hw, hlearn⟩ := exists_of_fold_error hfold
    have hlen : (trace code).steps.length = code.length := length_steps _ _ _ hr
    have hlt : n < code.length := hlen ▸ (List.getElem?_eq_some_iff.mp ht).1
    -- The step at which the fold fails is the event of the instruction there.
    obtain ⟨e, hocc, hstep⟩ := exists_occurs hr (List.getElem?_eq_getElem hlt)
    obtain rfl := Option.some.inj (ht.symm.trans hstep)
    exact ⟨n, _, e, w, hocc, ⟨hr, Nat.le_of_lt hlt, hw⟩, hlearn⟩
  · cases h

/-- **A graph that cannot be built for an undefined local** reads a name that is not bound. -/
theorem exists_of_undefinedLocal {error : CompileError} {name : String}
    (hr : (trace code).error? = none) (h : Graph.build code = .error (.compile error))
    (hcause : error.cause = .undefinedLocal name) :
    ∃ n i, code[n]? = some i ∧ i.op = .pushVar name ∧ name ∉ (namesAt code n).headD [] := by
  obtain ⟨n, i, e, w, hocc, hw, hlearn⟩ := exists_of_build_error hr h
  rcases cause_of_learn hlearn with ⟨_, h, hop, hnot⟩ | ⟨_, h⟩ | ⟨_, h⟩ | ⟨_, _, _, h⟩ <;>
    cases hcause.symm.trans h
  exact ⟨n, i, hocc.1, hop, fun hmem => hnot (hw.contains_iff.mpr hmem)⟩

/-- No graph that cannot be built is refused for a cycle. -/
theorem cause_of_build {error : CompileError} (hr : (trace code).error? = none)
    (h : Graph.build code = .error (.compile error)) : error.cause ≠ .circularType := by
  obtain ⟨n, i, e, w, hocc, hw, hlearn⟩ := exists_of_build_error hr h
  rcases cause_of_learn hlearn with ⟨_, h, -⟩ | ⟨_, h⟩ | ⟨_, h⟩ | ⟨_, _, _, h⟩ <;> rw [h] <;>
    exact nofun

end Rubylet
