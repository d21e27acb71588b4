import Mathlib.Logic.Function.Iterate
import Rubylet.Proofs.Graph.Passed
import Rubylet.Proofs.Typing.Closed

/-!
# The search for types, one step after the other

`Inference.resolveWithin` is a recursion that is given a number of steps. Here the same search is a
machine that is given none (`Search.step`). Its state holds the nodes that have been entered and not
left, each with what it waits for; a graph may have cycles, and a call that is dispatched on the way
may make an operator node that was not there before.

What a state of the machine keeps is told by `Search.Fits`. No node is entered twice; every node
that is entered is one of `Graph.nodes`, a node for each record and two for each record that sends;
and a call that waits to be dispatched has no target, so no call is dispatched twice and none has
two operator nodes. One step keeps it (`Search.Fits.step`), hence every state of a run has it.

The machine comes to the answer of the recursion (`leads_resolveWithin`): with every node that is
entered there are fewer left to enter.

* `resolution_ends`: both, for every graph that is built and every record, whatever was asked
  before.
-/

namespace Rubylet

open Rubylet.Graph

variable {code : List Instruction} {g : Graph} {n : Nat} {d : Dependency} {s s' : Store} {t : Ty}
  {site : CallSite}

namespace Graph

/-! ### The nodes of a graph -/

/-- The records that send a message. -/
def sends (g : Graph) : List Nat :=
  (List.range g.records.size).filter fun n => (g.record n).instruction.op.isSend

/-- All nodes that a search may enter: the records, and a call and an operator for each record that
sends. -/
def nodes (g : Graph) : List Inference.PathNode :=
  (List.range g.records.size).map .record ++ (g.sends.map .operator ++ g.sends.map .send)

/-- The nodes are the records, and two for each call. -/
theorem length_nodes (g : Graph) : g.nodes.length = g.records.size + 2 * g.sends.length := by
  simp only [nodes, List.length_append, List.length_map, List.length_range]
  omega

/-- There are no more calls than records. -/
theorem length_sends_le (g : Graph) : g.sends.length ≤ g.records.size :=
  (List.length_filter_le _ _).trans_eq List.length_range

/-- The site of a call is a call of the graph. -/
theorem Built.mem_sends (b : Built code g) (h : g.IsSite site.call site) : site.call ∈ g.sends := by
  obtain ⟨i, name, count, hocc, ho⟩ := b.exists_send h
  rw [sends, List.mem_filter, List.mem_range, b.record_eq hocc.1, ho]
  exact ⟨b.lt_of_getElem? hocc.1, rfl⟩

/-- **What a graph has is one of its nodes.** -/
theorem Built.nodeOf_mem (b : Built code g) (h : g.Has d) : Inference.nodeOf d ∈ g.nodes := by
  rw [nodes, List.mem_append, List.mem_append]
  cases d with
  | record n => exact .inl (List.mem_map_of_mem (List.mem_range.mpr h.lt))
  | operator site => exact .inr (.inl (List.mem_map_of_mem (b.mem_sends h.owned)))
  | send site => exact .inr (.inr (List.mem_map_of_mem (b.mem_sends (.inl h.owned))))

end Graph

namespace Inference

/-! ### The machine -/

/-- What a node that has been entered waits for. -/
inductive Wait where
  /-- A record, for the type of a dependency. It has seen some types, and others are to come. -/
  | dependency (n : Nat) (found : List Possible) (d : Dependency) (rest : List Dependency)
  /-- An operator, for the type of its receiver. -/
  | receiver (site : CallSite)
  /-- An operator, for the type of its argument. -/
  | argument (site : CallSite) (receiver : Ty) (operator : Operator) (arg : Nat)
  /-- A call, for the type of its receiver, to be dispatched by it. -/
  | dispatch (site : CallSite)
  /-- A call, for the type of its target. -/
  | target (site : CallSite)
  deriving Repr, DecidableEq, Inhabited

/-- The node that waits. -/
def Wait.node : Wait → PathNode
  | dependency n .. => .record n
  | receiver site | argument site .. => .operator site.call
  | dispatch site | target site => .send site.call

/-- What a node that has been entered does: it asks for a type and waits, or it has its own. -/
inductive Turn where
  | wait (w : Wait) (asked : Dependency)
  | done (type : Ty)
  deriving Repr, DecidableEq, Inhabited

/-- The type of a record that has seen the types of all its dependencies. -/
def conclude (g : Graph) (n : Nat) : List Possible → Finding Ty
  | [possible] => do
    modify (·.setType n possible.type)
    return possible.type
  | possibles =>
    throw
      { CompileError.atOrigin (g.origin n) .ambiguousType with
        candidates := possibles.map fun p => ⟨p.type, .ofPos (g.originOf p.source).pos⟩ }

/-- A record that has seen some types goes on with other dependencies. -/
def collect (g : Graph) (n : Nat) (found : List Possible) : List Dependency → Finding Turn
  | d :: rest => return .wait (.dependency n found d rest) d
  | [] => return .done (← conclude g n found)

/-- A call that has a target goes on with it. -/
def follow (site : CallSite) : Target → Turn
  | .object className => .done (.object className)
  | .method n => .wait (.target site) (.record n)
  | .operator site' => .wait (.target site) (.operator site')

/-- What a node does when it is entered. -/
def enter (g : Graph) : Dependency → Finding Turn
  | .record n => collect g n [] (g.record n).dependencies
  | .operator site => return .wait (.receiver site) (.record site.receiver)
  | .send site => do
    match (← get).targets.get? site.call with
    | some found => return follow site found
    | none => return .wait (.dispatch site) (.record site.receiver)

/-- What a node does when it is told the type that it waits for. -/
def resume (g : Graph) (t : Ty) : Wait → Finding Turn
  | .dependency n found d rest =>
    collect g n (if found.any fun p => p.type = t then found else found ++ [⟨d, t⟩]) rest
  | .receiver site =>
    let i := (g.record site.call).instruction
    match i.op.name?.bind (Operator.find? t) with
    | none => throw (.atOrigin i.origin (.undefinedOperation i.operandText t))
    | some operator =>
      match site.args with
      | [arg] => return .wait (.argument site t operator arg) (.record arg)
      | args => throw (.atOrigin i.origin (.wrongArgumentCount i.operandText args.length 1))
  | .argument site receiver operator arg =>
    if t = operator.argType then return .done operator.resultType
    else
      throw (.atOrigin (g.origin arg) (.mismatchedArgument receiver
        (g.record site.call).instruction.operandText operator.argType t))
  | .dispatch site => do
    let found ← g.dispatch (← get).targets t site.call site.receiver
    modify (·.setTarget site.call found)
    return follow site found
  | .target _ => return .done t

/-- What a search does next. -/
inductive Phase where
  /-- It is asked for a type. -/
  | ask (d : Dependency)
  /-- It has just entered a node. -/
  | entered (d : Dependency)
  /-- It answers the innermost node that waits. -/
  | answer (r : Except CompileError Ty)

/-- A search under way. The nodes that wait are listed with the innermost first. -/
structure Search where
  store : Store
  waits : List Wait
  phase : Phase

namespace Search

/-- The nodes that have been entered and not left, the innermost first. -/
def path (q : Search) : List PathNode :=
  match q.phase with
  | .entered d => nodeOf d :: q.waits.map Wait.node
  | _ => q.waits.map Wait.node

/-- A search for the type of a dependency, at its beginning. -/
def start (s : Store) (d : Dependency) : Search := ⟨s, [], .ask d⟩

/-- Some nodes wait, and what was asked for last is answered. -/
def answered (waits : List Wait) (r : Except CompileError Ty × Store) : Search :=
  ⟨r.2, waits, .answer r.1⟩

/-- The innermost node takes its turn. It is left when it has its type or fails. -/
def turn (s : Store) (waits : List Wait) (x : Finding Turn) : Search :=
  match outcome x s with
  | (.error e, s) => ⟨s, waits, .answer (.error e)⟩
  | (.ok (.done t), s) => ⟨s, waits, .answer (.ok t)⟩
  | (.ok (.wait w d), s) => ⟨s, w :: waits, .ask d⟩

/-- One step. A search that has answered and has no node waiting has come to its end. -/
def step (g : Graph) (q : Search) : Search :=
  match q.phase with
  | .ask d =>
    match q.store.known? d with
    | some t => { q with phase := .answer (.ok t) }
    | none =>
      if nodeOf d ∈ q.path then { q with phase := .answer (.error (circular g d)) }
      else { q with phase := .entered d }
  | .entered d => turn q.store q.waits (enter g d)
  | .answer r =>
    match q.waits with
    | [] => q
    | w :: waits =>
      match r with
      | .error e => ⟨q.store, waits, .answer (.error e)⟩
      | .ok t => turn q.store waits (resume g t w)

end Search

/-! ### What is found when it is a node's turn -/

variable {waits : List Wait} {w : Wait} {node : PathNode} {x y : Finding Turn} {q q' : Search}

theorem turn_congr (h : outcome x s = outcome y s') :
    Search.turn s waits x = .turn s' waits y := by
  unfold Search.turn
  rw [h]

/-- A search that is done hands its answer to what waits for it. -/
theorem turn_done (x : Finding Ty) (s : Store) (waits : List Wait) :
    Search.turn s waits (do return .done (← x)) = .answered waits (outcome x s) := by
  unfold Search.turn
  rcases hr : outcome x s with ⟨e | t, s'⟩
  · rw [outcome_bind_error hr]
    rfl
  · rw [outcome_bind_ok hr]
    rfl

/-- A call that is entered goes on with its target, if it has one already. -/
theorem outcome_enter_send (site : CallSite) (s : Store) :
    outcome (enter g (.send site)) s =
      match s.targets.get? site.call with
      | some found => outcome (pure (follow site found)) s
      | none => outcome (pure (.wait (.dispatch site) (.record site.receiver))) s := by
  rw [enter, outcome_get_bind]
  cases s.targets.get? site.call <;> rfl

/-- A call that knows the type of its receiver is dispatched, and goes on with its target. -/
theorem outcome_resume_dispatch (t : Ty) (site : CallSite) (s : Store) :
    outcome (resume g t (.dispatch site)) s =
      match g.dispatch s.targets t site.call site.receiver with
      | .error e => outcome (throw e) s
      | .ok found => outcome (pure (follow site found)) (s.setTarget site.call found) := by
  change outcome
    ((liftM (g.dispatch s.targets t site.call site.receiver) : Finding Target) >>= _) s = _
  cases g.dispatch s.targets t site.call site.receiver <;> rfl

/-! ### What a step keeps -/

/-- A node that waits is one of the graph, and will ask for nothing else. -/
def Wait.Fits (g : Graph) : Wait → Prop
  | .dependency n _ _ rest => g.Has (.record n) ∧ ∀ d ∈ rest, g.Has d
  | .receiver site | .argument site .. => g.Has (.operator site)
  | .dispatch site | .target site => g.Has (.send site)

/-- What a record or a call that waits is to find has not been found by another one. -/
def Wait.Open (s : Store) : Wait → Prop
  | .dependency n .. => s.type? n = none
  | .dispatch site => s.targets.get? site.call = none
  | _ => True

variable (g) in
/-- The nodes that wait fit together, and fit what has been found out. -/
structure Stacked (s : Store) (waits : List Wait) : Prop where
  nodup : (waits.map Wait.node).Nodup
  fits : ∀ w ∈ waits, w.Fits g
  still : ∀ w ∈ waits, w.Open s
  taken : ∀ {site found}, .send site ∈ (g.record site.call).dependencies →
    s.targets.get? site.call = some found → g.HasTaken found

variable (g) in
/-- What is asked for is there, and what has just been entered was neither known nor entered. -/
def Phase.Fits (s : Store) (waits : List Wait) : Phase → Prop
  | .ask d => g.Has d
  | .entered d => g.Has d ∧ s.known? d = none ∧ nodeOf d ∉ waits.map Wait.node
  | .answer _ => True

variable (g) in
/-- The invariant of a search. -/
structure Search.Fits (q : Search) : Prop where
  stacked : Stacked g q.store q.waits
  phase : q.phase.Fits g q.store q.waits

namespace Stacked

/-- What is put on top has to be new, to fit the graph and to be without an answer. -/
theorem push (h : Stacked g s waits) (hnode : w.node ∉ waits.map Wait.node) (hw : w.Fits g)
    (hopen : w.Open s) : Stacked g s (w :: waits) where
  nodup := List.nodup_cons.mpr ⟨hnode, h.nodup⟩
  fits := List.forall_mem_cons.mpr ⟨hw, h.fits⟩
  still := List.forall_mem_cons.mpr ⟨hopen, h.still⟩
  taken := h.taken

/-- What waits below fits as before. -/
theorem pop (h : Stacked g s (w :: waits)) : Stacked g s waits where
  nodup := h.nodup.of_cons
  fits := fun w hw => h.fits w (.tail _ hw)
  still := fun w hw => h.still w (.tail _ hw)
  taken := h.taken

/-- No node waits twice. -/
theorem node_notMem (h : Stacked g s (w :: waits)) : w.node ∉ waits.map Wait.node :=
  (List.nodup_cons.mp h.nodup).1

/-- A type is written down for a record that is not waiting any more. -/
theorem setType (h : Stacked g s waits) (hnode : .record n ∉ waits.map Wait.node)
    (hnone : s.type? n = none) (t : Ty) :
    Stacked g (s.setType n t) waits ∧ s.Grows (s.setType n t) := by
  -- The types of the other records stay.
  have hother : ∀ {m}, m ≠ n → (s.setType n t).type? m = s.type? m := by
    intro m hm
    rw [Store.type?, Store.setType, Array.getElem?_setIfInBounds_ne hm.symm]
    rfl
  refine ⟨⟨h.nodup, h.fits, fun w hw => ?_, h.taken⟩, fun {m u} hm => ?_, id⟩
  · have hopen := h.still w hw
    -- A record that waits for its own type is not the one that is set.
    cases w with
    | dependency m =>
      have hm : m ≠ n := fun heq => hnode (heq ▸ List.mem_map_of_mem (f := Wait.node) hw)
      exact (hother hm).trans hopen
    | _ => exact hopen
  · have hne : m ≠ n := by
      rintro rfl
      rw [hnone] at hm
      cases hm
    rw [hother hne, hm]

/-- A target is written down for a call that is not waiting any more. -/
theorem setTarget (h : Stacked g s waits) (hnode : .send site.call ∉ waits.map Wait.node)
    (hnone : s.targets.get? site.call = none) {found : Target} (hfound : g.HasTaken found) :
    Stacked g (s.setTarget site.call found) waits ∧ s.Grows (s.setTarget site.call found) := by
  -- The targets of the other calls stay.
  have hother : ∀ {call}, call ≠ site.call →
      (s.setTarget site.call found).targets.get? call = s.targets.get? call := by
    intro call hcall
    rw [Store.setTarget, Table.get?_set, if_neg hcall.symm]
  refine ⟨⟨h.nodup, h.fits, fun w hw => ?_, fun {site' other} hmem hget => ?_⟩,
    id, fun {call other} hget => ?_⟩
  · have hopen := h.still w hw
    -- A call that waits for its dispatch is not the one that is set.
    cases w with
    | dispatch site' =>
      have hcall : site'.call ≠ site.call := fun heq =>
        hnode (heq ▸ List.mem_map_of_mem (f := Wait.node) hw)
      exact (hother hcall).trans hopen
    | _ => exact hopen
  · by_cases heq : site'.call = site.call
    · rw [Store.setTarget, Table.get?_set, if_pos heq.symm] at hget
      exact Option.some.inj hget ▸ hfound
    · exact h.taken hmem (hother heq ▸ hget)
  · have hne : call ≠ site.call := by
      rintro rfl
      rw [hnone] at hget
      cases hget
    rw [hother hne, hget]

end Stacked

variable (g) in
/-- What a turn of a node does to the nodes that wait, and to what is written down. -/
structure Turned (s : Store) (waits : List Wait) (node : PathNode) (x : Finding Turn) : Prop where
  stacked : Stacked g (outcome x s).2 waits
  grows : s.Grows (outcome x s).2
  wait : ∀ w d, (outcome x s).1 = .ok (.wait w d) →
    w.node = node ∧ w.Fits g ∧ w.Open (outcome x s).2 ∧ g.Has d

/-- A turn depends on the outcome of its search, and on no more of the store than has been found. -/
theorem Turned.congr (h : Turned g s' waits node y) (hgrow : s.Grows s')
    (heq : outcome x s = outcome y s') : Turned g s waits node x :=
  ⟨heq ▸ h.stacked, heq ▸ hgrow.trans h.grows, heq ▸ h.wait⟩

/-- A turn at a node that does not wait leads to a search that fits. -/
theorem Turned.fits (h : Turned g s waits node x) (hnode : node ∉ waits.map Wait.node) :
    (Search.turn s waits x).Fits g ∧ s.Grows (Search.turn s waits x).store := by
  obtain ⟨hstacked, hgrow, hwait⟩ := h
  -- Whether it has its type or fails, the node is left; it stays only if it waits.
  unfold Search.turn
  rcases hr : outcome x s with ⟨e | ⟨w, d⟩ | t, s'⟩ <;> rw [hr] at hstacked hgrow hwait
  · exact ⟨⟨hstacked, trivial⟩, hgrow⟩
  · obtain ⟨rfl, hw, hopen, hd⟩ := hwait w d rfl
    exact ⟨⟨hstacked.push hnode hw hopen, hd⟩, hgrow⟩
  · exact ⟨⟨hstacked, trivial⟩, hgrow⟩

/-- A node that does nothing but wait. -/
theorem turned_wait (h : Stacked g s waits) (hw : w.Fits g) (hopen : w.Open s) (hd : g.Has d) :
    Turned g s waits w.node (pure (.wait w d)) := by
  refine ⟨h, .refl s, fun w' d' heq => ?_⟩
  obtain ⟨rfl, rfl⟩ := Turn.wait.inj (Except.ok.inj heq)
  exact ⟨rfl, hw, hopen, hd⟩

theorem turned_done (h : Stacked g s waits) : Turned g s waits node (pure (.done t)) :=
  ⟨h, .refl s, fun _ _ heq => nomatch heq⟩

theorem turned_throw (h : Stacked g s waits) (e : CompileError) :
    Turned g s waits node (throw e) := ⟨h, .refl s, fun _ _ heq => nomatch heq⟩

/-- To collect types is to ask for each dependency, and to set the type in the end. -/
theorem turned_collect {found : List Possible} {ds : List Dependency} (h : Stacked g s waits)
    (hnode : .record n ∉ waits.map Wait.node) (hn : g.Has (.record n)) (hnone : s.type? n = none)
    (hds : ∀ d ∈ ds, g.Has d) : Turned g s waits (.record n) (collect g n found ds) := by
  cases ds with
  | cons d rest =>
    obtain ⟨hd, hrest⟩ := List.forall_mem_cons.mp hds
    exact turned_wait (w := .dependency n found d rest) h ⟨hn, hrest⟩ hnone hd
  | nil =>
    -- Only one type can be written down. The record is not waiting then, so no other one is hit.
    rcases found with _ | ⟨p, _ | ⟨p', rest⟩⟩
    · exact turned_throw h _
    · obtain ⟨hstacked, hgrow⟩ := h.setType hnode hnone p.type
      exact ⟨hstacked, hgrow, fun _ _ heq => nomatch heq⟩
    · exact turned_throw h _

/-- A target is followed into what it is. -/
theorem turned_follow {found : Target} (h : Stacked g s waits) (hsite : g.Has (.send site))
    (hfound : g.HasTaken found) :
    Turned g s waits (.send site.call) (pure (follow site found)) := by
  cases found with
  | object name => exact turned_done h
  | method n => exact turned_wait (w := .target site) h hsite trivial hfound
  | operator site' => exact turned_wait (w := .target site) h hsite trivial hfound

/-- Entering a node leaves a search that fits. -/
theorem turned_enter (b : Built code g) (h : Stacked g s waits) (hd : g.Has d)
    (hknown : s.known? d = none) (hnode : nodeOf d ∉ waits.map Wait.node) :
    Turned g s waits (nodeOf d) (enter g d) := by
  -- By node: a record collects its dependencies, an operator asks for its receiver, a call for its
  -- target.
  cases d with
  | record n => exact turned_collect h hnode hd hknown fun d hmem => b.has_of_mem hmem
  | operator site =>
    exact turned_wait (w := .receiver site) h hd trivial (b.has_operand hd.owned (.head _))
  | send site =>
    have henter := outcome_enter_send (g := g) site s
    -- A call that has been dispatched is followed at once.
    cases hget : s.targets.get? site.call with
    | some found =>
      rw [hget] at henter
      exact (turned_follow h hd (h.taken hd.owned hget)).congr (.refl s) henter
    | none =>
      rw [hget] at henter
      have hreceiver := b.has_operand (.inl hd.owned) (.head _)
      exact (turned_wait (w := .dispatch site) h hd hget hreceiver).congr (.refl s) henter

/-- So does resuming one with an answer. -/
theorem turned_resume (b : Built code g) (h : Stacked g s (w :: waits)) (t : Ty) :
    Turned g s waits w.node (resume g t w) := by
  have hw := h.fits w (.head _)
  have hopen := h.still w (.head _)
  cases w with
  | dependency n found d rest => exact turned_collect h.pop h.node_notMem hw.1 hopen hw.2
  | receiver site =>
    unfold resume
    dsimp only
    split
    · exact turned_throw h.pop _
    · split
      · next operator _ _ arg hargs =>
        have hmem : arg ∈ site.receiver :: site.args := by
          rw [hargs]
          exact .tail _ (.head _)
        exact turned_wait (w := .argument site t operator arg) h.pop hw trivial
          (b.has_operand hw.owned hmem)
      · exact turned_throw h.pop _
  | argument site receiver operator arg =>
    rw [resume]
    split
    · exact turned_done h.pop
    · exact turned_throw h.pop _
  | dispatch site =>
    -- The call waits no longer when it is given its target.
    have hresume := outcome_resume_dispatch (g := g) t site s
    cases hd : g.dispatch s.targets t site.call site.receiver with
    | error e =>
      rw [hd] at hresume
      exact (turned_throw h.pop e).congr (.refl s) hresume
    | ok found =>
      rw [hd] at hresume
      have hfound := b.has_of_dispatch hw.owned hd
      obtain ⟨hstacked, hgrow⟩ := h.pop.setTarget h.node_notMem hopen hfound
      exact (turned_follow hstacked hw hfound).congr hgrow hresume
  | target site => exact turned_done h.pop

/-- **What one step keeps**: the invariant, and all that is written down. -/
theorem Search.Fits.step (b : Built code g) (h : q.Fits g) :
    (q.step g).Fits g ∧ q.store.Grows (q.step g).store := by
  obtain ⟨s, waits, phase⟩ := q
  obtain ⟨hstacked, hphase⟩ := h
  -- By phase: what is asked for is entered when it is neither known nor on the path.
  cases phase with
  | ask d =>
    unfold Search.step
    dsimp only
    split
    · exact ⟨⟨hstacked, trivial⟩, .refl s⟩
    · next hknown =>
      split
      · exact ⟨⟨hstacked, trivial⟩, .refl s⟩
      · next hfresh => exact ⟨⟨hstacked, hphase, hknown, hfresh⟩, .refl s⟩
  | entered d =>
    obtain ⟨hd, hknown, hnode⟩ := hphase
    exact (turned_enter b hstacked hd hknown hnode).fits hnode
  | answer r =>
    -- An answer ends the search, or resumes the innermost that waits.
    cases waits with
    | nil => exact ⟨⟨hstacked, hphase⟩, .refl s⟩
    | cons w waits =>
      cases r with
      | error e => exact ⟨⟨hstacked.pop, trivial⟩, .refl s⟩
      | ok t => exact (turned_resume b hstacked t).fits hstacked.node_notMem

/-- **What a run keeps.** -/
theorem Search.Fits.iterate (b : Built code g) (h : q.Fits g) (k : Nat) :
    ((Search.step g)^[k] q).Fits g := by
  induction k with
  | zero => exact h
  | succ k ih =>
    rw [Function.iterate_succ_apply']
    exact (ih.step b).1

/-! ### What the invariant says -/

/-- No node is on the path twice. -/
theorem Search.Fits.nodup_path (h : q.Fits g) : q.path.Nodup := by
  obtain ⟨s, waits, phase⟩ := q
  cases phase with
  | entered d => exact List.nodup_cons.mpr ⟨h.phase.2.2, h.stacked.nodup⟩
  | _ => exact h.stacked.nodup

/-- What waits is a node of the graph. -/
theorem Wait.Fits.node_mem (b : Built code g) (h : w.Fits g) : w.node ∈ g.nodes := by
  cases w with
  | dependency => exact b.nodeOf_mem h.1
  | _ => exact b.nodeOf_mem h

/-- The path runs through nodes of the graph. -/
theorem Search.Fits.path_subset (b : Built code g) (h : q.Fits g) : q.path ⊆ g.nodes := by
  obtain ⟨s, waits, phase⟩ := q
  have hwaits : waits.map Wait.node ⊆ g.nodes := by
    intro node hmem
    obtain ⟨w, hw, rfl⟩ := List.mem_map.mp hmem
    exact (h.stacked.fits w hw).node_mem b
  cases phase with
  | entered d => exact List.cons_subset.mpr ⟨b.nodeOf_mem h.phase.1, hwaits⟩
  | _ => exact hwaits

/-- **No more nodes are entered than there are.** -/
theorem Search.Fits.length_path_le (b : Built code g) (h : q.Fits g) :
    q.path.length ≤ g.nodes.length :=
  (List.subperm_of_subset h.nodup_path (h.path_subset b)).length_le

/-! ### The machine comes to the answer of the recursion -/

variable (g) in
/-- The machine comes from one state to another one. -/
def Leads (q q' : Search) : Prop := ∃ k, (Search.step g)^[k] q = q'

theorem Leads.refl (q : Search) : Leads g q q := ⟨0, rfl⟩

/-- Runs of the search follow each other. -/
theorem Leads.trans {q'' : Search} (h : Leads g q q') (h' : Leads g q' q'') : Leads g q q'' := by
  obtain ⟨k, rfl⟩ := h
  obtain ⟨k', rfl⟩ := h'
  exact ⟨k' + k, Function.iterate_add_apply _ _ _ _⟩

theorem Leads.head (h : Leads g (q.step g) q') : Leads g q q' :=
  Leads.trans ⟨1, rfl⟩ h

/-- What has come to its end stays there. -/
theorem Leads.ends {r : Except CompileError Ty × Store} (h : Leads g q (.answered [] r)) :
    ∃ k, ∀ j, k ≤ j → (Search.step g)^[j] q = .answered [] r := by
  obtain ⟨k, hk⟩ := h
  refine ⟨k, fun j hj => ?_⟩
  obtain ⟨i, rfl⟩ := Nat.exists_eq_add_of_le' hj
  rw [Function.iterate_add_apply, hk]
  exact Function.iterate_fixed rfl i

/-- A search that fits stays so on every run. -/
theorem Search.Fits.leads (b : Built code g) (h : q.Fits g) (hl : Leads g q q') : q'.Fits g := by
  obtain ⟨k, rfl⟩ := hl
  exact h.iterate b k

variable (g) in
/-- Whenever a node asks for the type of something, the machine comes to the answer of `typeOf`. -/
def Serves (typeOf : Dependency → Finding Ty) (node : PathNode) (waits : List Wait) : Prop :=
  ∀ w d s, w.node = node → Search.Fits g ⟨s, w :: waits, .ask d⟩ →
    Leads g ⟨s, w :: waits, .ask d⟩ (.answered (w :: waits) (outcome (typeOf d) s))

variable {typeOf : Dependency → Finding Ty} {f : Ty → Finding Ty} {found : List Possible}

/-- A node that asks for a type, and goes on with it as a finding does. -/
theorem leads_ask (b : Built code g) (hserve : Serves g typeOf w.node waits)
    (hfits : Search.Fits g ⟨s, w :: waits, .ask d⟩)
    (hnext : ∀ t s', Search.Fits g (.turn s' waits (resume g t w)) →
      Leads g (.turn s' waits (resume g t w)) (.answered waits (outcome (f t) s'))) :
    Leads g ⟨s, w :: waits, .ask d⟩ (.answered waits (outcome (typeOf d >>= f) s)) := by
  -- First the type is found out, with the node waiting; then it is the node's turn.
  have hleads := hserve w d s rfl hfits
  have hfits' := ((hfits.leads b hleads).step b).1
  refine hleads.trans (.head ?_)
  rcases hr : outcome (typeOf d) s with ⟨e | t, s'⟩ <;> rw [hr] at hfits'
  · rw [outcome_bind_error hr]
    exact .refl _
  · rw [outcome_bind_ok hr]
    exact hnext t s' hfits'

/-- A record asks for its dependencies one after the other. -/
theorem leads_collect (b : Built code g) (hserve : Serves g typeOf (.record n) waits) :
    ∀ (ds : List Dependency) (found : List Possible) (s : Store),
      Search.Fits g (.turn s waits (collect g n found ds)) →
      Leads g (.turn s waits (collect g n found ds))
        (.answered waits (outcome (possibleTypes typeOf found ds >>= conclude g n) s)) := by
  intro ds
  -- On the dependencies: each is asked for in turn, and the answers are collected.
  induction ds with
  | nil =>
    intro found s _
    rw [collect, turn_done]
    exact .refl _
  | cons d rest ih =>
    intro found s hfits
    rw [possibleTypes, bind_assoc]
    exact leads_ask (w := .dependency n found d rest) b hserve hfits fun t s' => ih _ s'

/-- An operator asks for its receiver, and for its argument if there is such an operator. -/
theorem leads_operator (b : Built code g) (hserve : Serves g typeOf (.operator site.call) waits)
    (hfits : Search.Fits g (.turn s waits (enter g (.operator site)))) :
    Leads g (.turn s waits (enter g (.operator site)))
      (.answered waits (outcome (operatorType g typeOf site) s)) := by
  refine leads_ask (w := .receiver site) b hserve hfits fun t s' hfits' => ?_
  rw [resume] at hfits' ⊢
  dsimp only at hfits' ⊢
  cases hop : (g.record site.call).instruction.op.name?.bind (Operator.find? t) with
  | none => exact .refl _
  | some operator =>
    rw [hop] at hfits'
    -- One argument is asked for, and every other number is refused without asking.
    rcases hargs : site.args with _ | ⟨arg, _ | ⟨arg', rest⟩⟩
    · exact .refl _
    · rw [hargs] at hfits'
      refine leads_ask (w := .argument site t operator arg) b hserve hfits' fun t' s'' _ => ?_
      rw [resume]
      split <;> exact .refl _
    · exact .refl _

/-- The type of a call that has a target. -/
def typeOfTaken (typeOf : Dependency → Finding Ty) : Target → Finding Ty
  | .object className => return .object className
  | .method n => typeOf (.record n)
  | .operator site => typeOf (.operator site)

/-- The search for the type of a target leads to its answer. -/
theorem leads_follow (b : Built code g) (hserve : Serves g typeOf (.send site.call) waits)
    {found : Target} (hfits : Search.Fits g (.turn s waits (pure (follow site found)))) :
    Leads g (.turn s waits (pure (follow site found)))
      (.answered waits (outcome (typeOfTaken typeOf found) s)) := by
  -- A method and an operator hand the question on.
  have forward : ∀ {d}, Search.Fits g (.turn s waits (pure (.wait (.target site) d))) →
      Leads g (.turn s waits (pure (.wait (.target site) d)))
        (.answered waits (outcome (typeOf d) s)) := by
    intro d hfits
    rw [← bind_pure (typeOf d)]
    exact leads_ask (w := .target site) b hserve hfits fun t s' _ => .refl _
  cases found with
  | object name => exact .refl _
  | method n => exact forward hfits
  | operator site' => exact forward hfits

/-- A call without a target asks for its receiver and is dispatched. -/
theorem leads_send (b : Built code g) (hserve : Serves g typeOf (.send site.call) waits)
    (hfits : Search.Fits g (.turn s waits (enter g (.send site)))) :
    Leads g (.turn s waits (enter g (.send site)))
      (.answered waits (outcome (target g typeOf site >>= typeOfTaken typeOf) s)) := by
  rw [target, bind_assoc, outcome_get_bind]
  have henter := outcome_enter_send (g := g) site s
  -- The call has been dispatched before, or its receiver is asked for.
  cases hget : s.targets.get? site.call with
  | some found =>
    rw [hget] at henter
    rw [turn_congr henter] at hfits ⊢
    exact leads_follow b hserve hfits
  | none =>
    rw [hget] at henter
    rw [turn_congr henter] at hfits ⊢
    simp only [bind_assoc]
    refine leads_ask (w := .dispatch site) b hserve hfits fun t s' hfits' => ?_
    have hresume := outcome_resume_dispatch (g := g) t site s'
    rw [outcome_get_bind]
    -- The dispatch fails, or its target is followed.
    cases hd : g.dispatch s'.targets t site.call site.receiver with
    | error e =>
      rw [hd] at hresume
      rw [turn_congr hresume]
      exact .refl _
    | ok found =>
      rw [hd] at hresume
      rw [turn_congr hresume] at hfits' ⊢
      exact leads_follow b hserve hfits'

/-! Asked for a type, a search knows it, finds that it goes round in a circle, or enters a node. -/

/-- What is known is answered at once. -/
theorem step_ask_known (hk : s.known? d = some t) :
    Search.step g ⟨s, waits, .ask d⟩ = .answered waits (.ok t, s) := by
  simp only [Search.step, hk, Search.answered]

/-- What waits already is a cycle. -/
theorem step_ask_again (hk : s.known? d = none) (hp : nodeOf d ∈ waits.map Wait.node) :
    Search.step g ⟨s, waits, .ask d⟩ = .answered waits (.error (circular g d), s) := by
  simp only [Search.step, hk, Search.path]
  exact if_pos hp

/-- What is neither is entered. -/
theorem step_ask_fresh (hk : s.known? d = none) (hp : nodeOf d ∉ waits.map Wait.node) :
    Search.step g ⟨s, waits, .ask d⟩ = ⟨s, waits, .entered d⟩ := by
  simp only [Search.step, hk, Search.path]
  exact if_neg hp

/-- **The machine comes to the answer of the recursion**, if that is given enough steps: with every
node that is entered there are fewer left to enter. -/
theorem leads_resolveWithin (b : Built code g) :
    ∀ (k : Nat) (waits : List Wait) (d : Dependency) (s : Store),
      Search.Fits g ⟨s, waits, .ask d⟩ → g.nodes.length < k + waits.length →
      Leads g ⟨s, waits, .ask d⟩
        (.answered waits (outcome (resolveWithin g k (waits.map Wait.node) d) s)) := by
  intro k
  induction k with
  | zero =>
    -- More nodes cannot be waiting than there are, so there is a step left.
    intro waits d s hfits hk
    have hle : (waits.map Wait.node).length ≤ g.nodes.length := hfits.length_path_le b
    rw [List.length_map] at hle
    omega
  | succ k ih =>
    intro waits d s hfits hk
    refine .head ?_
    cases hknown : s.known? d with
    | some t =>
      rw [step_ask_known hknown, resolveWithin, outcome_get_bind, hknown]
      exact .refl _
    | none =>
      by_cases hp : nodeOf d ∈ waits.map Wait.node
      · have hmem : (waits.map Wait.node).contains (nodeOf d) = true := by simpa using hp
        rw [step_ask_again hknown hp, resolveWithin, outcome_get_bind, hknown]
        dsimp only
        rw [if_pos hmem]
        exact .refl _
      · have hfits' := (hfits.step b).1
        rw [step_ask_fresh hknown hp] at hfits' ⊢
        -- One node more has been entered, and one step less is left.
        have hserve : Serves g (resolveWithin g k (nodeOf d :: waits.map Wait.node)) (nodeOf d)
            waits := by
          intro w d' s' hnode hfits
          have hleads := ih (w :: waits) d' s' hfits (by rw [List.length_cons]; omega)
          rwa [List.map_cons, hnode] at hleads
        rw [outcome_resolveWithin hknown hp]
        refine .head ?_
        cases d with
        | record n => exact leads_collect b hserve _ _ _ (hfits'.step b).1
        | operator site => exact leads_operator b hserve (hfits'.step b).1
        | send site => exact leads_send b hserve (hfits'.step b).1

/-- A search begins with nothing entered. -/
theorem Search.fits_start (b : Built code g) (hs : s.Sound g) (hd : g.Has d) :
    (Search.start s d).Fits g where
  stacked := by
    refine ⟨List.nodup_nil, nofun, nofun, fun {site found} hsite hget => ?_⟩
    exact b.has_of_hasTarget hsite (hs.targeted hsite hget)
  phase := hd

end Inference

open Inference

/-- **The search for a type ends, and enters few nodes.** Whatever was asked before, from the store
that is left the machine comes to the answer of `resolve` for each record of the graph, be it a type
or an error, and to the store that `resolve` leaves.

In every state on the way no node is entered twice without having been left, so there are at most as
many nodes entered as there are records and, for each record that sends, a call and an operator. A
call is dispatched only as long as it has no target, and then its target stays: a call is given an
operator once at most. -/
theorem resolution_ends (h : Graph.build code = .ok g) (asked : List Session.Question)
    (hn : n < g.records.size) :
    let s := ((Session.start g).askAll asked).store
    (∃ k, ∀ j, k ≤ j →
      (Search.step g)^[j] (.start s (.record n)) = .answered [] (outcome (resolve g n) s)) ∧
    ∀ k, let q := (Search.step g)^[k] (.start s (.record n))
      q.path.Nodup ∧ q.path.length ≤ g.records.size + 2 * g.sends.length ∧
      (∀ site, .dispatch site ∈ q.waits → q.store.targets.get? site.call = none) ∧
      q.store.Grows (q.step g).store := by
  intro s
  have b := Graph.built_of_build h
  have hs : s.Sound g := ((Session.On.start b.isWired).askAll b.isWired asked).1.sound
  have hstart := Search.fits_start b hs (has_record hn)
  constructor
  · have hle := length_sends_le g
    have hlen := length_nodes g
    -- The recursion has fuel to spare, so the machine ends where it does.
    have hleads := leads_resolveWithin b (steps g) [] (.record n) s hstart
      (by rw [steps, List.length_nil]; omega)
    exact hleads.ends
  · intro k q
    -- Every state on the way fits, and the bounds are read off.
    have hq : q.Fits g := hstart.iterate b k
    exact ⟨hq.nodup_path, (hq.length_path_le b).trans_eq (length_nodes g),
      fun site hmem => hq.stacked.still _ hmem, (hq.step b).2⟩

/-- A method adds its argument to what it answers, so its type depends on itself. The search enters
the operator that the addition is dispatched to, and comes back through it to the method. -/
theorem resolution_ends_in_a_circle :
    let code : List Instruction :=
      ([.defStart "f", .pushArg 0, .setVar "x", .pushVar "x", .pushNil, .pushInt 1,
        .send "f" (some 1), .send "+" (some 1), .defEnd "f",
        .pushNil, .pushInt 1, .send "f" (some 1)] : List Operation).map fun op => ⟨op, default⟩
    ∃ g, Graph.build code = .ok g ∧ 11 < g.records.size ∧
      let s := ((Session.start g).askAll [.resolve 8]).store
      (∃ k, ∀ j, k ≤ j →
        (Search.step g)^[j] (.start s (.record 11)) = .answered [] (outcome (resolve g 11) s)) ∧
      ∀ k, let q := (Search.step g)^[k] (.start s (.record 11))
        q.path.Nodup ∧ q.path.length ≤ g.records.size + 2 * g.sends.length ∧
        (∀ site, .dispatch site ∈ q.waits → q.store.targets.get? site.call = none) ∧
        q.store.Grows (q.step g).store := by
  intro code
  have hbuild : (Graph.build code).isOk = true := by decide +kernel
  cases hg : Graph.build code with
  | error e => rw [hg] at hbuild; cases hbuild
  | ok g =>
    -- The record that is asked for is the call at the end.
    have hsize : 11 < g.records.size := by
      rw [(Graph.built_of_build hg).size_eq]
      decide
    exact ⟨g, rfl, hsize, resolution_ends hg [.resolve 8] hsize⟩

end Rubylet
