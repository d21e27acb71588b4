import Rubylet.Proofs.Code.Role
import Rubylet.Proofs.Graph.Wired
import Rubylet.Proofs.Syntax.Accepted
import Rubylet.Proofs.Syntax.Names

/-!
# Scopes and frames

Which names are visible is decided twice: by the reader, which tells locals from calls, and by the
wiring of the graph, which looks locals up in the tables of its frames.

* `scopes_are_frames`: where a bare name is read, the locals of the reader are the names in the
  current frame of a wiring that gets to the record. So no read is refused as undefined.
-/

namespace Rubylet

open Replay Syntax Rubylet.Tree

/-! ### The parts of a layout -/

namespace Layout

variable {code : List Instruction} {links : Nat → Nat → Prop} {inside : Option String}
  {n n' : Nat} {xs ys : List Node} {pos : Pos} {name : String}

/-- Expressions are laid out as the statements that they are. -/
theorem statements_of_exprs (h : Layout code links inside (.exprs xs) n n') :
    Layout code links inside (.statements xs) n n' := by
  induction xs generalizing n with
  | nil =>
    cases h
    exact .noStatements
  | cons x xs ih =>
    cases h with
    | moreExprs hx hxs => exact .moreStatements (.expression hx) (ih hxs)

theorem statement_of_singleton {x : Node} (h : Layout code links inside (.statements [x]) n n') :
    Layout code links inside (.statement x) n n' := by
  cases h with
  | moreStatements hx hnone =>
    cases hnone
    exact hx

/-- A piece of syntax that is one instruction. -/
theorem leaf_eq {x : Node} {i : Instruction} (hx : x.leaf? = some i)
    (h : Layout code links inside (.statements [x]) n n') : code[n]? = some i ∧ n' = n + 1 := by
  cases h.statement_of_singleton with
  | expression h =>
    cases h with
    | leaf hx' hi =>
      obtain rfl := Option.some.inj (hx.symm.trans hx')
      exact ⟨hi, rfl⟩
    | call | conditional => cases hx
  | assign | methodDef | classDef => cases hx

/-- A call to nil. -/
theorem call_absent (h : Layout code links inside (.statements [.call pos none name xs]) n n') :
    ∃ k, code[n]? = some ⟨.pushNil, ⟨.call, pos⟩⟩ ∧
      Layout code links inside (.statements xs) (n + 1) k ∧
      code[k]? = some ⟨.send name (some xs.length), ⟨.call, pos⟩⟩ ∧ n' = k + 1 := by
  cases h.statement_of_singleton with
  | expression h =>
    cases h with
    | leaf hx => cases hx
    | call hr hargs hi =>
      cases hr with
      | absent hn => exact ⟨_, hn, hargs.statements_of_exprs, hi, rfl⟩

/-- A call with a receiver stands where its receiver does. -/
theorem call_present {x : Node}
    (h : Layout code links inside (.statements [.call pos (some x) name xs]) n n') :
    ∃ k, Layout code links inside (.statements (x :: xs)) n k ∧
      code[k]? = some ⟨.send name (some xs.length), ⟨.call, pos⟩⟩ ∧ n' = k + 1 := by
  cases h.statement_of_singleton with
  | expression h =>
    cases h with
    | leaf hx => cases hx
    | call hr hargs hi =>
      cases hr with
      | present hx => exact ⟨_, .moreStatements (.expression hx) hargs.statements_of_exprs, hi, rfl⟩

/-- An assignment is laid out as its value and one record behind it. -/
theorem assign_parts {x : Node}
    (h : Layout code links inside (.statements [.assign pos name x]) n n') :
    ∃ k, Layout code links inside (.statements [x]) n k ∧
      code[k]? = some ⟨.setVar name, ⟨.assignment, pos⟩⟩ ∧ n' = k + 1 := by
  cases h.statement_of_singleton with
  | expression h =>
    cases h with
    | leaf hx => cases hx
  | assign hx hi => exact ⟨_, .moreStatements (.expression hx) .noStatements, hi, rfl⟩

/-- A body ends with its statements, or with what is pushed behind them. -/
theorem body_parts {owner : Origin}
    (h : Layout code links inside (.body owner (some (.block pos xs))) n n') :
    ∃ k, Layout code links inside (.statements xs) n k ∧
      (n' = k ∨ n' = k + 1 ∧ ∃ i, code[k]? = some i ∧
        (i.op = .pushNil ∨ Lowering.closingLast xs = [i])) := by
  cases h with
  | empty hi => exact ⟨n, .noStatements, .inr ⟨rfl, _, hi, .inl rfl⟩⟩
  | left _ hxs => exact ⟨n', hxs, .inl rfl⟩
  | closed hxs hc hi => exact ⟨_, hxs, .inr ⟨rfl, _, hi, .inr hc⟩⟩

end Layout

/-! ### The names in the current frame -/

section Names

variable {code : List Instruction} {n n' k : Nat} {i : Instruction} {scope scope' : Scope}
  {outer : List (List String)} {name : String}

/-- The names in the innermost frame at a point are those of a scope; other frames are around it. -/
def InScope (code : List Instruction) (n : Nat) (scope : Scope) (outer : List (List String)) :
    Prop :=
  ∃ names, namesAt code n = names :: outer ∧ ∀ name, name ∈ names ↔ name ∈ scope

/-- Does an instruction leave the names in the frames as they are? -/
def Operation.keepsNames : Operation → Bool
  | setVar _ | defStart _ | defEnd _ | classStart _ | classEnd _ => false
  | _ => true

/-- Does an instruction read a local? -/
def Operation.readsLocal : Operation → Bool
  | pushVar _ => true
  | _ => false

namespace InScope

/-- Only the names in a scope matter, not their order. -/
theorem congr (h : InScope code n scope outer) (hs : ∀ name, name ∈ scope ↔ name ∈ scope') :
    InScope code n scope' outer := by
  obtain ⟨names, heq, hnames⟩ := h
  exact ⟨names, heq, fun name => (hnames name).trans (hs name)⟩

/-- The names that are bound in the innermost frame are those of the scope. -/
theorem mem_iff (h : InScope code n scope outer) (name : String) :
    name ∈ (namesAt code n).headD [] ↔ name ∈ scope := by
  obtain ⟨names, heq, hnames⟩ := h
  rw [heq]
  exact hnames name

/-- A record that binds and closes nothing leaves the scope as it is. -/
theorem keep (h : InScope code n scope outer) (hi : code[n]? = some i) (hk : i.op.keepsNames) :
    InScope code (n + 1) scope outer := by
  rw [InScope, namesAt_succ hi]
  revert hk
  cases i.op <;> first | exact fun _ => h | exact nofun

/-- An assignment adds its name to the scope. -/
theorem setVar {origin : Origin} (h : InScope code n scope outer)
    (hi : code[n]? = some ⟨.setVar name, origin⟩) : InScope code (n + 1) (name :: scope) outer := by
  obtain ⟨names, heq, hnames⟩ := h
  refine ⟨name :: names, ?_, fun other => ?_⟩
  · rw [namesAt_succ hi, heq]
    rfl
  · rw [List.mem_cons, List.mem_cons, hnames]

/-- A frame that is opened is empty. -/
theorem opened (hi : code[n]? = some i)
    (ho : (∃ name, i.op = .defStart name) ∨ ∃ name, i.op = .classStart name) :
    InScope code (n + 1) [] (namesAt code n) := by
  refine ⟨[], ?_, fun _ => Iff.rfl⟩
  rw [namesAt_succ hi]
  rcases ho with ⟨_, ho⟩ | ⟨_, ho⟩ <;> rw [ho]

/-- When a frame is closed, the one around it is as it was. -/
theorem closed {inner : Scope} (h : InScope code n scope outer) (hk : InScope code k inner
    (namesAt code n)) (hi : code[k]? = some i)
    (ho : (∃ name, i.op = .defEnd name) ∨ ∃ name, i.op = .classEnd name) :
    InScope code (k + 1) scope outer := by
  obtain ⟨names, heq, -⟩ := hk
  have hback : namesAt code (k + 1) = namesAt code n := by
    rw [namesAt_succ hi, heq]
    rcases ho with ⟨_, ho⟩ | ⟨_, ho⟩ <;> rw [ho] <;> rfl
  rwa [InScope, hback]

end InScope

/-- Every local that is read between two points is bound there. -/
def ReadsBound (code : List Instruction) (n n' : Nat) : Prop :=
  ∀ q i name, n ≤ q → q < n' → code[q]? = some i → i.op = .pushVar name →
    name ∈ (namesAt code q).headD []

theorem ReadsBound.refl (code : List Instruction) (n : Nat) : ReadsBound code n n :=
  fun q _ _ hle hlt => by omega

/-- Two stretches in which every read is bound, one behind the other. -/
theorem ReadsBound.trans (h : ReadsBound code n k) (h' : ReadsBound code k n') :
    ReadsBound code n n' := by
  intro q i name hle hlt hq ho
  rcases Nat.lt_or_ge q k with hk | hk
  · exact h q i name hle hk hq ho
  · exact h' q i name hk hlt hq ho

theorem ReadsBound.single (hi : code[n]? = some i)
    (h : ∀ name, i.op = .pushVar name → name ∈ (namesAt code n).headD []) :
    ReadsBound code n (n + 1) := by
  intro q j name hle hlt hq ho
  obtain ⟨rfl, rfl⟩ := eq_of_between hi hle hlt hq
  exact h name ho

/-- A record that reads no local has nothing to be bound. -/
theorem ReadsBound.other (hi : code[n]? = some i) (ho : i.op.readsLocal = false) :
    ReadsBound code n (n + 1) := by
  refine .single hi fun name hop => ?_
  rw [hop] at ho
  cases ho

/-- The parameters of a method are bound in its frame. -/
theorem InScope.params {params : List Param} : ∀ {n scope}, InScope code n scope outer →
    ParamsAt code n params → ReadsBound code n (n + 2 * params.length) ∧
      ∃ scope', InScope code (n + 2 * params.length) scope' outer ∧
        ∀ name, name ∈ scope' ↔ name ∈ params.map Param.name ∨ name ∈ scope := by
  induction params with
  | nil => exact fun {n scope} h _ => ⟨.refl code n, scope, h, fun name => by simp⟩
  | cons p ps ih =>
    intro n scope h hparams
    have hfirst := CodeAt.head hparams
    have hsecond := CodeAt.head (CodeAt.tail hparams)
    -- The push reads no local, and the assignment adds the name of the parameter.
    obtain ⟨hbound, scope', h', hmem⟩ := ih ((h.keep hfirst rfl).setVar hsecond)
      (CodeAt.tail (CodeAt.tail hparams))
    rw [show n + 2 * (p :: ps).length = n + 1 + 1 + 2 * ps.length by rw [List.length_cons]; omega]
    -- The order in which the names are bound does not matter to the scope.
    refine ⟨(ReadsBound.other hfirst rfl).trans ((ReadsBound.other hsecond rfl).trans hbound),
      scope', h', fun name => ?_⟩
    rw [hmem, List.map_cons, List.mem_cons, List.mem_cons]
    tauto

end Names

/-! ### Scopes and frames go together -/

section Agreed

variable {code : List Instruction} {links : Nat → Nat → Prop} {inside : Option String}
  {n n' k : Nat} {i : Instruction} {scope scope' : Scope} {outer : List (List String)}
  {token : Token} {known : Scope} {record : Nat} {met met' : Prop}

/-- A bare name has become the read of a local if it is known, and a call else; from its first record
on, the names in the current frame are those that are known. -/
structure Site (code : List Instruction) (token : Token) (known : Scope) (record : Nat) : Prop where
  inScope : ∃ outer, InScope code record known outer
  read : token.text ∈ known → code[record]? = some ⟨.pushVar token.text, ⟨.localRead, token.pos⟩⟩
  call : token.text ∉ known → code[record]? = some ⟨.pushNil, ⟨.call, token.pos⟩⟩ ∧
    code[record + 1]? = some ⟨.send token.text (some 0), ⟨.call, token.pos⟩⟩

/-- From a point to another, where the names in the current frame are those of a scope, every local
that is read is bound; and a bare name that may have been met has its site. -/
structure Agreed (code : List Instruction) (outer : List (List String)) (token : Token)
    (known : Scope) (record n n' : Nat) (scope' : Scope) (met : Prop) : Prop where
  inScope : InScope code n' scope' outer
  bound : ReadsBound code n n'
  site : met → Site code token known record

namespace Agreed

theorem refl (h : InScope code n scope outer) (hmet : ¬ met) :
    Agreed code outer token known record n n scope met :=
  ⟨h, .refl code n, fun hm => absurd hm hmet⟩

/-- To have met the name less often asks for less. -/
theorem mono (h : Agreed code outer token known record n n' scope met) (hmet : met' → met) :
    Agreed code outer token known record n n' scope met' :=
  ⟨h.inScope, h.bound, fun hm => h.site (hmet hm)⟩

/-- Two stretches that agree, one behind the other. -/
theorem trans (h : Agreed code outer token known record n k scope met)
    (h' : Agreed code outer token known record k n' scope' met') :
    Agreed code outer token known record n n' scope' (met ∨ met') :=
  ⟨h'.inScope, h.bound.trans h'.bound, fun hm => hm.elim h.site h'.site⟩

/-- One more instruction that is about no local. -/
theorem keep (h : Agreed code outer token known record n k scope met) (hi : code[k]? = some i)
    (hk : i.op.keepsNames) (ho : i.op.readsLocal = false) :
    Agreed code outer token known record n (k + 1) scope met :=
  ⟨h.inScope.keep hi hk, h.bound.trans (.other hi ho), h.site⟩

/-- An instruction that is about no local, before others. -/
theorem after (hi : code[n]? = some i) (ho : i.op.readsLocal = false)
    (h : Agreed code outer token known record (n + 1) n' scope met) :
    Agreed code outer token known record n n' scope met :=
  ⟨h.inScope, (ReadsBound.other hi ho).trans h.bound, h.site⟩

end Agreed

/-- The value that is assigned last is read where the assignment has just been made. -/
theorem mem_of_closingLast {xs : List Node} {name : String}
    (h : Layout code links inside (.statements xs) n k) (hc : Lowering.closingLast xs = [i])
    (ho : i.op = .pushVar name) : name ∈ (namesAt code k).headD [] := by
  induction xs generalizing n with
  | nil => cases hc
  | cons x xs ih =>
    -- Only the last statement counts, and the names are those behind it.
    cases xs with
    | nil =>
      rw [Lowering.closingLast_singleton] at hc
      cases x <;> cases hc <;> cases ho
      obtain ⟨m, -, hset, rfl⟩ := h.assign_parts
      rw [namesAt_succ hset]
      exact .head _
    | cons y ys =>
      rw [Lowering.closingLast_cons] at hc
      cases h with
      | moreStatements _ hrest => exact ih hrest hc

/-- The closing record of a body leaves the names as they are. -/
theorem keepsNames_of_closingLast {xs : List Node} (hc : Lowering.closingLast xs = [i]) :
    i.op.keepsNames := by
  unfold Lowering.closingLast at hc
  split at hc
  · next x _ => cases x <;> cases hc <;> rfl
  · cases hc

/-- A body agrees if its statements do. -/
theorem Agreed.body {owner : Origin} {pos : Pos} {xs : List Node}
    (hl : Layout code links inside (.body owner (some (.block pos xs))) n n')
    (h : ∀ k, Layout code links inside (.statements xs) n k →
      Agreed code outer token known record n k scope met) :
    Agreed code outer token known record n n' scope met := by
  -- A body may have one record behind its statements.
  obtain ⟨k, hxs, rfl | ⟨rfl, i, hi, hop⟩⟩ := hl.body_parts
  · exact h n' hxs
  · have hk := h k hxs
    rcases hop with hop | hc
    · exact hk.keep hi (by rw [hop]; rfl) (by rw [hop]; rfl)
    -- The closing record of a method or a class neither binds nor reads a local.
    · exact ⟨hk.inScope.keep hi (keepsNames_of_closingLast hc), hk.bound.trans (.single hi
        fun name hname => mem_of_closingLast hxs hc hname), hk.site⟩

/-- Reading a tree agrees with the layout of what it is read as: statements, or the body of an else
branch. -/
structure Tracked (code : List Instruction) (links : Nat → Nat → Prop) (token : Token)
    (known : Scope) (record : Nat) (t : Tree) : Prop where
  statements : ∀ {s}, Derives s t → ∀ {inside xs scope scope' outer n n'},
    Reads scope t xs scope' → Layout code links inside (.statements xs) n n' →
      InScope code n scope outer →
        Agreed code outer token known record n n' scope' (Meets token known record scope n t)
  branch : Derives (.phrase .elseClause) t → ∀ {inside owner x scope scope' outer n n'},
    Reads scope t [x] scope' → Layout code links inside (.body owner (some x)) n n' →
      InScope code n scope outer →
        Agreed code outer token known record n n' scope' (Meets token known record scope n t)

variable {r : Rule} {ts : List Tree}

/-- What is read one after the other is laid out one after the other. -/
theorem agreed_of_readsAll {xs : List Node} (ih : ∀ u ∈ ts, Tracked code links token known record u)
    (hd : ∀ u ∈ ts, ∃ s, Derives s u) (h : ReadsAll scope ts xs scope')
    (hl : Layout code links inside (.statements xs) n n') (hk : InScope code n scope outer) :
    Agreed code outer token known record n n' scope'
      (MeetsAny token known record scope n ts) := by
  -- On the parts: each one is read in the scope the ones before it have left.
  induction ts generalizing scope xs n with
  | nil =>
    cases h
    cases hl
    exact .refl hk fun hm => by cases hm
  | cons t ts iht =>
    cases h with
    | cons ht hts =>
      obtain ⟨k, hxs, hys⟩ := hl.statements_append
      obtain rfl := hxs.eq_add_count
      obtain ⟨s, hs⟩ := hd t (.head _)
      have hfirst := (ih t (.head _)).statements hs ht hxs hk
      have hrest := iht (fun u hu => ih u (.tail _ hu)) (fun u hu => hd u (.tail _ hu)) hts hys
        hfirst.inScope
      refine (hfirst.trans hrest).mono fun hm => ?_
      cases hm with
      | head hm => exact .inl hm
      | tail ht' hm =>
        -- The reading of a part is determined, so the site lies in the reading at hand.
        obtain ⟨rfl, rfl⟩ := ht.unique ht'
        exact .inr hm

/-- An else clause stands for one block. -/
theorem exists_of_elseClause {t : Tree} {xs : List Node} (hd : Derives (.phrase .elseClause) t)
    (h : Reads scope t xs scope') : ∃ x, xs = [x] := by
  obtain ⟨r, ts, rfl, hr, -⟩ := hd.exists_node
  cases h with
  | pass hp => cases r <;> cases hr <;> cases hp
  | binary hb => cases r <;> cases hr <;> cases hb
  | elsifClause | elseClause => exact ⟨_, rfl⟩
  | _ => cases hr

/-- Tokens by themselves read as nothing and bind nothing. -/
theorem readsAll_leaves {xs : List Node} (h : ReadsAll scope ts xs scope')
    (hts : ∀ u ∈ ts, ∃ token, u = .leaf token) : xs = [] ∧ scope' = scope := by
  induction ts generalizing scope xs with
  | nil =>
    cases h
    exact ⟨rfl, rfl⟩
  | cons t ts ih =>
    obtain ⟨token, rfl⟩ := hts t (.head _)
    cases h with
    | cons ht hrest =>
      -- A leaf reads as nothing.
      cases ht
      exact ih hrest fun u hu => hts u (.tail _ hu)

/-- What stands behind the body of a branch: another branch, or nothing that is read. -/
theorem agreed_of_others {others fins : List Tree} {blocks : List Node} {owner : Origin}
    (ih : ∀ u ∈ others, Tracked code links token known record u)
    (hd : others = [] ∨ ∃ u, others = [u] ∧ Derives (.phrase .elseClause) u)
    (hfins : ∀ u ∈ fins, ∃ token, u = .leaf token)
    (h : ReadsAll scope (others ++ fins) blocks scope')
    (hl : Layout code links inside (.body owner blocks.head?) n n')
    (hk : InScope code n scope outer) :
    Agreed code outer token known record n n' scope'
      (MeetsAny token known record scope n (others ++ fins)) := by
  -- There is no else, or exactly one clause with it.
  rcases hd with rfl | ⟨u, rfl, hu⟩
  · obtain ⟨rfl, rfl⟩ := readsAll_leaves h hfins
    cases hl with
    | missing hi => exact (Agreed.refl hk (not_meetsAny_leaves hfins)).keep hi rfl rfl
  · cases h with
    | cons hread hrest =>
      obtain ⟨rfl, rfl⟩ := readsAll_leaves hrest hfins
      obtain ⟨x, rfl⟩ := exists_of_elseClause hu hread
      refine ((ih u (.head _)).branch hu hread hl hk).mono fun hm => ?_
      cases hm with
      | head hm => exact hm
      | tail _ hm => exact absurd hm (not_meetsAny_leaves hfins)

/-- A conditional, written with `if` or `elsif`. -/
theorem agreed_of_conditional {start : Token} {condition body : Tree} {thens others : List Tree}
    {pos : Pos} {c : Node} {xs blocks : List Node} {scope₁ scope₂ : Scope} {skipped : Nat}
    (ih : ∀ u ∈ ts, Tracked code links token known record u)
    (hr : r.skipped? = some skipped) (hts : DerivesAll r.symbols ts)
    (heq : ts = .leaf start :: condition :: (thens ++ body :: others))
    (hskipped : thens.length = skipped) (hc : Reads scope condition [c] scope₁)
    (hb : Reads scope₁ body xs scope₂) (ho : ReadsAll scope₂ others blocks scope')
    (hl : Layout code links inside
      (.expr (.conditional pos c (some (blockAt start.pos body xs)) blocks.head?)) n n')
    (hk : InScope code n scope outer) :
    Agreed code outer token known record n n' scope'
      (Meets token known record scope n (.node r ts)) := by
  obtain ⟨_, _, _, _, others, fins, hparts⟩ := branching_of_derives hr hts
  obtain ⟨rfl, rfl, rfl, rfl, rfl⟩ := parts_inj (heq.symm.trans hparts.parts) hskipped hparts.length
  cases hl with
  | leaf hx => cases hx
  | @conditional _ _ _ _ _ _ k j m hcondition hif hthen helse hother hend =>
    obtain rfl := hcondition.eq_add_count
    obtain rfl := hthen.eq_add_count
    -- One frame all the way: each part begins with the names that the part before it leaves.
    have h₁ := (ih condition (by simp [heq])).statements hparts.condition hc
      (.moreStatements (.expression hcondition) .noStatements) hk
    have h₂ := Agreed.body hthen fun k hxs =>
      (ih body (by simp [heq])).statements hparts.body hb hxs (h₁.keep hif rfl rfl).inScope
    have h₃ := agreed_of_others (fun u hu => ih u (by simp [heq, hu])) hparts.others hparts.fins ho
      hother (h₂.keep helse rfl rfl).inScope
    have hall := (h₁.keep hif rfl rfl).trans ((h₂.keep helse rfl rfl).trans h₃)
    exact (hall.keep hend rfl rfl).mono fun hm => hm.branches hr heq hskipped hc hb

theorem length_parameters (index : Nat) (names : List Token) :
    (parameters index names).length = names.length := by
  induction names generalizing index with
  | nil => rfl
  | cons t rest ih => rw [parameters, List.length_cons, List.length_cons, ih]

/-- A block is no statement of a program. -/
theorem not_layout_block {pos : Pos} {xs : List Node} :
    ¬ Layout code links inside (.statements [.block pos xs]) n n' := by
  intro hl
  cases hl.statement_of_singleton with
  | expression h =>
    cases h with
    | leaf hx => cases hx

/-- A method binds its parameters in a frame of its own. -/
theorem agreed_of_methodDef {hasParams : Bool} {start method fin : Token} {body : Tree}
    {lists : List Tree} {xs : List Node} {inner : Scope}
    (ih : ∀ u ∈ ts, Tracked code links token known record u)
    (hts : DerivesAll (Rule.methodDef hasParams).symbols ts)
    (heq : ts = .leaf start :: .leaf method :: (lists ++ [body, .leaf fin]))
    (hlists : lists.length = hasParams.toNat)
    (hb : Reads ((nameTokens lists).map Token.text) body xs inner)
    (hl : Layout code links inside (.statement (.methodDef start.pos method.text
      (parameters 0 (nameTokens lists)) (some (blockAt start.pos body xs)))) n n')
    (hk : InScope code n scope outer) :
    Agreed code outer token known record n n' scope
      (Meets token known record scope n (.node (.methodDef hasParams) ts)) := by
  obtain ⟨_, _, _, _, _, heq', hlists', -, hbody⟩ := exists_of_methodDef hts
  -- The grammar and the reading take the definition apart in the same way.
  obtain ⟨rfl, rfl, rfl, rfl, rfl⟩ := method_parts_inj (heq.symm.trans heq') hlists hlists'
  cases hl with
  | expression hl =>
    cases hl with
    | leaf hx => cases hx
  | methodDef hstart _ hparams hlbody hend =>
    have hopened := InScope.opened hstart (.inl ⟨_, rfl⟩)
    obtain ⟨hbound, names, hnames, hmem⟩ := hopened.params hparams
    -- The scope of the body is the names of the parameters and nothing from outside.
    have hscope : InScope code _ ((nameTokens lists).map Token.text) _ :=
      hnames.congr fun name => by
        rw [hmem, map_name_parameters]
        simp
    have hread := Agreed.body hlbody fun k hxs =>
      (ih body (by simp [heq])).statements hbody hb hxs hscope
    rw [length_parameters] at hread
    refine ⟨hk.closed hread.inScope hend (.inl ⟨_, rfl⟩), ?_, fun hm =>
      hread.site (hm.method heq hlists)⟩
    rw [length_parameters] at hbound
    exact (ReadsBound.other hstart rfl).trans (hbound.trans (hread.bound.trans
      (.other hend rfl)))

/-- A class has a frame of its own, too. -/
theorem agreed_of_classDef {start name fin : Token} {body : Tree} {xs : List Node} {inner : Scope}
    (ih : Tracked code links token known record body) (hd : ∃ s, Derives s body)
    (hb : Reads [] body xs inner)
    (hl : Layout code links inside (.statement (.classDef start.pos name.text
      (blockAt start.pos body xs))) n n') (hk : InScope code n scope outer) :
    Agreed code outer token known record n n' scope
      (Meets token known record scope n
        (.node .classDef [.leaf start, .leaf name, body, .leaf fin])) := by
  obtain ⟨s, hd⟩ := hd
  cases hl with
  | expression hl =>
    cases hl with
    | leaf hx => cases hx
  | classDef hstart hlbody hend =>
    -- A class starts from the empty scope.
    have hread := ih.statements hd hb hlbody (.opened hstart (.inr ⟨_, rfl⟩))
    refine ⟨hk.closed hread.inScope hend (.inr ⟨_, rfl⟩), (ReadsBound.other hstart rfl).trans
      (hread.bound.trans (.other hend rfl)), fun hm => hread.site ?_⟩
    cases hm with
    | part hr => cases hr
    | condition hr | body _ hr | other _ hr => cases hr
    | classBody hm => exact hm

/-- Each part of a node is derived from some symbol. -/
theorem exists_derives_of_part (hd : ∃ s, Derives s (.node r ts)) : ∀ u ∈ ts, ∃ s, Derives s u := by
  obtain ⟨s, hd⟩ := hd
  intro u hu
  obtain ⟨s, -, hs⟩ := exists_derives_of_mem (derives_node_iff.mp hd).2 hu
  exact ⟨s, hs⟩

/-- What stands behind `else` or `elsif` is laid out as a body. -/
theorem agreed_of_elseClause {owner : Origin} {x : Node}
    (ih : ∀ u ∈ ts, Tracked code links token known record u)
    (hd : Derives (.phrase .elseClause) (.node r ts)) (h : Reads scope (.node r ts) [x] scope')
    (hl : Layout code links inside (.body owner (some x)) n n') (hk : InScope code n scope outer) :
    Agreed code outer token known record n n' scope'
      (Meets token known record scope n (.node r ts)) := by
  have hr := (derives_node_iff.mp hd).1
  have hd' := exists_derives_of_part ⟨_, hd⟩
  cases h with
  | pass hp => cases r <;> cases hp <;> cases hr
  | binary hb => cases r <;> cases hb <;> cases hr
  -- An elsif is a conditional of its own, in the place of the else.
  | elsifClause thens heq hk' hc hb ho =>
    refine Agreed.body hl fun k hxs => ?_
    cases hxs.statement_of_singleton with
    | expression hl =>
      exact agreed_of_conditional ih rfl (derives_node_iff.mp hd).2 heq hk' hc hb ho hl hk
  | elseClause hb =>
    refine Agreed.body hl fun k hxs => ?_
    exact (agreed_of_readsAll ih hd' (.cons (.token _ _) (.single hb (.nil _))) hxs hk).mono
      fun hm => hm.parts rfl
  | _ => cases hr

/-- **Every tree agrees with its layout.** -/
theorem tracked (t : Tree) : Tracked code links token known record t := by
  induction t using Tree.induction_parts with
  | leaf t =>
    refine ⟨fun _ _ _ _ _ _ _ _ h hl hk => ?_, fun h => absurd h not_derives_leaf⟩
    cases h
    cases hl
    exact .refl hk fun hm => by cases hm
  | node r ts ih =>
    constructor
    · intro s hd inside xs scope scope' outer n n' h hl hk
      have hmem := exists_derives_of_part ⟨s, hd⟩
      -- The parts of most rules are laid out one after the other.
      have hsequence := fun {xs scope' k} => @agreed_of_readsAll code links inside n k scope scope'
        outer token known record ts xs ih hmem
      cases h with
      | pass hr hts =>
        exact (hsequence hts hl hk).mono fun hm => hm.parts (by simp [Rule.isSequential, hr])
      | binary hr hx hy =>
        obtain ⟨k, hparts, hi, rfl⟩ := hl.call_present
        have hall := hsequence (.cons hx (.cons (.token _ _) (.cons hy (.nil _)))) hparts hk
        exact (hall.mono fun hm => hm.parts (by simp [Rule.isSequential, hr])).keep hi rfl rfl
      | message hreceiver hargs =>
        obtain ⟨k, hparts, hi, rfl⟩ := hl.call_present
        have hall := hsequence (.cons hreceiver (.cons (.token _ _) (.cons (.token _ _) hargs)))
          hparts hk
        exact (hall.mono fun hm => hm.parts rfl).keep hi rfl rfl
      | assign hv =>
        obtain ⟨k, hparts, hi, rfl⟩ := hl.assign_parts
        have hall := hsequence (.cons (.token _ _) (.cons (.token _ _) (.cons hv (.nil _))))
          hparts hk
        refine ⟨hall.inScope.setVar hi, hall.bound.trans (.other hi rfl), fun hm => ?_⟩
        exact hall.site (hm.parts rfl)
      | integer | text | nil | constant =>
        obtain ⟨hi, rfl⟩ := hl.leaf_eq rfl
        refine (Agreed.refl hk fun hm => ?_).keep hi rfl rfl
        cases hm with
        | part hr => cases hr
        | body _ hr | other _ hr => cases hr
      | known hknown =>
        obtain ⟨hi, rfl⟩ := hl.leaf_eq rfl
        refine ⟨hk.keep hi rfl, .single hi fun name hop => ?_, fun hm => ?_⟩
        · cases hop
          exact (hk.mem_iff _).mpr hknown
        · cases hm with
          | here => exact ⟨⟨outer, hk⟩, fun _ => hi, fun hunknown => absurd hknown hunknown⟩
          | part hr => cases hr
          | body _ hr | other _ hr => cases hr
      | unknown hunknown =>
        obtain ⟨k, hnil, hargs, hsend, rfl⟩ := hl.call_absent
        cases hargs
        refine ⟨(hk.keep hnil rfl).keep hsend rfl, (ReadsBound.other hnil rfl).trans
          (.other hsend rfl), fun hm => ?_⟩
        cases hm with
        | here => exact ⟨⟨outer, hk⟩, fun hknown => absurd hknown hunknown, fun _ => ⟨hnil, hsend⟩⟩
        | part hr => cases hr
        | body _ hr | other _ hr => cases hr
      | @call _ _ t args _ hargs =>
        obtain ⟨k, hnil, hlargs, hsend, rfl⟩ := hl.call_absent
        obtain ⟨s', hd'⟩ := hmem args (by simp)
        have hread := (ih args (by simp)).statements hd' hargs hlargs (hk.keep hnil rfl)
        refine ((hread.mono fun hm => ?_).after hnil rfl).keep hsend rfl rfl
        cases hm with
        | part hr => cases hr
        | call hm => exact hm
        | condition hr | body _ hr | other _ hr => cases hr
      | conditional thens heq hk' hc hb ho =>
        cases hl.statement_of_singleton with
        | expression hl =>
          exact agreed_of_conditional ih rfl (derives_node_iff.mp hd).2 heq hk' hc hb ho hl hk
      | elsifClause | elseClause => exact absurd hl not_layout_block
      | methodDef lists heq hk' _ hb =>
        exact agreed_of_methodDef ih (derives_node_iff.mp hd).2 heq hk' hb
          hl.statement_of_singleton hk
      | classDef hb =>
        exact agreed_of_classDef (ih _ (by simp)) (hmem _ (by simp)) hb hl.statement_of_singleton hk
    · intro hd inside owner x scope scope' outer n n' h hl hk
      exact agreed_of_elseClause ih hd h hl hk

end Agreed

/-! ### Programs -/

/-- **The reader and the wiring see the same names.** Reading a program text meets every bare name in
it. A name that is known there becomes the read of a local, and any other name a call; and if the
wiring of the graph gets to its first record, the names in the current frame are those that are known,
so that no name becomes a call while it is bound. The wiring refuses no read as undefined. -/
theorem scopes_are_frames {source : String} {t : Tree} {code : List Instruction}
    (ht : treeOf (Terminator.read source) = .ok t) (hcode : Program.code source = .ok code) :
    (∀ token, PartOf (.node (.name false) [.leaf token]) t →
      ∃ known record, Meets token known record [] 0 t) ∧
    (∀ token known record, Meets token known record [] 0 t →
      (if token.text ∈ known then
        code[record]? = some ⟨.pushVar token.text, ⟨.localRead, token.pos⟩⟩
      else
        code[record]? = some ⟨.pushNil, ⟨.call, token.pos⟩⟩ ∧
          code[record + 1]? = some ⟨.send token.text (some 0), ⟨.call, token.pos⟩⟩) ∧
      ∀ w, Wired code record w → (∀ name, name ∈ known ↔ w.scope.contains name) ∧
        (w.scope.contains token.text ↔
          code[record]? = some ⟨.pushVar token.text, ⟨.localRead, token.pos⟩⟩)) ∧
    ∀ e name, Graph.build code = .error (.compile e) → e.cause ≠ .undefinedLocal name := by
  have hd := (tokens_of_treeOf ht).1
  obtain ⟨root, hread, hlower⟩ := Program.code_eq_ok_iff.mp hcode
  obtain ⟨statements, rfl, hsurface⟩ := surface_of_read hread
  have hlayout := layout_of_lower hsurface hlower (CodeAt.self code)
  rw [Nat.zero_add] at hlayout
  have hreplayed : (trace code).error? = none := by
    obtain ⟨_, -, hpasses⟩ := hlayout.passes .initial rfl
    exact (hpasses.trace_eq rfl).1
  -- What the derivation prescribes is what was read.
  obtain ⟨scope, hreads⟩ : ∃ scope, Reads [] t statements scope := by
    rw [Syntax.read, ht] at hread
    obtain ⟨-, _, scope, hreads, heq⟩ := prescribes_of_ofTree hd hread
    obtain ⟨-, rfl⟩ := Node.block.inj heq
    exact ⟨scope, hreads⟩
  have hagreed token known record :
      Agreed code [] token known record 0 _ scope (Meets token known record [] 0 t) :=
    (tracked t).statements hd hreads hlayout ⟨[], rfl, fun _ => Iff.rfl⟩
  refine ⟨fun token hpart => exists_meets hd hreads hpart, fun token known record hm => ?_, ?_⟩
  · obtain ⟨⟨outer, hscope⟩, hlocal, hcall⟩ := (hagreed token known record).site hm
    have hsame w (hw : Wired code record w) (name : String) :
        name ∈ known ↔ w.scope.contains name :=
      (hscope.mem_iff name).symm.trans hw.contains_iff.symm
    by_cases hknown : token.text ∈ known
    · rw [if_pos hknown]
      exact ⟨hlocal hknown, fun w hw => ⟨hsame w hw, fun _ => hlocal hknown,
        fun _ => (hsame w hw _).mp hknown⟩⟩
    · rw [if_neg hknown]
      refine ⟨hcall hknown, fun w hw => ⟨hsame w hw, fun hbound => ?_, fun hread => ?_⟩⟩
      · exact absurd ((hsame w hw _).mpr hbound) hknown
      · rw [(hcall hknown).1] at hread
        cases hread
  -- The layout covers all of the code, so there is no other read that could be refused.
  · intro e name hbuild hcause
    obtain ⟨n, i, hi, hop, hnot⟩ := exists_of_undefinedLocal hreplayed hbuild hcause
    have hlt := (List.getElem?_eq_some_iff.mp hi).1
    exact hnot ((hagreed default [] 0).bound n i name (Nat.zero_le n) hlt hi hop)

namespace Sample

/-- A bare name that is a call, and one that is a local. -/
def bare : String := "def a\nend\nb = a\nb"

/-- A bare name as an expression. -/
def bareName (token : Token) : Tree :=
  .node .expr [.node .singleTerm [.node .singleChain [.node .singlePrimary [
    .node (.name false) [.leaf token]]]]]

/-- The end of a line between two statements. -/
def newline (pos : Pos) : Tree :=
  .node .separator [.node .oneTerminator [.leaf ⟨.terminator, "\n", pos⟩]]

/-- The definition in the first two lines. -/
def bareMethod : Tree :=
  .node .methodStatement [.node (.methodDef false) [.leaf ⟨.kwDef, "def", 1, 1⟩,
    .leaf ⟨.name, "a", 1, 5⟩, .node .blankBody [newline ⟨1, 6⟩], .leaf ⟨.kwEnd, "end", 2, 1⟩]]

/-- The assignment in the third line. -/
def bareAssign : Tree :=
  .node .secondStatement [newline ⟨2, 4⟩, .node .assignStatement [.node .assign [
    .leaf ⟨.name, "b", 3, 1⟩, .leaf ⟨.equal, "=", 3, 3⟩, bareName ⟨.name, "a", 3, 5⟩]]]

def bareTree : Tree :=
  .node .program [.node (.body false true false) [bareMethod, .node .anotherStatement [bareAssign,
    newline ⟨3, 6⟩, .node .exprStatement [bareName ⟨.name, "b", 4, 1⟩]]]]

def bareStatements : List Node := [.methodDef ⟨1, 1⟩ "a" [] (some (.block ⟨1, 6⟩ [])),
  .assign ⟨3, 1⟩ "b" (.call ⟨3, 5⟩ none "a" []), .localRead ⟨4, 1⟩ "b"]

def bareCode : List Instruction := [
  ⟨.defStart "a", .methodDef, 1, 1⟩,
  ⟨.pushNil, .block, 1, 6⟩,
  ⟨.defEnd "a", .methodDef, 1, 1⟩,
  ⟨.pushNil, .call, 3, 5⟩,
  ⟨.send "a" (some 0), .call, 3, 5⟩,
  ⟨.setVar "b", .assignment, 3, 1⟩,
  ⟨.pushVar "b", .localRead, 4, 1⟩]

theorem treeOf_bare : treeOf (Terminator.read bare) = .ok bareTree :=
  treeOf_of_derives (by decide +kernel) (derives_of_follows _ (by decide +kernel))
    (by decide +kernel)

theorem read_bare : Syntax.read bare = .ok (.block .start bareStatements) := by
  rw [Syntax.read, treeOf_bare]
  rfl

theorem code_bare : Program.code bare = .ok bareCode := by
  rw [Program.code, read_bare]
  decide +kernel

theorem reads_newline (scope : Scope) (pos : Pos) : Reads scope (newline pos) [] scope :=
  .pass rfl (.single (.pass rfl (.single (.token _ _) (.nil _))) (.nil _))

/-- A name that is not in scope reads as a call. -/
theorem reads_bareName {scope : Scope} {token : Token} (h : token.text ∉ scope) :
    Reads scope (bareName token) [.call token.pos none token.text []] scope :=
  .pass rfl (.single (.pass rfl (.single (.pass rfl (.single (.pass rfl (.single (.unknown h)
    (.nil _))) (.nil _))) (.nil _))) (.nil _))

/-- A name meets itself where it stands. -/
theorem meets_bareName (scope : Scope) (n : Nat) (token : Token) :
    Meets token scope n scope n (bareName token) :=
  .part rfl (.head (.part rfl (.head (.part rfl (.head (.part rfl (.head .here)))))))

end Sample

/-- In the last line, `b` is met where it is the only local. -/
theorem scopes_are_frames_bare : Meets ⟨.name, "b", 4, 1⟩ ["b"] 6 [] 0 Sample.bareTree ∧
    Sample.bareCode[6]? = some ⟨.pushVar "b", .localRead, 4, 1⟩ ∧
    ∃ w, Wired Sample.bareCode 6 w ∧ ∀ name, name ∈ ["b"] ↔ w.scope.contains name := by
  -- The way down to the name: past the method, past the assignment, to the third statement.
  have hmethod : Reads [] Sample.bareMethod _ [] := .pass rfl (.single
    (.methodDef [] rfl rfl .nil (.pass rfl (.single (Sample.reads_newline _ _) (.nil _)))) (.nil _))
  have hassign : Reads [] Sample.bareAssign _ ["b"] := .pass rfl (.cons (Sample.reads_newline _ _)
    (.single (.pass rfl (.single (.assign (Sample.reads_bareName nofun)) (.nil _))) (.nil _)))
  have hmeets : Meets ⟨.name, "b", 4, 1⟩ ["b"] 6 [] 0 Sample.bareTree :=
    .part rfl (.head (.part rfl (.tail hmethod (.head (.part rfl (.tail hassign
      (.tail (Sample.reads_newline _ _) (.head (.part rfl (.head
        (Sample.meets_bareName _ _ _)))))))))))
  obtain ⟨hbecame, hframe⟩ := (scopes_are_frames Sample.treeOf_bare Sample.code_bare).2.1 _ _ _ hmeets
  rw [if_pos (List.mem_singleton.mpr rfl)] at hbecame
  have hwired : Wired Sample.bareCode 6 _ :=
    ⟨by decide +kernel, by decide, Prod.ext rfl (by decide +kernel)⟩
  exact ⟨hmeets, hbecame, _, hwired, (hframe _ hwired).1⟩

end Rubylet
