import Rubylet.Proofs.Direct.Evaluation
import Rubylet.Proofs.Syntax.Reading

/-!
# Bare names

A name without parentheses is a local or a call, by the scope in which it is read. `Meets` follows
reading down to such a name: it says which locals are known where the name is read, and how many
records have been made of the text before it, so that the next record is the first one of the name.

* `exists_meets`: reading a derivation meets every bare name in it.
* `Meets.parts` and its fellows say what is met in the parts of a tree.
-/

namespace Rubylet

namespace Rule

/-- Are the parts of a rule read one after the other, and is the first record of the first part the
first one of the whole? -/
def isSequential (r : Rule) : Bool :=
  r.passes || r.isBinary ||
    match r with
    | message _ | assign | elseClause => true
    | _ => false

/-- How many parts stand between the condition of a conditional and its body. -/
def skipped? : Rule → Option Nat
  | conditional then? _ | elsifClause then? _ => some then?.toNat
  | _ => none

end Rule

namespace Syntax

open Rubylet.Tree

mutual

/-- Reading a tree from a scope and a record on meets a bare name where some locals are known; the
next record is the first one of the name. -/
inductive Meets (name : Token) (known : Scope) (record : Nat) : Scope → Nat → Tree → Prop
  | here : Meets name known record known record (.node (.name false) [.leaf name])
  | part {scope n r ts} : r.isSequential → MeetsAny name known record scope n ts →
      Meets name known record scope n (.node r ts)
  /-- A call without receiver has a record for nil before its arguments. -/
  | call {scope n t args} : Meets name known record scope (n + 1) args →
      Meets name known record scope n (.node (.name true) [.leaf t, args])
  | condition {scope n r start condition rest k} : r.skipped? = some k →
      Meets name known record scope n condition →
      Meets name known record scope n (.node r (.leaf start :: condition :: rest))
  /-- Before the body of a branch there is a record that opens it. -/
  | body {scope scope₁ n r ts start condition body others c k} (thens : List Tree) :
      r.skipped? = some k → ts = .leaf start :: condition :: (thens ++ body :: others) →
      thens.length = k → Reads scope condition [c] scope₁ →
      Meets name known record scope₁ (n + c.count + 1) body →
      Meets name known record scope n (.node r ts)
  | other {scope scope₁ scope₂ n r ts start condition body others c xs k} (thens : List Tree) :
      r.skipped? = some k → ts = .leaf start :: condition :: (thens ++ body :: others) →
      thens.length = k → Reads scope condition [c] scope₁ → Reads scope₁ body xs scope₂ →
      MeetsAny name known record scope₂
        (n + c.count + 1 + Node.countBody (some (blockAt start.pos body xs)) + 1) others →
      Meets name known record scope n (.node r ts)
  /-- Before the body of a method there are two records for each parameter. -/
  | methodBody {scope n hasParams ts start method body fin} (lists : List Tree) :
      ts = .leaf start :: .leaf method :: (lists ++ [body, .leaf fin]) →
      lists.length = hasParams.toNat →
      Meets name known record ((nameTokens lists).map Token.text)
        (n + 1 + 2 * (nameTokens lists).length) body →
      Meets name known record scope n (.node (.methodDef hasParams) ts)
  | classBody {scope n start cls body fin} : Meets name known record [] (n + 1) body →
      Meets name known record scope n (.node .classDef [.leaf start, .leaf cls, body, .leaf fin])

/-- Reading trees one after the other meets a bare name. -/
inductive MeetsAny (name : Token) (known : Scope) (record : Nat) :
    Scope → Nat → List Tree → Prop
  | head {scope n t ts} : Meets name known record scope n t →
      MeetsAny name known record scope n (t :: ts)
  | tail {scope scope₁ n t ts xs} : Reads scope t xs scope₁ →
      MeetsAny name known record scope₁ (n + Node.countAll xs) ts →
      MeetsAny name known record scope n (t :: ts)

end

variable {name : Token} {known scope scope' : Scope} {record n : Nat} {r : Rule} {t : Tree}
  {ts : List Tree}

theorem skipped?_of_isSequential (h : r.isSequential) : r.skipped? = none := by
  cases r <;> first | rfl | cases h

/-- Of a sequence, a part is met. -/
theorem Meets.parts (hr : r.isSequential) (h : Meets name known record scope n (.node r ts)) :
    MeetsAny name known record scope n ts := by
  cases h with
  | here => cases hr
  | part _ h => exact h
  | call => cases hr
  | condition hk | body _ hk | other _ hk =>
    rw [skipped?_of_isSequential hr] at hk
    cases hk
  | methodBody => cases hr
  | classBody => cases hr

/-- Nothing is met in a token. -/
theorem not_meets_leaf {token : Token} : ¬ Meets name known record scope n (.leaf token) := nofun

theorem not_meetsAny_leaves (h : ∀ u ∈ ts, ∃ token, u = .leaf token) :
    ¬ MeetsAny name known record scope n ts := by
  intro hm
  induction ts generalizing scope n with
  | nil => cases hm
  | cons u us ih =>
    obtain ⟨token, rfl⟩ := h u (.head _)
    cases hm with
    | head hm => exact not_meets_leaf hm
    | tail _ hm => exact ih (fun v hv => h v (.tail _ hv)) hm

/-- What is met in a conditional is met in its condition, its body or the other branch. -/
theorem Meets.branches {start : Token} {condition body : Tree} {thens others : List Tree} {k : Nat}
    {c : Node} {xs : List Node} {scope₁ scope₂ : Scope}
    (h : Meets name known record scope n (.node r ts)) (hr : r.skipped? = some k)
    (hts : ts = .leaf start :: condition :: (thens ++ body :: others)) (hk : thens.length = k)
    (hc : Reads scope condition [c] scope₁) (hb : Reads scope₁ body xs scope₂) :
    Meets name known record scope n condition ∨
      Meets name known record scope₁ (n + c.count + 1) body ∨
      MeetsAny name known record scope₂
        (n + c.count + 1 + Node.countBody (some (blockAt start.pos body xs)) + 1) others := by
  cases h with
  | here => cases hr
  | part hs => rw [skipped?_of_isSequential hs] at hr; cases hr
  | call => cases hr
  | condition _ h =>
    obtain ⟨-, hts⟩ := List.cons.inj hts
    obtain ⟨rfl, -⟩ := List.cons.inj hts
    exact .inl h
  -- The node tells its parts, and what they are read as.
  | body _ hr' hts' hk' hc' h =>
    obtain rfl := Option.some.inj (hr.symm.trans hr')
    obtain ⟨rfl, rfl, rfl, rfl, rfl⟩ := parts_inj (hts.symm.trans hts') hk hk'
    obtain ⟨⟨⟩, rfl⟩ := hc.unique hc'
    exact .inr (.inl h)
  | other _ hr' hts' hk' hc' hb' h =>
    obtain rfl := Option.some.inj (hr.symm.trans hr')
    obtain ⟨rfl, rfl, rfl, rfl, rfl⟩ := parts_inj (hts.symm.trans hts') hk hk'
    obtain ⟨⟨⟩, rfl⟩ := hc.unique hc'
    obtain ⟨rfl, rfl⟩ := hb.unique hb'
    exact .inr (.inr h)
  | methodBody => cases hr
  | classBody => cases hr

/-- What is met in a method is met in its body. -/
theorem Meets.method {hasParams : Bool} {start method fin : Token} {body : Tree}
    {lists : List Tree} (h : Meets name known record scope n (.node (.methodDef hasParams) ts))
    (hts : ts = .leaf start :: .leaf method :: (lists ++ [body, .leaf fin]))
    (hk : lists.length = hasParams.toNat) :
    Meets name known record ((nameTokens lists).map Token.text)
      (n + 1 + 2 * (nameTokens lists).length) body := by
  cases h with
  | part hs => cases hs
  | condition hr | body _ hr | other _ hr => cases hr
  | methodBody _ hts' hk' h =>
    -- The two ways of taking the method apart give the same body.
    obtain ⟨-, -, rfl, rfl, -⟩ := method_parts_inj (hts.symm.trans hts') hk hk'
    exact h

/-! ### Every bare name is met -/

section Derivations

theorem exists_derives_of_mem {ss : List Symbol} {u : Tree} (h : DerivesAll ss ts) (hu : u ∈ ts) :
    ∃ s ∈ ss, Derives s u := by
  induction ts generalizing ss with
  | nil => cases hu
  | cons t ts ih =>
    cases h with
    | cons ht hts =>
      rcases List.mem_cons.mp hu with rfl | hu
      · exact ⟨_, .head _, ht⟩
      · obtain ⟨s, hs, hd⟩ := ih hts hu
        exact ⟨s, .tail _ hs, hd⟩

theorem leaf_of_opt {b : Bool} {kind : TokenKind} (h : DerivesAll (Rule.opt b (.token kind)) ts) :
    ts.length = b.toNat ∧ ∀ u ∈ ts, ∃ token, u = .leaf token := by
  cases b with
  | false =>
    obtain rfl := derivesAll_nil_iff.mp h
    exact ⟨rfl, nofun⟩
  | true =>
    obtain ⟨u, rfl, hu⟩ := derivesAll_singleton_iff.mp h
    obtain ⟨token, rfl, -⟩ := hu.exists_leaf
    exact ⟨rfl, fun v hv => ⟨token, List.mem_singleton.mp hv⟩⟩

theorem phrase_of_opt {b : Bool} {p : Phrase} (h : DerivesAll (Rule.opt b (.phrase p)) ts) :
    ts.length = b.toNat ∧ (ts = [] ∨ ∃ u, ts = [u] ∧ Derives (.phrase p) u) := by
  cases b with
  | false =>
    obtain rfl := derivesAll_nil_iff.mp h
    exact ⟨rfl, .inl rfl⟩
  | true =>
    obtain ⟨u, rfl, hu⟩ := derivesAll_singleton_iff.mp h
    exact ⟨rfl, .inr ⟨u, rfl, hu⟩⟩

/-- The parts of a conditional: around its body stand tokens, and another branch at most. -/
structure Branching (ts : List Tree) (k : Nat) (start : Token) (condition : Tree)
    (thens : List Tree) (body : Tree) (others fins : List Tree) : Prop where
  parts : ts = .leaf start :: condition :: (thens ++ body :: (others ++ fins))
  length : thens.length = k
  thens : ∀ u ∈ thens, ∃ token, u = .leaf token
  condition : Derives (.phrase .expr) condition
  body : Derives (.phrase .body) body
  others : others = [] ∨ ∃ u, others = [u] ∧ Derives (.phrase .elseClause) u
  fins : ∀ u ∈ fins, ∃ token, u = .leaf token

/-- A clause has a condition, a body and what may follow it. -/
theorem branching_of_derives {k : Nat} (hr : r.skipped? = some k)
    (hts : DerivesAll r.symbols ts) : ∃ start condition thens body others fins,
      Branching ts k start condition thens body others fins := by
  -- Only the two rules of conditionals skip anything.
  cases r <;> cases hr <;>
    simp only [Rule.symbols, derivesAll_append_iff, derivesAll_cons_iff, derivesAll_nil_iff,
      derives_token_iff] at hts
  case conditional.refl =>
    obtain ⟨_, _, rfl, ⟨_, others, rfl, ⟨_, _, rfl, ⟨_, thens, rfl, ⟨_, _, rfl, ⟨start, rfl, -⟩,
      condition, _, rfl, hc, rfl⟩, hthens⟩, body, _, rfl, hb, rfl⟩, hothers⟩, _, _, rfl,
      ⟨fin, rfl, -⟩, rfl⟩ := hts
    refine ⟨start, condition, thens, body, others, [.leaf fin], by simp, (leaf_of_opt hthens).1,
      (leaf_of_opt hthens).2, hc, hb, (phrase_of_opt hothers).2, ?_⟩
    exact fun u hu => ⟨fin, List.mem_singleton.mp hu⟩
  case elsifClause.refl =>
    obtain ⟨_, others, rfl, ⟨_, _, rfl, ⟨_, thens, rfl, ⟨_, _, rfl, ⟨start, rfl, -⟩,
      condition, _, rfl, hc, rfl⟩, hthens⟩, body, _, rfl, hb, rfl⟩, hothers⟩ := hts
    exact ⟨start, condition, thens, body, others, [], by simp, (leaf_of_opt hthens).1,
      (leaf_of_opt hthens).2, hc, hb, (phrase_of_opt hothers).2, List.forall_mem_nil _⟩

/-- A method has a name, a body, and a list of parameters if the rule has one. -/
theorem exists_of_methodDef {hasParams : Bool}
    (hts : DerivesAll (Rule.methodDef hasParams).symbols ts) : ∃ start method lists body fin,
      ts = .leaf start :: .leaf method :: (lists ++ [body, .leaf fin]) ∧
        lists.length = hasParams.toNat ∧ (∀ u ∈ lists, Derives (.phrase .paramList) u) ∧
          Derives (.phrase .body) body := by
  simp only [Rule.symbols, derivesAll_append_iff, derivesAll_cons_iff, derivesAll_nil_iff,
    derives_token_iff] at hts
  obtain ⟨_, _, rfl, ⟨_, lists, rfl, ⟨_, _, rfl, ⟨start, rfl, -⟩, _, _, rfl, ⟨method, rfl, -⟩, rfl⟩,
    hlists⟩, body, _, rfl, hb, _, _, rfl, ⟨fin, rfl, -⟩, rfl⟩ := hts
  obtain ⟨hlength, hlists⟩ := phrase_of_opt hlists
  refine ⟨start, method, lists, body, fin, by simp, hlength, ?_, hb⟩
  -- Without a list there is nothing to derive.
  rcases hlists with rfl | ⟨list, rfl, hlist⟩
  · exact List.forall_mem_nil _
  · exact fun u hu => List.mem_singleton.mp hu ▸ hlist

/-- Is it a symbol of a parameter list? -/
def isParameters : Symbol → Bool
  | .token _ | .phrase .paramList | .phrase .moreParams => true
  | _ => false

theorem isParameters_of_mem {s : Symbol} (hr : isParameters (.phrase r.phrase))
    (hs : s ∈ r.symbols) : isParameters s := by
  revert s
  cases r with
  | noParams | secondParam | anotherParam => decide
  | params more => cases more <;> decide
  | _ => cases hr

/-- The names of parameters are not bare names. -/
theorem not_partOf_parameters {s : Symbol} {us : List Tree} (h : Derives s t)
    (hs : isParameters s) : ¬ PartOf (.node (.name false) us) t := by
  induction t using Tree.induction_parts generalizing s with
  | leaf token => exact nofun
  | node r ts ih =>
    obtain ⟨rfl, hts⟩ := derives_node_iff.mp h
    rintro (_ | ⟨hu, hpart⟩)
    · cases hs
    · obtain ⟨s, hmem, hd⟩ := exists_derives_of_mem hts hu
      exact ih _ hu hd (isParameters_of_mem hs hmem) hpart

/-- What is met in a part is met in the sequence. -/
theorem exists_meetsAny {u : Tree} {xs : List Node} (h : ReadsAll scope ts xs scope') (hu : u ∈ ts)
    (hm : ∀ {scope xs scope' n}, Reads scope u xs scope' →
      ∃ known record, Meets name known record scope n u) :
    ∃ known record, MeetsAny name known record scope n ts := by
  induction ts generalizing scope xs n with
  | nil => cases hu
  | cons t ts ih =>
    cases h with
    | cons ht hts =>
      -- The part that meets the name is read first, or after the ones before it.
      rcases List.mem_cons.mp hu with rfl | hu
      · obtain ⟨known, record, h⟩ := hm ht
        exact ⟨known, record, .head h⟩
      · obtain ⟨known, record, h⟩ := ih hts hu
        exact ⟨known, record, .tail ht h⟩

theorem not_partOf_leaf {u : Tree} {us : List Tree} (hu : ∃ token, u = .leaf token) :
    ¬ PartOf (.node (.name false) us) u := by
  obtain ⟨token, rfl⟩ := hu
  exact nofun

/-- **Reading a derivation meets every bare name in it.** -/
theorem exists_meets {s : Symbol} {xs : List Node} (hd : Derives s t)
    (h : Reads scope t xs scope') (hpart : PartOf (.node (.name false) [.leaf name]) t) :
    ∃ known record, Meets name known record scope n t := by
  induction t using Tree.induction_parts generalizing s scope xs scope' n with
  | leaf token => exact absurd hpart (not_partOf_leaf ⟨token, rfl⟩)
  | node r ts ih =>
    obtain ⟨rfl, hts⟩ := derives_node_iff.mp hd
    cases hpart with
    | refl => exact ⟨scope, n, .here⟩
    | @child _ _ u hu hpart =>
      -- The part that the name stands in, wherever it is read.
      have hmeets {scope xs scope' n} (h : Reads scope u xs scope') :
          ∃ known record, Meets name known record scope n u := by
        obtain ⟨s, -, hd⟩ := exists_derives_of_mem hts hu
        exact ih u hu hd h hpart
      have hleaf {token : Token} (heq : u = .leaf token) : False :=
        not_partOf_leaf ⟨token, heq⟩ hpart
      have hsequence {xs scope'} (hr : r.isSequential) (h : ReadsAll scope ts xs scope') :
          ∃ known record, Meets name known record scope n (.node r ts) := by
        obtain ⟨known, record, h⟩ := exists_meetsAny h hu hmeets
        exact ⟨known, record, .part hr h⟩
      -- Of a conditional, the name stands in the condition, the body or the other branch.
      have hbranches {k scope₁ scope₂ scope₃ start condition thens body others c xs blocks}
          (hr : r.skipped? = some k) (heq : ts = .leaf start :: condition :: (thens ++ body :: others))
          (hk : thens.length = k) (hc : Reads scope condition [c] scope₁)
          (hb : Reads scope₁ body xs scope₂) (ho : ReadsAll scope₂ others blocks scope₃) :
          ∃ known record, Meets name known record scope n (.node r ts) := by
        obtain ⟨_, _, _, _, others, fins, hparts⟩ := branching_of_derives hr hts
        obtain ⟨rfl, rfl, rfl, rfl, rfl⟩ := parts_inj (heq.symm.trans hparts.parts) hk hparts.length
        subst heq
        simp only [List.mem_cons, List.mem_append] at hu
        rcases hu with hu | rfl | hu | rfl | hu
        · exact (hleaf hu).elim
        · obtain ⟨known, record, h⟩ := hmeets hc
          exact ⟨known, record, .condition hr h⟩
        · exact absurd hpart (not_partOf_leaf (hparts.thens u hu))
        · obtain ⟨known, record, h⟩ := hmeets hb
          exact ⟨known, record, .body _ hr rfl hk hc h⟩
        · obtain ⟨known, record, h⟩ := exists_meetsAny ho (List.mem_append.mpr hu) hmeets
          exact ⟨known, record, .other _ hr rfl hk hc hb h⟩
      cases h with
      | pass hr hts => exact hsequence (by simp [Rule.isSequential, hr]) hts
      | binary hr hx hy =>
        exact hsequence (by simp [Rule.isSequential, hr]) (.cons hx (.cons (.token _ _)
          (.cons hy (.nil _))))
      | message hreceiver hargs =>
        exact hsequence rfl (.cons hreceiver (.cons (.token _ _) (.cons (.token _ _) hargs)))
      | assign hv =>
        exact hsequence rfl (.cons (.token _ _) (.cons (.token _ _) (.cons hv (.nil _))))
      | elseClause hb => exact hsequence rfl (.cons (.token _ _) (.cons hb (.nil _)))
      | integer | text | nil | constant | known | unknown =>
        exact (hleaf (List.mem_singleton.mp hu)).elim
      | call hargs =>
        rcases List.mem_cons.mp hu with hu | hu
        · exact (hleaf hu).elim
        · obtain rfl := List.mem_singleton.mp hu
          obtain ⟨known, record, h⟩ := hmeets hargs
          exact ⟨known, record, .call h⟩
      | conditional thens heq hk hc hb ho => exact hbranches rfl heq hk hc hb ho
      | elsifClause thens heq hk hc hb ho => exact hbranches rfl heq hk hc hb ho
      | methodDef lists heq hk hnodup hb =>
        obtain ⟨_, _, _, _, _, heq', hk', hlists, -⟩ := exists_of_methodDef hts
        obtain ⟨rfl, rfl, rfl, rfl, rfl⟩ := method_parts_inj (heq.symm.trans heq') hk hk'
        subst heq
        simp only [List.mem_cons, List.mem_append, List.not_mem_nil, or_false] at hu
        rcases hu with hu | hu | hu | rfl | hu
        · exact (hleaf hu).elim
        · exact (hleaf hu).elim
        · exact absurd hpart (not_partOf_parameters (hlists u hu) rfl)
        · obtain ⟨known, record, h⟩ := hmeets hb
          exact ⟨known, record, .methodBody lists rfl hk h⟩
        · exact (hleaf hu).elim
      | classDef hb =>
        simp only [List.mem_cons, List.not_mem_nil, or_false] at hu
        rcases hu with hu | hu | rfl | hu
        · exact (hleaf hu).elim
        · exact (hleaf hu).elim
        · obtain ⟨known, record, h⟩ := hmeets hb
          exact ⟨known, record, .classBody h⟩
        · exact (hleaf hu).elim

end Derivations

end Syntax

end Rubylet
