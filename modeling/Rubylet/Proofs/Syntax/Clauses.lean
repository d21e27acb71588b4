import Rubylet.Proofs.Shape.Unplaced
import Rubylet.Proofs.Syntax.Arguments

/-!
# Clauses of conditionals

An `elsif` is nothing but a conditional in an else clause, and a `then` is nothing at all. Both are
said of tokens. Some tokens change in one place, and for an `elsif` one more `end` comes before the
one that closes the conditional.

* `replaces_elsif`, `replaces_then`: what a clause gives way to, as a part of a tree.
* `exists_node`: a token belongs to a node of the tree, so a clause can be replaced where its word
  stands.
* `closeBefore_eq`: blocks that begin inside a clause end inside, and what comes after the clause is
  the `end` of its conditional (`exists_end`).
* `elsif_is_nested`: so the edited tokens are accepted, and compiled alike.
-/

namespace Rubylet

/-- The rule of an `if`, or of an `elsif`. -/
def Rule.clause (isIf then? else? : Bool) : Rule :=
  cond isIf (.conditional then? else?) (.elsifClause then? else?)

/-! ### Blocks -/

/-- How many blocks are open after a token of some kind, if it closes none that is not open. -/
def TokenKind.blocks? : TokenKind → Nat → Option Nat
  | .kwIf, depth | .kwDef, depth | .kwClass, depth => some (depth + 1)
  | .kwEnd, 0 => none
  | .kwEnd, depth + 1 => some depth
  | _, depth => some depth

/-- Puts a token before the END that closes the block around some tokens. Of the blocks that begin
inside, `depth` are open. -/
def closeBefore (fin : Token) : (depth : Nat) → List Token → List Token
  | _, [] => []
  | depth, t :: ts =>
    match t.kind.blocks? depth with
    | some depth => t :: closeBefore fin depth ts
    | none => fin :: t :: ts

namespace Syntax

open Rubylet.Tree

theorem balanced_blocks : Balanced TokenKind.blocks? := by
  intro r depth
  cases r with
  | body a b c => cases a <;> cases b <;> cases c <;> rfl
  | conditional a b | elsifClause a b => cases a <;> cases b <;> rfl
  | methodDef a | params a | message a | name a | args a => cases a <;> rfl
  | _ => rfl

variable {scope scope' : Scope} {r : Rule} {token els iff fin th start : Token} {a b : Bool}
  {condition t u : Tree} {ts us rest : List Tree} {xs : List Node} {pre post tokens : List Token}
  {s : Symbol} {ss ss₁ ss₂ : List Symbol}

/-- Blocks that begin inside end inside. -/
theorem closeBefore_append {depth depth' : Nat} (fin : Token) (post : List Token)
    (h : tokens.foldlM (fun depth u => u.kind.blocks? depth) depth = some depth') :
    closeBefore fin depth (tokens ++ post) = tokens ++ closeBefore fin depth' post := by
  -- On the tokens in front, with the depth they leave.
  induction tokens generalizing depth with
  | nil =>
    obtain rfl := Option.some.inj h
    rfl
  | cons t tokens ih =>
    rw [List.foldlM_cons] at h
    obtain ⟨depth₁, hkind, hrest⟩ := Option.bind_eq_some_iff.mp h
    rw [List.cons_append, List.cons_append, closeBefore, hkind]
    exact congrArg (t :: ·) (ih hrest)

/-- **The END of a block comes after what is derived inside.** -/
theorem closeBefore_eq (h : DerivesAll ss ts)
    (hss : ss.foldlM (fun depth s => s.depth? TokenKind.blocks? depth) 0 = some 0)
    (hend : token.kind = .kwEnd) (fin : Token) (post : List Token) :
    closeBefore fin 0 (allTokens ts ++ token :: post) = allTokens ts ++ fin :: token :: post := by
  rw [closeBefore_append fin _ ((depth_of_derivesAll balanced_blocks h 0).trans hss), closeBefore,
    hend]
  rfl

/-! ### An `elsif` as a conditional -/

/-- The else clause with a conditional in it. -/
def nestedIf (els iff fin : Token) (a b : Bool) (rest : List Tree) : Tree :=
  .node .elseClause [.leaf els, .node (.body false false false) [.node .exprStatement [.node .expr [
    .node .singleTerm [.node .singleChain [.node .singlePrimary [.node .primaryConditional [
      .node (.conditional a b) (.leaf iff :: (rest ++ [.leaf fin]))]]]]]]]]

theorem symbols_conditional (a b : Bool) : (Rule.conditional a b).symbols =
    .token .kwIf :: ((Rule.elsifClause a b).symbols.tail ++ [.token .kwEnd]) := by
  cases a <;> cases b <;> rfl

theorem symbols_elsifClause (a b : Bool) :
    (Rule.elsifClause a b).symbols = .token .kwElsif :: (Rule.elsifClause a b).symbols.tail := by
  cases a <;> cases b <;> rfl

theorem tokens_nestedIf (els iff fin : Token) (a b : Bool) (rest : List Tree) :
    (nestedIf els iff fin a b rest).tokens = els :: iff :: (allTokens rest ++ [fin]) := by
  simp [nestedIf, Tree.tokens, allTokens, allTokens_append]

/-- The conditional in the place of an elsif is an else clause. -/
theorem derives_nestedIf (hels : els.kind = .kwElse) (hiff : iff.kind = .kwIf)
    (hfin : fin.kind = .kwEnd) (h : DerivesAll (Rule.elsifClause a b).symbols.tail rest) :
    Derives (.phrase .elseClause) (nestedIf els iff fin a b rest) := by
  have hleaf {token : Token} {kind : TokenKind} (h : token.kind = kind) :
      Derives (.token kind) (.leaf token) := h ▸ .leaf token
  have hif : Derives (.phrase .conditional)
      (.node (.conditional a b) (.leaf iff :: (rest ++ [.leaf fin]))) := by
    refine .node (.conditional a b) _ ?_
    rw [symbols_conditional]
    exact .cons (hleaf hiff) (h.append (.cons (hleaf hfin) .nil))
  -- The chain of rules from an expression down to a conditional.
  have only (r : Rule) {u : Tree} {p : Phrase} (hr : r.symbols = [.phrase p])
      (hu : Derives (.phrase p) u) : Derives (.phrase r.phrase) (.node r [u]) :=
    .node r _ (hr ▸ .cons hu .nil)
  refine .node .elseClause _ (.cons (hleaf hels) (.cons ?_ .nil))
  exact only (.body false false false) rfl (only .exprStatement rfl (only .expr rfl
    (only .singleTerm rfl (only .singleChain rfl (only .singlePrimary rfl
      (only .primaryConditional rfl hif))))))

/-- What stands for one thing is passed on by the rules around it. -/
theorem Reads.only (h : Reads scope t xs scope') (hr : r.passes) :
    Reads scope (.node r [t]) xs scope' := .pass hr (.single h (.nil _))

/-- It is read as the clause is, up to where the parts stand. -/
theorem reads_nestedIf
    (h : Reads scope (.node (.elsifClause a b) (.leaf token :: rest)) xs scope') :
    ∃ ys, Reads scope (nestedIf els iff fin a b rest) ys scope' ∧
      List.Forall₂ Lowering.LowersAlike xs ys := by
  cases h with
  | pass hr => cases hr
  | binary hr => cases hr
  | elsifClause thens hts hlength hcondition hbody hothers =>
    have hparts := congrArg (fun ts => Tree.leaf iff :: (ts ++ [.leaf fin])) (List.cons.inj hts).2
    simp only [List.cons_append, List.append_assoc] at hparts
    have hothers' := hothers.append (.single (.token _ fin) (.nil _))
    rw [List.append_nil] at hothers'
    refine ⟨_, .elseClause (.only (.only (.only (.only (.only (.only (.only
      (.conditional thens hparts hlength hcondition hbody hothers')
      rfl) rfl) rfl) rfl) rfl) rfl) rfl), ?_⟩
    -- Either way this is a block around one conditional, and only their positions differ.
    have hrefl := Lowering.lowersAlike_likeness.forall_refl
    exact .cons (.block _ _ (.cons (.conditional _ _ (.refl _) (.block _ _ (hrefl _))
      (rel_head (hrefl _))) .nil)) .nil

/-- Only integers and strings can be wrong. -/
theorem literalFaults_eq_nil (hint : token.kind ≠ .int) (hstring : token.kind ≠ .string) :
    literalFaults token = [] := by
  unfold literalFaults
  split
  · contradiction
  · contradiction
  · rfl

/-- **An `elsif` may give way to a conditional in an else clause.** -/
theorem replaces_elsif (h : token.kind = .kwElsif) (hels : els.kind = .kwElse)
    (hiff : iff.kind = .kwIf) (hfin : fin.kind = .kwEnd) :
    Replaces Lowering.LowersAlike (fun _ _ => True)
      (.node (.elsifClause a b) (.leaf token :: rest)) (nestedIf els iff fin a b rest) where
  derives hs := by
    obtain ⟨rfl, hts⟩ := derives_node_iff.mp hs
    rw [symbols_elsifClause] at hts
    cases hts with
    | cons _ hrest => exact derives_nestedIf hels hiff hfin hrest
  leaf := nofun
  names := by
    rw [tokens_nestedIf]
    simp [namesIn, Tree.tokens, allTokens, h, hels, hiff, hfin]
  start := trivial
  faults := by
    -- The tokens that differ are keywords, which cannot be faulty.
    have hkeyword : literalFaults token = [] ∧ literalFaults els = [] ∧ literalFaults iff = [] ∧
        literalFaults fin = [] := by
      refine ⟨?_, ?_, ?_, ?_⟩ <;> refine literalFaults_eq_nil ?_ ?_ <;> simp [h, hels, hiff, hfin]
    simp [nestedIf, faults, allFaults, allFaults_append, parameterFaults, hkeyword]
  reads := reads_nestedIf

/-! ### Conditions with and without `then` -/

/-- The symbols of a clause after its `then`. -/
def afterThen (isIf else? : Bool) : List Symbol :=
  .phrase .body :: (Rule.opt else? (.phrase .elseClause) ++ Rule.opt isIf (.token .kwEnd))

theorem symbols_clause (isIf a b : Bool) : (Rule.clause isIf a b).symbols =
    .token (cond isIf .kwIf .kwElsif) :: .phrase .expr ::
      (Rule.opt a (.token .kwThen) ++ afterThen isIf b) := by
  cases isIf <;> cases a <;> cases b <;> rfl

/-- To be the same is a likeness, if bodies begin where they began. -/
theorem eq_likeness : Likeness Eq Eq where
  refl _ := rfl
  startRefl _ := rfl
  startOr h h' := congrArg₂ Option.or h h'
  block pos _ _ _ _ h hs :=
    congrArg₂ Node.block (congrArg (·.getD pos) h) (List.forall₂_eq_eq_eq ▸ hs)
  call pos name _ _ _ _ hr hs := by
    obtain rfl := List.forall₂_eq_eq_eq ▸ hs
    cases hr with
    | none => rfl
    | some h => rw [h]
  methodDef _ _ _ _ _ h := by rw [h]
  classDef _ _ _ _ h := by rw [h]
  conditional _ _ _ _ _ _ _ hc h hb := by
    cases hb with
    | none => rw [hc, h]
    | some hb => rw [hc, h, hb]
  assign _ _ _ _ h := by rw [h]

/-- A `then` that is there or not has no name in it, and nothing is wrong with it. -/
theorem of_opt_then {thens : List Tree} (h : DerivesAll (Rule.opt a (.token .kwThen)) thens) :
    thens.length = a.toNat ∧ namesIn (allTokens thens) = [] ∧ allFaults thens = [] := by
  cases a with
  | false =>
    obtain rfl := derivesAll_nil_iff.mp h
    exact ⟨rfl, rfl, rfl⟩
  | true =>
    obtain ⟨_, rfl, hleaf⟩ := derivesAll_singleton_iff.mp h
    obtain ⟨th, rfl, hth⟩ := hleaf.exists_leaf
    refine ⟨rfl, by simp [namesIn, allTokens, Tree.tokens, hth], ?_⟩
    rw [allFaults_singleton, faults, literalFaults_eq_nil (by simp [hth]) (by simp [hth])]

section Thens

variable {isIf a' : Bool} {thens thens' : List Tree}

/-- A clause stands for the same with or without `then`. -/
theorem reads_then (hlength : thens.length = a.toNat) (hlength' : thens'.length = a'.toNat)
    (h : Reads scope (.node (.clause isIf a b) (.leaf start :: condition :: (thens ++ rest))) xs
      scope') :
    Reads scope (.node (.clause isIf a' b) (.leaf start :: condition :: (thens' ++ rest))) xs
      scope' := by
  generalize hall : Tree.leaf start :: condition :: (thens ++ rest) = ts at h
  -- A conditional and an elsif have rules of their own, with the same parts.
  cases isIf with
  | true =>
    cases h with
    | pass hr => cases hr
    | binary hr => cases hr
    | conditional _ hts hl hcondition hbody hothers =>
      obtain ⟨hstart, hparts⟩ := List.cons.inj (hall.trans hts)
      obtain ⟨rfl, happend⟩ := List.cons.inj hparts
      obtain ⟨rfl, rfl⟩ := List.append_inj happend (hlength.trans hl.symm)
      obtain rfl := Tree.leaf.inj hstart
      exact .conditional thens' rfl hlength' hcondition hbody hothers
  | false =>
    cases h with
    | pass hr => cases hr
    | binary hr => cases hr
    | elsifClause _ hts hl hcondition hbody hothers =>
      obtain ⟨hstart, hparts⟩ := List.cons.inj (hall.trans hts)
      obtain ⟨rfl, happend⟩ := List.cons.inj hparts
      obtain ⟨rfl, rfl⟩ := List.append_inj happend (hlength.trans hl.symm)
      obtain rfl := Tree.leaf.inj hstart
      exact .elsifClause thens' rfl hlength' hcondition hbody hothers

/-- A clause is derived with its then as without it. -/
theorem derives_then (h : thens.length = a.toNat)
    (h' : DerivesAll (Rule.opt a' (.token .kwThen)) thens')
    (hs : Derives s (.node (.clause isIf a b) (.leaf start :: condition :: (thens ++ rest)))) :
    Derives s (.node (.clause isIf a' b) (.leaf start :: condition :: (thens' ++ rest))) := by
  obtain ⟨rfl, hts⟩ := derives_node_iff.mp hs
  refine derives_node_iff.mpr ⟨by cases isIf <;> rfl, ?_⟩
  rw [symbols_clause] at hts ⊢
  cases hts with
  | cons hstart hts =>
    cases hts with
    | cons hcondition hts =>
      -- The then and what follows it are told apart by their length.
      obtain ⟨us, vs, heq, hus, hvs⟩ := derivesAll_append_iff.mp hts
      obtain ⟨rfl, rfl⟩ := List.append_inj heq (h.trans (of_opt_then hus).1.symm)
      exact .cons hstart (.cons hcondition (h'.append hvs))

/-- **A `then` may come and go.** -/
theorem replaces_then (h : DerivesAll (Rule.opt a (.token .kwThen)) thens)
    (h' : DerivesAll (Rule.opt a' (.token .kwThen)) thens') :
    Replaces Eq Eq (.node (.clause isIf a b) (.leaf start :: condition :: (thens ++ rest)))
      (.node (.clause isIf a' b) (.leaf start :: condition :: (thens' ++ rest))) where
  derives := derives_then (of_opt_then h).1 h'
  leaf := nofun
  names := by
    simp only [Tree.tokens, allTokens, allTokens_append, namesIn, List.filter_append]
    rw [show List.filter _ (allTokens thens) = [] from (of_opt_then h).2.1,
      show List.filter _ (allTokens thens') = [] from (of_opt_then h').2.1]
  start := rfl
  faults := by
    -- A clause binds no parameters.
    have hnone (a : Bool) (ts : List Tree) : parameterFaults (.clause isIf a b) ts = [] := by
      cases isIf <;> rfl
    simp only [faults, allFaults, allFaults_append, hnone, (of_opt_then h).2.2,
      (of_opt_then h').2.2]
  reads hread :=
    ⟨_, reads_then (of_opt_then h).1 (of_opt_then h').1 hread, eq_likeness.forall_refl _⟩

end Thens

/-! ### Where a token stands -/

/-- A token of some trees stands in one of them. -/
theorem exists_part (h : allTokens ts = pre ++ token :: post) :
    ∃ ts₁ u ts₂ pre₁ post₁, ts = ts₁ ++ u :: ts₂ ∧ u.tokens = pre₁ ++ token :: post₁ ∧
      pre = allTokens ts₁ ++ pre₁ ∧ post = post₁ ++ allTokens ts₂ := by
  induction ts generalizing pre with
  | nil => exact absurd (congrArg List.length h) (by simp [allTokens])
  | cons t ts ih =>
    rw [allTokens] at h
    rcases List.append_eq_append_iff.mp h with ⟨mid, rfl, hts⟩ | ⟨mid, ht, hpost⟩
    · obtain ⟨ts₁, u, ts₂, pre₁, post₁, rfl, hu, rfl, rfl⟩ := ih hts
      exact ⟨t :: ts₁, u, ts₂, pre₁, post₁, rfl, hu, (List.append_assoc ..).symm, rfl⟩
    -- If the first tree ends right before the token, the token stands in one of the others.
    · cases mid with
      | nil =>
        obtain ⟨ts₁, u, ts₂, pre₁, post₁, rfl, hu, hpre, rfl⟩ := @ih [] hpost.symm
        refine ⟨t :: ts₁, u, ts₂, pre₁, post₁, rfl, hu, ?_, rfl⟩
        rw [allTokens, List.append_assoc, ← hpre, ht, List.append_nil, List.append_nil]
      | cons v mid =>
        obtain ⟨rfl, rfl⟩ := List.cons.inj hpost
        exact ⟨[], t, ts, pre, mid, rfl, ht, rfl, rfl⟩

/-- **A token stands among the parts of a node**, if the tree is more than the token. -/
theorem exists_parent (t : Tree) : ∀ pre post, t.tokens = pre ++ token :: post →
    t = .leaf token ∨ ∃ r ts us pre₁ post₁,
      Within (.node r (ts ++ .leaf token :: us)) t pre₁ post₁ ∧
        pre = pre₁ ++ allTokens ts ∧ post = allTokens us ++ post₁ := by
  -- On the tree, down to the node the token is a part of.
  induction t using Tree.induction_parts with
  | leaf u =>
    intro pre post h
    have hmem : token ∈ (Tree.leaf u).tokens := h ▸ List.mem_append_right _ (.head _)
    exact .inl (by rw [List.mem_singleton.mp hmem])
  | node r ts ih =>
    intro pre post h
    obtain ⟨ts₁, u, ts₂, pre₁, post₁, rfl, hu, rfl, rfl⟩ := exists_part h
    refine .inr ?_
    -- The part that spans the token is the token itself, or a node with it further down.
    rcases ih u (by simp) pre₁ post₁ hu with rfl | ⟨r', ts', us', pre₂, post₂, hw, rfl, rfl⟩
    · obtain ⟨rfl, rfl⟩ : pre₁ = [] ∧ post₁ = [] := by
        cases pre₁ with
        | nil => exact ⟨rfl, (List.cons.inj hu).2.symm⟩
        | cons => exact absurd (congrArg List.length hu) (by simp [Tree.tokens])
      exact ⟨r, ts₁, ts₂, [], [], .refl, by simp, by simp⟩
    · exact ⟨r', ts', us', _, _, hw.child, by simp, by simp⟩

/-- The node that a token of a derivation belongs to. -/
theorem exists_node {p : Phrase} (ht : Derives (.phrase p) t)
    (h : t.tokens = pre ++ token :: post) :
    ∃ r ts us pre₁ post₁ ss₁ ss₂, Within (.node r (ts ++ .leaf token :: us)) t pre₁ post₁ ∧
      pre = pre₁ ++ allTokens ts ∧ post = allTokens us ++ post₁ ∧
      r.symbols = ss₁ ++ .token token.kind :: ss₂ ∧ DerivesAll ss₁ ts ∧ DerivesAll ss₂ us := by
  rcases exists_parent t pre post h with rfl | ⟨r, ts, us, pre₁, post₁, hw, hpre, hpost⟩
  · exact absurd ht not_derives_leaf
  · obtain ⟨s, hs⟩ := hw.derives ht
    obtain ⟨-, hts⟩ := derives_node_iff.mp hs
    -- The parts of the node are derived by its symbols, the token by one of them.
    obtain ⟨ss₁, s', ss₂, hsymbols, hts, hleaf, hus⟩ := derivesAll_of_append hts
    obtain rfl := hleaf.symbol_eq
    exact ⟨r, ts, us, pre₁, post₁, ss₁, ss₂, hw, hpre, hpost, hsymbols, hts, hus⟩

/-- Only an `elsif` clause begins with the word, and it is nowhere else in it. -/
theorem rule_of_elsif (h : r.symbols = ss₁ ++ .token .kwElsif :: ss₂) :
    ss₁ = [] ∧ ∃ a b, r = .elsifClause a b ∧ ss₂ = (Rule.elsifClause a b).symbols.tail := by
  have hmem : .token .kwElsif ∈ r.symbols := h ▸ List.mem_append_right _ (.head _)
  obtain ⟨a, b, rfl⟩ : ∃ a b, r = .elsifClause a b := by
    cases r <;> simp [Rule.symbols, Rule.opt] at hmem
    exact ⟨_, _, rfl⟩
  have hnot : .token .kwElsif ∉ (Rule.elsifClause a b).symbols.tail := by
    cases a <;> cases b <;> decide
  rw [symbols_elsifClause, ← List.nil_append (_ :: _)] at h
  obtain ⟨rfl, -, rfl⟩ := (List.append_cons_inj_of_notMem List.not_mem_nil hnot).mp h
  exact ⟨rfl, a, b, rfl, rfl⟩

/-- Only clauses have a `then`, and it comes after the condition. -/
theorem rule_of_then (h : r.symbols = ss₁ ++ .token .kwThen :: ss₂) :
    ∃ isIf b, r = .clause isIf true b ∧
      ss₁ = [.token (cond isIf .kwIf .kwElsif), .phrase .expr] := by
  have hmem : .token .kwThen ∈ r.symbols := h ▸ List.mem_append_right _ (.head _)
  obtain ⟨isIf, b, rfl⟩ : ∃ isIf b, r = .clause isIf true b := by
    cases r <;> simp [Rule.symbols, Rule.opt] at hmem
    case conditional a b =>
      obtain rfl := hmem
      exact ⟨true, b, rfl⟩
    case elsifClause a b =>
      obtain rfl := hmem
      exact ⟨false, b, rfl⟩
  rw [symbols_clause] at h
  -- The word stands once in the rule, so the symbols before it are told.
  have hnot : .token .kwThen ∉ afterThen isIf b := by cases isIf <;> cases b <;> decide
  have hnot' : .token .kwThen ∉ [.token (cond isIf .kwIf .kwElsif), Symbol.phrase .expr] := by
    cases isIf <;> decide
  obtain ⟨rfl, -⟩ := (List.append_cons_inj_of_notMem hnot' hnot).mp h
  exact ⟨isIf, b, rfl, rfl⟩

/-- After an else clause there is the END of the conditional, or nothing in another clause. -/
theorem symbols_after_elseClause (h : r.symbols = ss₁ ++ .phrase .elseClause :: ss₂) :
    ss₂ = [.token .kwEnd] ∨ r.phrase = .elseClause ∧ ss₂ = [] := by
  have hmem : .phrase .elseClause ∈ r.symbols := h ▸ List.mem_append_right _ (.head _)
  -- Only two rules have an else clause.
  obtain ⟨isIf, a, rfl⟩ : ∃ isIf a, r = .clause isIf a true := by
    cases r <;> simp [Rule.symbols, Rule.opt] at hmem
    case conditional a b =>
      obtain rfl := hmem
      exact ⟨true, a, rfl⟩
    case elsifClause a b =>
      obtain rfl := hmem
      exact ⟨false, a, rfl⟩
  have hsymbols : (Rule.clause isIf a true).symbols =
      (.token (cond isIf .kwIf .kwElsif) :: .phrase .expr ::
        (Rule.opt a (.token .kwThen) ++ [.phrase .body])) ++
      .phrase .elseClause :: Rule.opt isIf (.token .kwEnd) := by
    cases isIf <;> cases a <;> rfl
  -- Each of them has it once.
  rw [hsymbols] at h
  obtain ⟨-, -, rfl⟩ := (List.append_cons_inj_of_notMem (by cases isIf <;> cases a <;> decide)
    (by cases isIf <;> decide)).mp h
  cases isIf with
  | true => exact .inl rfl
  | false => exact .inr ⟨rfl, rfl⟩

/-- **After an else clause comes the END of its conditional**, unless nothing comes after it in the
tree, which is a clause, too. -/
theorem exists_end (h : Within u t pre post) (hu : Derives (.phrase .elseClause) u)
    (ht : Derives s t) : (s = .phrase .elseClause ∧ post = []) ∨
      ∃ fin post', post = fin :: post' ∧ fin.kind = .kwEnd := by
  induction h generalizing s with
  | refl => exact .inl ⟨ht.symbol_eq.symm.trans hu.symbol_eq, rfl⟩
  -- What comes after the clause in its part comes first after it in the whole.
  | @child r ts us v pre post _ ih =>
    obtain ⟨rfl, hts⟩ := derives_node_iff.mp ht
    obtain ⟨ss₁, s', ss₂, hsymbols, -, hv, hus⟩ := derivesAll_of_append hts
    rcases ih hv with ⟨rfl, rfl⟩ | ⟨fin, post', rfl, hfin⟩
    · rcases symbols_after_elseClause hsymbols with rfl | ⟨hphrase, rfl⟩
      · obtain ⟨_, rfl, hleaf⟩ := derivesAll_singleton_iff.mp hus
        obtain ⟨fin, rfl, hfin⟩ := hleaf.exists_leaf
        exact .inr ⟨fin, [], rfl, hfin⟩
      · obtain rfl := derivesAll_nil_iff.mp hus
        exact .inl ⟨by rw [hphrase], rfl⟩
    · exact .inr ⟨fin, post' ++ allTokens us, rfl, hfin⟩

/-! ### Edited tokens -/

/-- The code that tokens are compiled to. -/
def codeOf (tokens : List Token) : Except StageError (List Instruction) := do
  Program.codeOf (← ofTree (← (treeOf ⟨tokens, none⟩).mapError .compile))

/-- Other tokens are accepted as well, and compiled to the same operations. So they have the same
types, and the same value. -/
structure CompiledAlike (tokens tokens' : List Token) : Prop where
  accepted : ∃ t, treeOf ⟨tokens', none⟩ = .ok t
  lowered : (codeOf tokens').map (List.map Instruction.op) =
    (codeOf tokens).map (List.map Instruction.op)
  typed {code code' : List Instruction} : codeOf tokens = .ok code → codeOf tokens' = .ok code' →
    (infer code').toOption.map (List.map TypedRecord.type?) =
      (infer code).toOption.map (List.map TypedRecord.type?)
  value {code code' : List Instruction} {records records' : List TypedRecord} :
    codeOf tokens = .ok code → codeOf tokens' = .ok code' → infer code = .ok records →
    infer code' = .ok records' → ∀ memory,
    (Program.execute memory .vm records').mapError RunError.unplaced =
      (Program.execute memory .vm records).mapError RunError.unplaced

/-- A program text is compiled as its tokens are. -/
theorem code_eq_codeOf {source : String} (h : Terminator.read source = ⟨tokens, none⟩) :
    Program.code source = codeOf tokens := by
  rw [Program.code, read, h, codeOf, bind_assoc]

/-- The code of tokens is that of the tree they derive. -/
theorem codeOf_eq (h : treeOf ⟨tokens, none⟩ = .ok t) :
    codeOf tokens = ofTree t >>= Program.codeOf := by
  rw [codeOf, h]
  rfl

theorem map_op_unplacedAll (code : List Instruction) :
    (unplacedAll code).map Instruction.op = code.map Instruction.op := by
  rw [unplacedAll, List.map_map]
  rfl

/-- What is the same but for positions is compiled alike. -/
theorem CompiledAlike.of_same {tokens' : List Token}
    (haccepted : ∃ t, treeOf ⟨tokens', none⟩ = .ok t)
    (h : Lowering.Same (codeOf tokens') (codeOf tokens)) : CompiledAlike tokens tokens' where
  accepted := haccepted
  lowered := by
    -- Both are refused with one error, or both lower to codes that differ in places only.
    revert h
    cases codeOf tokens' <;> cases codeOf tokens <;> intro h
    case ok.ok code' code =>
      refine congrArg Except.ok ?_
      rw [← map_op_unplacedAll, Except.ok.inj h, map_op_unplacedAll]
    case error.error e' e =>
      obtain rfl := Except.error.inj h
      rfl
    all_goals cases h
  typed {code code'} hcode hcode' := by
    rw [hcode, hcode'] at h
    have htypes := congrArg (Option.map (List.map TypedRecord.type?))
      (infer_unplaced (Except.ok.inj h))
    rw [Option.map_map, Option.map_map] at htypes
    have hmap : List.map TypedRecord.type? ∘ List.map TypedRecord.unplaced =
        List.map TypedRecord.type? := funext fun records => List.map_map
    rwa [hmap] at htypes
  value {code code' records records'} hcode hcode' hr hr' memory := by
    rw [hcode, hcode'] at h
    have hrecords := infer_unplaced (Except.ok.inj h)
    rw [hr, hr', toOption_ok, toOption_ok, Option.map_some, Option.map_some] at hrecords
    rw [← Machine.execute_unplaced, Option.some.inj hrecords, Machine.execute_unplaced]

/-- A condition without `then` ends between some tokens of a tree. -/
def AwaitsThen (t : Tree) (pre post : List Token) : Prop :=
  ∃ isIf else? start condition rest pre' post',
    Within (.node (.clause isIf false else?) (start :: condition :: rest)) t pre' post' ∧
      pre = pre' ++ (start.tokens ++ condition.tokens) ∧ post = allTokens rest ++ post'

/-- The tokens of a program in which a part is replaced are accepted. -/
theorem exists_accepted {u' : Tree} {R : Node → Node → Prop} {S : Option Pos → Option Pos → Prop}
    (L : Likeness R S) (haccepted : treeOf ⟨tokens, none⟩ = .ok t) (hw : Within u t pre post)
    (hu : Replaces R S u u') :
    ∃ t', treeOf ⟨pre ++ (u'.tokens ++ post), none⟩ = .ok t' ∧
      ((∃ xs ys, ofTree t = .ok (.block .start xs) ∧ ofTree t' = .ok (.block .start ys) ∧
        List.Forall₂ R xs ys) ∨ ∃ e, ofTree t = .error e ∧ ofTree t' = .error e) := by
  obtain ⟨ht, -⟩ := treeOf_eq_ok_iff.mp haccepted
  obtain ⟨t', hreplaces, htokens⟩ := L.exists_within hw hu
  exact ⟨t', treeOf_eq_ok_iff.mpr ⟨hreplaces.derives ht, htokens⟩, hreplaces.ofTree_cases ht⟩

section Accepted

variable (haccepted : treeOf ⟨tokens, none⟩ = .ok t)

include haccepted

/-- An `elsif` may be written as a conditional in an else clause. -/
theorem compiledAlike_elsif (htokens : tokens = pre ++ token :: post) (h : token.kind = .kwElsif)
    (hels : els.kind = .kwElse) (hiff : iff.kind = .kwIf) (hfin : fin.kind = .kwEnd) :
    CompiledAlike tokens (pre ++ els :: iff :: closeBefore fin 0 post) := by
  obtain ⟨ht, hspans⟩ := treeOf_eq_ok_iff.mp haccepted
  obtain ⟨r, ts, us, pre, post, ss₁, ss₂, hw, rfl, rfl, hsymbols, hts, hus⟩ :=
    exists_node ht (hspans.trans htokens)
  rw [h] at hsymbols
  obtain ⟨rfl, a, b, rfl, rfl⟩ := rule_of_elsif hsymbols
  obtain rfl := derivesAll_nil_iff.mp hts
  -- What comes after the clause is the END that closes the conditional.
  obtain ⟨s, hclause⟩ := hw.derives ht
  obtain ⟨rfl, -⟩ := derives_node_iff.mp hclause
  obtain ⟨⟨⟩, -⟩ | ⟨close, post, rfl, hclose⟩ := exists_end hw hclause ht
  have hbefore : closeBefore fin 0 (allTokens us ++ close :: post) =
      allTokens us ++ fin :: close :: post :=
    closeBefore_eq hus (by cases a <;> cases b <;> rfl) hclose fin post
  have hedited : pre ++ allTokens [] ++
      els :: iff :: closeBefore fin 0 (allTokens us ++ close :: post) =
      pre ++ ((nestedIf els iff fin a b us).tokens ++ close :: post) := by
    simp [hbefore, tokens_nestedIf, allTokens]
  obtain ⟨t', haccepted', hcases⟩ := exists_accepted Lowering.lowersAlike_likeness haccepted hw
    (replaces_elsif h hels hiff hfin)
  rw [hedited]
  refine .of_same ⟨t', haccepted'⟩ ?_
  rw [codeOf_eq haccepted, codeOf_eq haccepted']
  rcases hcases with ⟨xs, ys, hroot, hroot', hlike⟩ | ⟨e, hroot, hroot'⟩
  · rw [hroot, hroot']
    exact (Lowering.Same.mapError StageError.compile (Lowering.program_same .start .start hlike)).symm
  · rw [hroot, hroot']
    rfl

/-- A clause that gains or loses its `then` is compiled to the same code. -/
theorem codeOf_clause {isIf a' : Bool} {thens thens' : List Tree} {tokens' : List Token}
    (h : DerivesAll (Rule.opt a (.token .kwThen)) thens)
    (h' : DerivesAll (Rule.opt a' (.token .kwThen)) thens')
    (hw : Within (.node (.clause isIf a b) (.leaf start :: condition :: (thens ++ rest))) t pre
      post)
    (htokens : tokens' =
      pre ++ (start :: (condition.tokens ++ (allTokens thens' ++ allTokens rest)) ++ post)) :
    (∃ t', treeOf ⟨tokens', none⟩ = .ok t') ∧ codeOf tokens' = codeOf tokens := by
  obtain ⟨t', haccepted', hcases⟩ := exists_accepted eq_likeness haccepted hw (replaces_then h h')
  simp only [Tree.tokens, allTokens, allTokens_append, List.singleton_append] at haccepted'
  rw [← htokens] at haccepted'
  refine ⟨⟨t', haccepted'⟩, ?_⟩
  rw [codeOf_eq haccepted, codeOf_eq haccepted']
  -- Both trees are read, and alike, or both are faulty in the same way.
  rcases hcases with ⟨xs, ys, ht, ht', hsame⟩ | ⟨e, ht, ht'⟩
  · obtain rfl := List.forall₂_eq_eq_eq ▸ hsame
    rw [ht, ht']
  · rw [ht, ht']

/-- Taking a then away changes nothing. -/
theorem codeOf_without_then (htokens : tokens = pre ++ th :: post) (hth : th.kind = .kwThen) :
    (∃ t', treeOf ⟨pre ++ post, none⟩ = .ok t') ∧ codeOf (pre ++ post) = codeOf tokens := by
  obtain ⟨ht, hspans⟩ := treeOf_eq_ok_iff.mp haccepted
  obtain ⟨r, ts, us, pre, post, ss₁, ss₂, hw, rfl, rfl, hsymbols, hts, -⟩ :=
    exists_node ht (hspans.trans htokens)
  rw [hth] at hsymbols
  -- A then stands in a clause only, right behind the condition.
  obtain ⟨isIf, b, rfl, rfl⟩ := rule_of_then hsymbols
  simp only [derivesAll_cons_iff, derivesAll_nil_iff, derives_token_iff] at hts
  obtain ⟨_, _, rfl, ⟨start, rfl, -⟩, condition, _, rfl, -, rfl⟩ := hts
  have hthen : DerivesAll (Rule.opt true (.token .kwThen)) [.leaf th] := .cons (hth ▸ .leaf th) .nil
  have hnone : DerivesAll (Rule.opt false (.token .kwThen)) [] := .nil
  have hw : Within (.node (.clause isIf true b) (.leaf start :: condition :: ([.leaf th] ++ us))) t
    pre post := hw
  exact codeOf_clause haccepted hthen hnone hw (by simp [allTokens, Tree.tokens])

/-- Putting one in changes nothing either. -/
theorem codeOf_with_then (h : AwaitsThen t pre post) (hth : th.kind = .kwThen) :
    pre ++ post = tokens ∧ (∃ t', treeOf ⟨pre ++ th :: post, none⟩ = .ok t') ∧
      codeOf (pre ++ th :: post) = codeOf tokens := by
  obtain ⟨ht, hspans⟩ := treeOf_eq_ok_iff.mp haccepted
  obtain ⟨isIf, b, start, condition, rest, pre, post, hw, rfl, rfl⟩ := h
  obtain ⟨s, hclause⟩ := hw.derives ht
  obtain ⟨-, hts⟩ := derives_node_iff.mp hclause
  rw [symbols_clause] at hts
  obtain ⟨_, _, heq, hstart, -⟩ := derivesAll_cons_iff.mp hts
  obtain ⟨rfl, -⟩ := List.cons.inj heq
  -- The clause begins with its keyword.
  obtain ⟨start, rfl, -⟩ := hstart.exists_leaf
  have hthen : DerivesAll (Rule.opt true (.token .kwThen)) [.leaf th] := .cons (hth ▸ .leaf th) .nil
  have hnone : DerivesAll (Rule.opt false (.token .kwThen)) [] := .nil
  refine ⟨by simp [← hspans, hw.tokens_eq, Tree.tokens, allTokens], ?_⟩
  have hw : Within (.node (.clause isIf false b) (.leaf start :: condition :: ([] ++ rest))) t
    pre post := hw
  exact codeOf_clause haccepted hnone hthen hw (by simp [allTokens, Tree.tokens])

end Accepted

/-- **An `elsif` is a conditional in an else clause, and a `then` makes no difference.** In accepted
tokens, let the word of an `elsif` give way to an ELSE and an IF, and put an END before the one that
closes the conditional. What results is accepted, and compiled to the same operations, so that types
and values are the same. And if a `then` is taken out, or put behind a condition that has none, not
even a position changes. -/
theorem elsif_is_nested (haccepted : treeOf ⟨tokens, none⟩ = .ok t) :
    (∀ pre e post els iff fin, tokens = pre ++ e :: post → e.kind = .kwElsif → els.kind = .kwElse →
      iff.kind = .kwIf → fin.kind = .kwEnd →
      CompiledAlike tokens (pre ++ els :: iff :: closeBefore fin 0 post)) ∧
    (∀ pre th post, tokens = pre ++ th :: post → th.kind = .kwThen →
      (∃ t', treeOf ⟨pre ++ post, none⟩ = .ok t') ∧ codeOf (pre ++ post) = codeOf tokens) ∧
    ∀ pre th post, AwaitsThen t pre post → th.kind = .kwThen → pre ++ post = tokens ∧
      (∃ t', treeOf ⟨pre ++ th :: post, none⟩ = .ok t') ∧
        codeOf (pre ++ th :: post) = codeOf tokens :=
  -- The rewriting of an elsif, then the two laws of then.
  ⟨fun _ _ _ _ _ _ htokens h hels hiff hfin =>
      compiledAlike_elsif haccepted htokens h hels hiff hfin,
    fun _ _ _ htokens hth => codeOf_without_then haccepted htokens hth,
    fun _ _ _ h hth => codeOf_with_then haccepted h hth⟩

namespace Sample

/-- A conditional with an `elsif`, before the word and after it. -/
def beforeElsif : List Token :=
  [⟨.kwIf, "if", ⟨1, 1⟩⟩, ⟨.kwNil, "nil", ⟨1, 4⟩⟩, ⟨.kwThen, "then", ⟨1, 8⟩⟩, ⟨.int, "1", ⟨1, 13⟩⟩]

def afterElsif : List Token := [⟨.int, "2", ⟨1, 21⟩⟩, ⟨.kwEnd, "end", ⟨1, 23⟩⟩]

def clauses : List Token := beforeElsif ++ ⟨.kwElsif, "elsif", ⟨1, 15⟩⟩ :: afterElsif

/-- The clause, whose condition has no `then` after it. -/
def elsifTree : Tree :=
  .node (.elsifClause false false) [.leaf ⟨.kwElsif, "elsif", ⟨1, 15⟩⟩,
    operand .integer ⟨.int, "2", ⟨1, 21⟩⟩, .node .emptyBody []]

def clausesTree : Tree :=
  programOf (.node .expr [.node .singleTerm [.node .singleChain [.node .singlePrimary [
    .node .primaryConditional [.node (.conditional true true) [.leaf ⟨.kwIf, "if", ⟨1, 1⟩⟩,
      operand .nil ⟨.kwNil, "nil", ⟨1, 4⟩⟩, .leaf ⟨.kwThen, "then", ⟨1, 8⟩⟩,
      .node (.body false false false) [
        .node .exprStatement [operand .integer ⟨.int, "1", ⟨1, 13⟩⟩]],
      elsifTree, .leaf ⟨.kwEnd, "end", ⟨1, 23⟩⟩]]]]]])

theorem treeOf_clauses : treeOf ⟨clauses, none⟩ = .ok clausesTree :=
  treeOf_eq_ok_iff.mpr ⟨derives_of_follows _ (by decide +kernel), by decide +kernel⟩

/-- A word that is put between other tokens. -/
def word (kind : TokenKind) (text : String) : Token := ⟨kind, text, .start⟩

theorem awaitsThen_clauses : AwaitsThen clausesTree
    (beforeElsif ++ [⟨.kwElsif, "elsif", ⟨1, 15⟩⟩, ⟨.int, "2", ⟨1, 21⟩⟩])
    [⟨.kwEnd, "end", ⟨1, 23⟩⟩] := by
  refine ⟨false, false, .leaf ⟨.kwElsif, "elsif", ⟨1, 15⟩⟩, operand .integer ⟨.int, "2", ⟨1, 21⟩⟩,
    [.node .emptyBody []], beforeElsif, [⟨.kwEnd, "end", ⟨1, 23⟩⟩], ?_, rfl, rfl⟩
  have only {u v : Tree} {r : Rule} {pre post : List Token} (h : Within u v pre post) :
      Within u (.node r [v]) pre post := by
    have hchild := @Within.child u r [] [] v pre post h
    rwa [allTokens, List.append_nil] at hchild
  exact only (only (only (only (only (only (only (only
    (@Within.child _ _ [_, _, _, _] [_] _ _ _ .refl))))))))

end Sample

open Syntax.Sample in
/-- The `elsif` of a text written out, the `then` before it taken out, and another one put in. -/
theorem elsif_is_nested_clauses :
    Program.code "if nil then 1 elsif 2 end" = codeOf clauses ∧
    CompiledAlike clauses (beforeElsif ++ word .kwElse "else" :: word .kwIf "if" ::
      closeBefore (word .kwEnd "end") 0 afterElsif) ∧
    codeOf (beforeElsif.take 2 ++
      (beforeElsif.drop 3 ++ ⟨.kwElsif, "elsif", ⟨1, 15⟩⟩ :: afterElsif)) = codeOf clauses ∧
    codeOf (beforeElsif ++ [⟨.kwElsif, "elsif", ⟨1, 15⟩⟩, ⟨.int, "2", ⟨1, 21⟩⟩] ++
      word .kwThen "then" :: [⟨.kwEnd, "end", ⟨1, 23⟩⟩]) = codeOf clauses := by
  -- The three laws at one program, each at the clause it is about.
  obtain ⟨helsif, hwithout, hwith⟩ := elsif_is_nested treeOf_clauses
  obtain ⟨-, hcode⟩ := hwithout (beforeElsif.take 2) ⟨.kwThen, "then", ⟨1, 8⟩⟩ _ rfl rfl
  obtain ⟨-, -, hcode'⟩ := hwith _ (word .kwThen "then") _ awaitsThen_clauses rfl
  exact ⟨code_eq_codeOf (by rfl), helsif _ _ _ _ _ _ rfl rfl rfl rfl rfl, hcode, hcode'⟩

end Syntax

end Rubylet
