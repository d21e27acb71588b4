import Mathlib.Data.List.Forall2
import Rubylet.Proofs.Syntax.Reading

/-!
# Replacing a part of a tree

A part of a derivation may give way to another derivation of the same symbol. What the whole stands
for then changes no more than what the part stands for.

How much that is, a `Likeness` says: a relation of pieces of syntax that goes from their parts to
the pieces themselves. `Replaces` says that one tree may stand where another one stands.

* `Likeness.node`: what holds of the parts of a node holds of the node.
* `Likeness.exists_within`: a part can be replaced however deep it lies, and no token around it
  changes.
* `Replaces.ofTree_cases`: both programs are read, as statements that are alike, or both are refused
  for the same reason.
-/

namespace Rubylet.Syntax

open Rubylet.Tree

/-! ### Likenesses -/

/-- A relation of pieces of syntax that goes from parts to wholes. Another relation says where
bodies may begin instead. -/
structure Likeness (R : Node → Node → Prop) (S : Option Pos → Option Pos → Prop) : Prop where
  refl (x : Node) : R x x
  startRefl (a : Option Pos) : S a a
  startOr {a a' b b' : Option Pos} : S a a' → S b b' → S (a.or b) (a'.or b')
  block (pos : Pos) {a a' : Option Pos} {xs ys : List Node} : S a a' → List.Forall₂ R xs ys →
    R (.block (a.getD pos) xs) (.block (a'.getD pos) ys)
  call (pos : Pos) (name : String) {receiver receiver' : Option Node} {xs ys : List Node} :
    Option.Rel R receiver receiver' → List.Forall₂ R xs ys →
    R (.call pos receiver name xs) (.call pos receiver' name ys)
  methodDef (pos : Pos) (name : String) (params : List Param) {body body' : Node} : R body body' →
    R (.methodDef pos name params (some body)) (.methodDef pos name params (some body'))
  classDef (pos : Pos) (name : String) {body body' : Node} : R body body' →
    R (.classDef pos name body) (.classDef pos name body')
  conditional (pos : Pos) {condition condition' body body' : Node} {other? other?' : Option Node} :
    R condition condition' → R body body' → Option.Rel R other? other?' →
    R (.conditional pos condition (some body) other?)
      (.conditional pos condition' (some body') other?')
  assign (pos : Pos) (name : String) {value value' : Node} : R value value' →
    R (.assign pos name value) (.assign pos name value')

/-- The names among some tokens. -/
def namesIn (tokens : List Token) : List Token := tokens.filter fun t => t.kind = .name

/-- The second tree may stand where the first one stands. -/
structure Replaces (R : Node → Node → Prop) (S : Option Pos → Option Pos → Prop) (t t' : Tree) :
    Prop where
  derives {s : Symbol} : Derives s t → Derives s t'
  leaf {token : Token} : t = .leaf token → t' = t
  names : namesIn t'.tokens = namesIn t.tokens
  start : S t.start? t'.start?
  faults : faults t' = faults t
  reads {scope scope' : Scope} {xs : List Node} : Reads scope t xs scope' →
    ∃ ys, Reads scope t' ys scope' ∧ List.Forall₂ R xs ys

variable {R : Node → Node → Prop} {S : Option Pos → Option Pos → Prop} {scope scope' : Scope}
  {r : Rule} {token : Token} {t t' u u' : Tree} {ts ts' us : List Tree} {xs ys : List Node}

theorem nameTokens_singleton (t : Tree) : nameTokens [t] = namesIn t.tokens := by
  rw [nameTokens, allTokens, allTokens, List.append_nil]
  rfl

theorem allFaults_append (ts us : List Tree) :
    allFaults (ts ++ us) = allFaults ts ++ allFaults us := by
  induction ts with
  | nil => rfl
  | cons t ts ih => rw [List.cons_append, allFaults, allFaults, ih, List.append_assoc]

theorem rel_head (h : List.Forall₂ R xs ys) : Option.Rel R xs.head? ys.head? := by
  cases h with
  | nil => exact .none
  | cons hx _ => exact .some hx

/-- Lists that are related to a concatenation fall into two parts as well. -/
theorem exists_of_append {α β : Type} {R : α → β → Prop} {xs ys : List α} {zs : List β}
    (h : List.Forall₂ R (xs ++ ys) zs) : ∃ us vs, zs = us ++ vs ∧ us.length = xs.length ∧
      List.Forall₂ R xs us ∧ List.Forall₂ R ys vs := by
  induction xs generalizing zs with
  | nil => exact ⟨[], zs, rfl, rfl, .nil, h⟩
  | cons x xs ih =>
    obtain ⟨u, us, hu, hus, rfl⟩ := List.forall₂_cons_left_iff.mp h
    obtain ⟨us, vs, rfl, hlength, hus, hvs⟩ := ih hus
    exact ⟨u :: us, vs, rfl, congrArg (· + 1) hlength, .cons hu hus, hvs⟩

/-! ### All parts at once -/

section Parts

variable (h : List.Forall₂ (Replaces R S) ts ts')

include h

/-- Replaced parts are derived by the same symbols. -/
theorem derivesAll_of_replaces {ss : List Symbol} (hts : DerivesAll ss ts) : DerivesAll ss ts' := by
  induction h generalizing ss with
  | nil => exact hts
  | cons ht _ ih =>
    cases hts with
    | cons hu hus => exact .cons (ht.derives hu) (ih hus)

/-- Replaced parts have the same names in them. -/
theorem namesIn_of_replaces : namesIn (allTokens ts') = namesIn (allTokens ts) := by
  induction h with
  | nil => rfl
  | cons ht _ ih =>
    rw [allTokens, allTokens, namesIn, namesIn, List.filter_append, List.filter_append]
    exact congrArg₂ (· ++ ·) ht.names ih

theorem allFaults_of_replaces : allFaults ts' = allFaults ts := by
  induction h with
  | nil => rfl
  | cons ht _ ih => rw [allFaults, allFaults, ht.faults, ih]

/-- A replacement starts where the likeness says. -/
theorem firstStart_of_replaces (L : Likeness R S) : S (firstStart? ts) (firstStart? ts') := by
  induction h with
  | nil => exact L.startRefl none
  | cons ht _ ih => exact L.startOr ht.start ih

theorem readsAll_of_replaces (hread : ReadsAll scope ts xs scope') :
    ∃ ys, ReadsAll scope ts' ys scope' ∧ List.Forall₂ R xs ys := by
  induction h generalizing scope xs with
  | nil =>
    cases hread
    exact ⟨[], .nil _, .nil⟩
  | cons ht _ ih =>
    cases hread with
    | cons hx hxs =>
      -- The replacement leaves the same scope, so the rest is read as before.
      obtain ⟨ys, hys, hlike⟩ := ht.reads hx
      obtain ⟨zs, hzs, hlike'⟩ := ih hxs
      exact ⟨ys ++ zs, .cons hys hzs, List.rel_append hlike hlike'⟩

/-- A replacement leaves the parameters as they are. -/
theorem parameterFaults_of_replaces (r : Rule) : parameterFaults r ts' = parameterFaults r ts := by
  -- Only a definition with three parts before its body can have faults, and the third of them holds
  -- the names.
  rcases h with _ | ⟨_, _ | ⟨_, _ | ⟨hlist, _⟩⟩⟩
  case cons.cons.cons =>
    cases r
    case methodDef hasParams =>
      cases hasParams
      · rfl
      · show repeated [] (nameTokens _) = repeated [] (nameTokens _)
        rw [nameTokens_singleton, nameTokens_singleton, hlist.names]
    all_goals rfl
  all_goals
    cases r
    case methodDef hasParams => cases hasParams <;> rfl
    all_goals rfl

end Parts

/-- A token is replaced by itself. -/
theorem exists_of_leaf (h : List.Forall₂ (Replaces R S) (.leaf token :: ts) ts') :
    ∃ us, ts' = .leaf token :: us ∧ List.Forall₂ (Replaces R S) ts us := by
  obtain ⟨t', us, ht, hus, rfl⟩ := List.forall₂_cons_left_iff.mp h
  exact ⟨us, by rw [ht.leaf rfl], hus⟩

/-- The parts of a conditional keep their places. -/
theorem exists_of_parts {start : Token} {condition body : Tree} {thens others : List Tree}
    (h : List.Forall₂ (Replaces R S) (.leaf start :: condition :: (thens ++ body :: others)) ts') :
    ∃ condition' thens' body' others',
      ts' = .leaf start :: condition' :: (thens' ++ body' :: others') ∧
      thens'.length = thens.length ∧ Replaces R S condition condition' ∧ Replaces R S body body' ∧
        List.Forall₂ (Replaces R S) others others' := by
  obtain ⟨us, rfl, h₁⟩ := exists_of_leaf h
  obtain ⟨condition', _, hcondition, h₂, rfl⟩ := List.forall₂_cons_left_iff.mp h₁
  obtain ⟨thens', _, rfl, hlength, -, h₃⟩ := exists_of_append h₂
  obtain ⟨body', others', hbody, hothers, rfl⟩ := List.forall₂_cons_left_iff.mp h₃
  exact ⟨condition', thens', body', others', rfl, hlength, hcondition, hbody, hothers⟩

namespace Likeness

theorem forall_refl (L : Likeness R S) (xs : List Node) : List.Forall₂ R xs xs :=
  List.forall₂_same.mpr fun x _ => L.refl x

/-- Every tree may stand where it stands. -/
theorem replaces_refl (L : Likeness R S) (t : Tree) : Replaces R S t t where
  derives h := h
  leaf _ := rfl
  names := rfl
  start := L.startRefl _
  faults := rfl
  reads h := ⟨_, h, L.forall_refl _⟩

/-- Blocks are alike when their statements and their places are. -/
theorem blockAt (L : Likeness R S) (h : Replaces R S t t') (pos : Pos)
    (hlike : List.Forall₂ R xs ys) : R (blockAt pos t xs) (blockAt pos t' ys) :=
  L.block pos h.start hlike

/-- What a node stands for is like what it stands for with its parts replaced. -/
theorem reads (L : Likeness R S) (h : List.Forall₂ (Replaces R S) ts ts')
    (hread : Reads scope (.node r ts) xs scope') :
    ∃ ys, Reads scope (.node r ts') ys scope' ∧ List.Forall₂ R xs ys := by
  have hsame := hread
  -- The rule says how many parts there are and which of them are tokens, and tokens are kept.
  cases hread with
  | pass hr hts =>
    obtain ⟨ys, hys, hlike⟩ := readsAll_of_replaces h hts
    exact ⟨ys, .pass hr hys, hlike⟩
  | integer | text | nil | constant | known | unknown =>
    obtain ⟨_, rfl, ⟨⟩⟩ := exists_of_leaf h
    exact ⟨_, hsame, L.forall_refl _⟩
  | call hargs =>
    obtain ⟨_, rfl, h₁⟩ := exists_of_leaf h
    obtain ⟨args', _, hargs', ⟨⟩, rfl⟩ := List.forall₂_cons_left_iff.mp h₁
    obtain ⟨ys, hys, hlike⟩ := hargs'.reads hargs
    exact ⟨_, .call hys, .cons (L.call _ _ .none hlike) .nil⟩
  | binary hr hleft hright =>
    obtain ⟨left', _, hl, h₁, rfl⟩ := List.forall₂_cons_left_iff.mp h
    obtain ⟨_, rfl, h₂⟩ := exists_of_leaf h₁
    obtain ⟨right', _, hr', ⟨⟩, rfl⟩ := List.forall₂_cons_left_iff.mp h₂
    obtain ⟨_, hx, _ | ⟨hlike, ⟨⟩⟩⟩ := hl.reads hleft
    obtain ⟨_, hy, _ | ⟨hlike', ⟨⟩⟩⟩ := hr'.reads hright
    exact ⟨_, .binary hr hx hy, .cons (L.call _ _ (.some hlike) (.cons hlike' .nil)) .nil⟩
  | message hreceiver hargs =>
    obtain ⟨receiver', _, hr, h₁, rfl⟩ := List.forall₂_cons_left_iff.mp h
    obtain ⟨_, rfl, h₂⟩ := exists_of_leaf h₁
    obtain ⟨_, rfl, h₃⟩ := exists_of_leaf h₂
    obtain ⟨_, hx, _ | ⟨hlike, ⟨⟩⟩⟩ := hr.reads hreceiver
    obtain ⟨ys, hys, hlike'⟩ := readsAll_of_replaces h₃ hargs
    exact ⟨_, .message hx hys, .cons (L.call _ _ (.some hlike) hlike') .nil⟩
  | conditional thens hts hlength hcondition hbody hothers =>
    subst hts
    obtain ⟨condition', thens', body', others', rfl, hlength', hc, hb, ho⟩ := exists_of_parts h
    obtain ⟨_, hx, _ | ⟨hlike, ⟨⟩⟩⟩ := hc.reads hcondition
    obtain ⟨ys, hys, hlike'⟩ := hb.reads hbody
    obtain ⟨blocks', hblocks, hlike''⟩ := readsAll_of_replaces ho hothers
    exact ⟨_, .conditional thens' rfl (hlength'.trans hlength) hx hys hblocks,
      .cons (L.conditional _ hlike (L.blockAt hb _ hlike') (rel_head hlike'')) .nil⟩
  | elsifClause thens hts hlength hcondition hbody hothers =>
    subst hts
    obtain ⟨condition', thens', body', others', rfl, hlength', hc, hb, ho⟩ := exists_of_parts h
    obtain ⟨_, hx, _ | ⟨hlike, ⟨⟩⟩⟩ := hc.reads hcondition
    obtain ⟨ys, hys, hlike'⟩ := hb.reads hbody
    obtain ⟨blocks', hblocks, hlike''⟩ := readsAll_of_replaces ho hothers
    refine ⟨_, .elsifClause thens' rfl (hlength'.trans hlength) hx hys hblocks, .cons ?_ .nil⟩
    exact L.block .start (L.startRefl (some _))
      (.cons (L.conditional _ hlike (L.blockAt hb _ hlike') (rel_head hlike'')) .nil)
  | elseClause hbody =>
    obtain ⟨_, rfl, h₁⟩ := exists_of_leaf h
    obtain ⟨body', _, hb, ⟨⟩, rfl⟩ := List.forall₂_cons_left_iff.mp h₁
    obtain ⟨ys, hys, hlike⟩ := hb.reads hbody
    exact ⟨_, .elseClause hys, .cons (L.blockAt hb _ hlike) .nil⟩
  | methodDef lists hts hlength hnodup hbody =>
    subst hts
    obtain ⟨_, rfl, h₁⟩ := exists_of_leaf h
    obtain ⟨_, rfl, h₂⟩ := exists_of_leaf h₁
    obtain ⟨lists', _, rfl, hlength', hlists, h₃⟩ := exists_of_append h₂
    obtain ⟨body', _, hb, h₄, rfl⟩ := List.forall₂_cons_left_iff.mp h₃
    obtain ⟨_, rfl, ⟨⟩⟩ := exists_of_leaf h₄
    obtain ⟨ys, hys, hlike⟩ := hb.reads hbody
    have hnames : nameTokens lists' = nameTokens lists := namesIn_of_replaces hlists
    rw [← hnames] at hys hnodup ⊢
    exact ⟨_, .methodDef lists' rfl (hlength'.trans hlength) hnodup hys,
      .cons (L.methodDef _ _ _ (L.blockAt hb _ hlike)) .nil⟩
  | classDef hbody =>
    obtain ⟨_, rfl, h₁⟩ := exists_of_leaf h
    obtain ⟨_, rfl, h₂⟩ := exists_of_leaf h₁
    obtain ⟨body', _, hb, h₃, rfl⟩ := List.forall₂_cons_left_iff.mp h₂
    obtain ⟨_, rfl, ⟨⟩⟩ := exists_of_leaf h₃
    obtain ⟨ys, hys, hlike⟩ := hb.reads hbody
    exact ⟨_, .classDef hys, .cons (L.classDef _ _ (L.blockAt hb _ hlike)) .nil⟩
  | assign hvalue =>
    obtain ⟨_, rfl, h₁⟩ := exists_of_leaf h
    obtain ⟨_, rfl, h₂⟩ := exists_of_leaf h₁
    obtain ⟨value', _, hv, ⟨⟩, rfl⟩ := List.forall₂_cons_left_iff.mp h₂
    obtain ⟨_, hx, _ | ⟨hlike, ⟨⟩⟩⟩ := hv.reads hvalue
    exact ⟨_, .assign hx, .cons (L.assign _ _ hlike) .nil⟩

/-- **A rule keeps what its parts keep.** -/
theorem node (L : Likeness R S) (h : List.Forall₂ (Replaces R S) ts ts') :
    Replaces R S (.node r ts) (.node r ts') where
  derives hs := by
    obtain ⟨rfl, hts⟩ := derives_node_iff.mp hs
    exact .node r ts' (derivesAll_of_replaces h hts)
  leaf := nofun
  names := namesIn_of_replaces h
  start := firstStart_of_replaces h L
  faults := by
    rw [Syntax.faults, Syntax.faults, parameterFaults_of_replaces h, allFaults_of_replaces h]
  reads := L.reads h

end Likeness

/-! ### A part inside a tree -/

/-- A part of a tree, with the tokens before it and the tokens after it. -/
inductive Within (u : Tree) : Tree → List Token → List Token → Prop
  | refl : Within u u [] []
  | child {r : Rule} {ts us : List Tree} {v : Tree} {pre post : List Token} : Within u v pre post →
      Within u (.node r (ts ++ v :: us)) (allTokens ts ++ pre) (post ++ allTokens us)

variable {pre post : List Token}

/-- The tokens of a tree are those of the part, between those before and behind it. -/
theorem Within.tokens_eq (h : Within u t pre post) : t.tokens = pre ++ (u.tokens ++ post) := by
  induction h with
  | refl => rw [List.nil_append, List.append_nil]
  | child _ ih => simp only [Tree.tokens, allTokens_append, allTokens, ih, List.append_assoc]

/-- A tree in a list has a symbol of its own, with symbols for the trees around it. -/
theorem derivesAll_of_append {ss : List Symbol} (h : DerivesAll ss (ts ++ u :: us)) :
    ∃ ss₁ s ss₂, ss = ss₁ ++ s :: ss₂ ∧ DerivesAll ss₁ ts ∧ Derives s u ∧ DerivesAll ss₂ us := by
  induction ts generalizing ss with
  | nil =>
    cases h with
    | cons hu hus => exact ⟨[], _, _, rfl, .nil, hu, hus⟩
  | cons t ts ih =>
    cases h with
    | cons ht hts =>
      obtain ⟨ss₁, s, ss₂, rfl, h₁, hu, h₂⟩ := ih hts
      exact ⟨_ :: ss₁, s, ss₂, rfl, .cons ht h₁, hu, h₂⟩

/-- A part of a derivation is a derivation. -/
theorem Within.derives (h : Within u t pre post) {s : Symbol} (ht : Derives s t) :
    ∃ s', Derives s' u := by
  induction h generalizing s with
  | refl => exact ⟨s, ht⟩
  | child _ ih =>
    obtain ⟨-, hts⟩ := derives_node_iff.mp ht
    obtain ⟨-, s', -, -, -, hv, -⟩ := derivesAll_of_append hts
    exact ih hv

/-- **A part can be replaced**, however deep it lies. -/
theorem Likeness.exists_within (L : Likeness R S) (h : Within u t pre post)
    (hu : Replaces R S u u') :
    ∃ t', Replaces R S t t' ∧ t'.tokens = pre ++ (u'.tokens ++ post) := by
  induction h with
  | refl => exact ⟨u', hu, by rw [List.nil_append, List.append_nil]⟩
  | @child r ts us v pre post _ ih =>
    obtain ⟨v', hv', htokens⟩ := ih
    -- The other parts of the node replace themselves.
    refine ⟨.node r (ts ++ v' :: us), L.node ?_, ?_⟩
    · have hsame (ts : List Tree) : List.Forall₂ (Replaces R S) ts ts :=
        List.forall₂_same.mpr fun t _ => L.replaces_refl t
      exact List.rel_append (hsame ts) (.cons hv' (hsame us))
    · simp only [Tree.tokens, allTokens_append, allTokens, htokens, List.append_assoc]

/-! ### Programs -/

/-- **Programs of which one replaces the other are read alike**, or refused for one reason. -/
theorem Replaces.ofTree_cases (h : Replaces R S t t') (ht : Derives (.phrase .program) t) :
    (∃ xs ys, ofTree t = .ok (.block .start xs) ∧ ofTree t' = .ok (.block .start ys) ∧
      List.Forall₂ R xs ys) ∨
    ∃ e, ofTree t = .error e ∧ ofTree t' = .error e := by
  have hread := ofTree_of_derives ht
  have hread' := ofTree_of_derives (h.derives ht)
  rw [h.faults] at hread'
  cases hfaults : Syntax.faults t with
  | cons e es =>
    rw [hfaults] at hread hread'
    exact .inr ⟨e, hread, hread'⟩
  | nil =>
    rw [hfaults] at hread hread'
    obtain ⟨_, hroot, xs, scope, hxs, rfl⟩ := hread
    obtain ⟨_, hroot', zs, scope', hzs, rfl⟩ := hread'
    obtain ⟨ys, hys, hlike⟩ := h.reads hxs
    -- A tree is read in one way only.
    obtain ⟨rfl, -⟩ := hys.unique hzs
    exact .inl ⟨xs, ys, hroot, hroot', hlike⟩

end Rubylet.Syntax
