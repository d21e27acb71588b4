import Rubylet.Proofs.Syntax.Reading

/-!
# How operators group

There are no parentheses around expressions, so how an expression groups can be told from its tokens.
An expression is operands with operators between them. `Joined` says that operators of some kinds
group to the left, whatever the operands are; nested twice, it says of an expression that products
are joined to sums, and chains of messages to products (`grouped_of_reads`).
-/

namespace Rubylet.Syntax

open Rubylet.Tree

/-- Some tokens, and the syntax they stand for. -/
structure Spelled where
  tokens : List Token
  node : Node

/-- Operands with operators between them, grouped to the left. -/
def Spelled.chain (first : Spelled) (rest : List (Token × Spelled)) : Spelled where
  tokens := first.tokens ++ rest.flatMap fun (op, w) => op :: w.tokens
  node := rest.foldl (fun x (op, w) => .call op.pos (some x) op.text [w.node]) first.node

/-- Is it operands of one sort, with operators of some kinds between them? -/
def Joined (kinds : List TokenKind) (operand : Spelled → Prop) (w : Spelled) : Prop :=
  ∃ first rest, w = first.chain rest ∧ operand first ∧
    ∀ next ∈ rest, next.1.kind ∈ kinds ∧ operand next.2

/-- A message after a dot: its name, and what stands behind the name. -/
structure Message where
  dot : Token
  name : Token
  tokens : List Token
  args : List Node

/-- Messages that are sent one after the other. -/
def Spelled.send (first : Spelled) (messages : List Message) : Spelled where
  tokens := first.tokens ++ messages.flatMap fun m => m.dot :: m.name :: m.tokens
  node := messages.foldl (fun x m => .call m.name.pos (some x) m.name.text m.args) first.node

/-- Is it a primary expression? -/
def IsPrimary (w : Spelled) : Prop :=
  ∃ t scope scope', Derives (.phrase .primary) t ∧ t.tokens = w.tokens ∧
    Reads scope t [w.node] scope'

/-- Is what stands behind the name of a message nothing, or arguments in parentheses? -/
def Message.IsSent (m : Message) : Prop :=
  m.dot.kind = .dot ∧ m.name.kind = .name ∧ (m.tokens = [] ∧ m.args = [] ∨
    ∃ t scope scope', Derives (.phrase .callArgs) t ∧ t.tokens = m.tokens ∧
      Reads scope t m.args scope')

/-- Is it a primary expression and the messages sent to it? -/
def IsChain (w : Spelled) : Prop :=
  ∃ first messages, w = first.send messages ∧ IsPrimary first ∧ ∀ m ∈ messages, m.IsSent

/-- Is it chains, joined to products, joined to a sum? -/
def IsSum : Spelled → Prop := Joined [.plus, .minus] (Joined [.star, .slash] IsChain)

variable {kinds : List TokenKind} {operand : Spelled → Prop} {ts us : List Token} {x y : Node}

theorem Joined.one {w : Spelled} (h : operand w) : Joined kinds operand w :=
  ⟨w, [], by simp [Spelled.chain], h, nofun⟩

/-- One more operand is joined to all that is before it. -/
theorem Joined.more (op : Token) (h : Joined kinds operand ⟨ts, x⟩) (hop : op.kind ∈ kinds)
    (hy : operand ⟨us, y⟩) :
    Joined kinds operand ⟨ts ++ op :: us, .call op.pos (some x) op.text [y]⟩ := by
  obtain ⟨first, rest, heq, hfirst, hrest⟩ := h
  obtain ⟨rfl, rfl⟩ := Spelled.mk.inj heq
  refine ⟨first, rest ++ [(op, ⟨us, y⟩)], by simp [Spelled.chain], hfirst, ?_⟩
  intro next hnext
  rcases List.mem_append.mp hnext with hnext | hnext
  · exact hrest next hnext
  · obtain rfl := List.mem_singleton.mp hnext
    exact ⟨hop, hy⟩

/-- A chain with one more message is a chain. -/
theorem IsChain.send {m : Message} (h : IsChain ⟨ts, x⟩) (hm : m.IsSent) :
    IsChain ⟨ts ++ m.dot :: m.name :: m.tokens,
      .call m.name.pos (some x) m.name.text m.args⟩ := by
  obtain ⟨first, messages, heq, hfirst, hmessages⟩ := h
  obtain ⟨rfl, rfl⟩ := Spelled.mk.inj heq
  refine ⟨first, messages ++ [m], by simp [Spelled.send], hfirst, ?_⟩
  intro m' hm'
  rcases List.mem_append.mp hm' with hm' | hm'
  · exact hmessages m' hm'
  · obtain rfl := List.mem_singleton.mp hm'
    exact hm

theorem ReadsAll.of_singleton {scope scope' : Scope} {t : Tree} {xs : List Node}
    (h : ReadsAll scope [t] xs scope') : Reads scope t xs scope' := by
  cases h with
  | cons ht hts =>
    cases hts
    rwa [List.append_nil]

/-- Messages are sent from the left. -/
theorem isChain_of_reads {t : Tree} (h : Derives (.phrase .chain) t) {scope scope' : Scope}
    {x : Node} (hx : Reads scope t [x] scope') : IsChain ⟨t.tokens, x⟩ := by
  -- The rule of a chain is left recursive, so the last message is the root and the receiver a chain
  -- again.
  induction t using Tree.induction_parts generalizing scope scope' x with
  | leaf token => exact absurd h not_derives_leaf
  | node r ts ih =>
    obtain ⟨hr, hts⟩ := derives_node_iff.mp h
    cases r <;> cases hr
    case singlePrimary.refl =>
      obtain ⟨u, rfl, hu⟩ := derivesAll_singleton_iff.mp hts
      cases hx with
      | pass _ hread =>
        refine ⟨⟨u.tokens, x⟩, [], ?_, ⟨u, scope, scope', hu, rfl, hread.of_singleton⟩,
          List.forall_mem_nil _⟩
        simp [Spelled.send, Tree.tokens, allTokens]
    case message.refl hasArgs =>
      cases hasArgs <;>
        simp only [Rule.symbols, Rule.opt, if_true, Bool.false_eq_true, if_false, List.cons_append,
          List.nil_append, derivesAll_cons_iff, derivesAll_nil_iff, derives_token_iff] at hts
      · obtain ⟨receiver, _, rfl, hreceiver, _, _, rfl, ⟨dot, rfl, hdot⟩, _, _, rfl,
          ⟨name, rfl, hname⟩, rfl⟩ := hts
        cases hx with
        | pass hr => cases hr
        | binary hr => cases hr
        | message hread hargs =>
          cases hargs
          have hchain := (ih receiver (.head _) hreceiver hread).send
            (m := ⟨dot, name, [], []⟩) ⟨hdot, hname, .inl ⟨rfl, rfl⟩⟩
          simpa [Tree.tokens, allTokens] using hchain
      · obtain ⟨receiver, _, rfl, hreceiver, _, _, rfl, ⟨dot, rfl, hdot⟩, _, _, rfl,
          ⟨name, rfl, hname⟩, args, _, rfl, hargs, rfl⟩ := hts
        cases hx with
        | pass hr => cases hr
        | @message _ scope₁ _ _ _ _ _ _ x xs hread hreads =>
          have hchain := (ih receiver (.head _) hreceiver hread).send
            (m := ⟨dot, name, args.tokens, xs⟩)
            ⟨hdot, hname, .inr ⟨args, scope₁, scope', hargs, rfl, hreads.of_singleton⟩⟩
          simpa [Tree.tokens, allTokens] using hchain

/-- Factors are grouped from the left, below the sums. -/
theorem isProduct_of_reads {t : Tree} (h : Derives (.phrase .term) t) {scope scope' : Scope}
    {x : Node} (hx : Reads scope t [x] scope') :
    Joined [.star, .slash] IsChain ⟨t.tokens, x⟩ := by
  induction t using Tree.induction_parts generalizing scope scope' x with
  | leaf token => exact absurd h not_derives_leaf
  | node r ts ih =>
    obtain ⟨hr, hts⟩ := derives_node_iff.mp h
    cases r <;> cases hr
    case singleChain.refl =>
      obtain ⟨u, rfl, hu⟩ := derivesAll_singleton_iff.mp hts
      cases hx with
      | pass _ hread =>
        have hchain := isChain_of_reads hu hread.of_singleton
        simpa [Tree.tokens, allTokens] using Joined.one hchain
    -- The left operand is a product again, and the right one is a chain.
    all_goals
      simp only [Rule.symbols, derivesAll_cons_iff, derivesAll_nil_iff, derives_token_iff] at hts
      obtain ⟨left, _, rfl, hleft, _, _, rfl, ⟨op, rfl, hop⟩, right, _, rfl, hright, rfl⟩ := hts
      cases hx with
      | pass hr => cases hr
      | binary _ hreadl hreadr =>
        have hjoined := (ih left (.head _) hleft hreadl).more op (by simp [hop])
          (isChain_of_reads hright hreadr)
        simpa [Tree.tokens, allTokens] using hjoined

/-- Terms are grouped from the left. -/
theorem isSum_of_reads {t : Tree} (h : Derives (.phrase .sum) t) {scope scope' : Scope}
    {x : Node} (hx : Reads scope t [x] scope') : IsSum ⟨t.tokens, x⟩ := by
  -- On the tree: the sum on the left is a smaller one.
  induction t using Tree.induction_parts generalizing scope scope' x with
  | leaf token => exact absurd h not_derives_leaf
  | node r ts ih =>
    obtain ⟨hr, hts⟩ := derives_node_iff.mp h
    cases r <;> cases hr
    case singleTerm.refl =>
      obtain ⟨u, rfl, hu⟩ := derivesAll_singleton_iff.mp hts
      cases hx with
      | pass _ hread =>
        have hproduct := isProduct_of_reads hu hread.of_singleton
        simpa [IsSum, Tree.tokens, allTokens] using Joined.one hproduct
    all_goals
      simp only [Rule.symbols, derivesAll_cons_iff, derivesAll_nil_iff, derives_token_iff] at hts
      obtain ⟨left, _, rfl, hleft, _, _, rfl, ⟨op, rfl, hop⟩, right, _, rfl, hright, rfl⟩ := hts
      cases hx with
      | pass hr => cases hr
      | binary _ hreadl hreadr =>
        -- The operator joins the sum on its left with the term on its right.
        have hjoined := Joined.more op (ih left (.head _) hleft hreadl) (by simp [hop])
          (isProduct_of_reads hright hreadr)
        simpa [IsSum, Tree.tokens, allTokens] using hjoined

/-- **Messages bind tighter than products, and products tighter than sums.** -/
theorem grouped_of_reads {t : Tree} (h : Derives (.phrase .expr) t) {scope scope' : Scope}
    {x : Node} (hx : Reads scope t [x] scope') : IsSum ⟨t.tokens, x⟩ := by
  obtain ⟨r, ts, rfl, hr, hts⟩ := h.exists_node
  cases r <;> cases hr
  obtain ⟨u, rfl, hu⟩ := derivesAll_singleton_iff.mp hts
  cases hx with
  | pass _ hread =>
    have hsum := isSum_of_reads hu hread.of_singleton
    simpa [Tree.tokens, allTokens] using hsum

end Rubylet.Syntax
