import Mathlib.Tactic.Conv
import Rubylet.Grammar.Parse
import Rubylet.Proofs.Grammar.Table

/-!
# The parser accepts the grammar

A list of tokens is parsed to a tree just in case the tree follows the grammar and spans the tokens
(`tree_eq_ok_iff`). So no list of tokens has two trees (`Derives.unique`).

* What is parsed follows the grammar: the stack is a path of the automaton under trees that do
  (`Path`), and whatever is reduced is a finished rule.
* What follows the grammar is parsed: a tree leads the parser over its root (`Derives.steps`), by
  recursion on the tree. The items of the state say before each child that the child can come
  there, and what may follow it.
* The reductions before a token are within the steps they are given: each makes the stack lighter
  (`potential`).
-/

namespace Rubylet

namespace Tree

theorem allTokens_append (ts us : List Tree) :
    allTokens (ts ++ us) = allTokens ts ++ allTokens us := by
  induction ts with
  | nil => rfl
  | cons t ts ih => rw [List.cons_append, allTokens, allTokens, ih, List.append_assoc]

/-- Trees of two lists of symbols, side by side. -/
theorem DerivesAll.append {xs ys : List Symbol} {ts us : List Tree} (h : DerivesAll xs ts)
    (h' : DerivesAll ys us) : DerivesAll (xs ++ ys) (ts ++ us) :=
  match h with
  | .nil => h'
  | .cons ht hts => .cons ht (hts.append h')

/-- The symbols that trees are derived from can be read off the trees. -/
theorem DerivesAll.map_symbol {xs : List Symbol} {ts : List Tree} (h : DerivesAll xs ts) :
    ts.map Tree.symbol = xs :=
  match h with
  | .nil => rfl
  | .cons ht hts => by rw [List.map_cons, ht.symbol_eq, hts.map_symbol]

section Shape

variable {s : Symbol} {ss : List Symbol} {t : Tree} {ts : List Tree} {k : TokenKind} {p : Phrase}
  {r : Rule}

/-- What holds of a tree if it holds of its parts, holds of all trees. -/
@[elab_as_elim]
theorem induction_parts {motive : Tree → Prop} (leaf : ∀ token, motive (.leaf token))
    (node : ∀ r ts, (∀ u ∈ ts, motive u) → motive (.node r ts)) : ∀ t, motive t
  | .leaf token => leaf token
  | .node r ts => node r ts fun u _ => induction_parts leaf node u
termination_by t => sizeOf t
decreasing_by
  have hlt := List.sizeOf_lt_of_mem (by assumption : u ∈ ts)
  rw [Tree.node.sizeOf_spec]
  omega

/-- A token is derived by a leaf of its kind. -/
theorem Derives.exists_leaf (h : Derives (.token k) t) : ∃ token, t = .leaf token ∧ token.kind = k := by
  generalize hs : Symbol.token k = s at h
  cases h with
  | leaf token => exact ⟨token, rfl, (Symbol.token.inj hs).symm⟩
  | node => cases hs

/-- A phrase is derived by a node of one of its rules. -/
theorem Derives.exists_node (h : Derives (.phrase p) t) :
    ∃ r ts, t = .node r ts ∧ r.phrase = p ∧ DerivesAll r.symbols ts := by
  generalize hs : Symbol.phrase p = s at h
  cases h with
  | leaf token => cases hs
  | node r ts hts => exact ⟨r, ts, rfl, (Symbol.phrase.inj hs).symm, hts⟩

theorem not_derives_leaf {token : Token} : ¬ Derives (.phrase p) (.leaf token) := by
  intro h
  obtain ⟨r, ts, heq, -⟩ := h.exists_node
  cases heq

theorem derives_token_iff : Derives (.token k) t ↔ ∃ token, t = .leaf token ∧ token.kind = k := by
  constructor
  · exact Derives.exists_leaf
  · rintro ⟨token, rfl, rfl⟩
    exact .leaf token

/-- A node is derived when its children are, from the symbols of its rule. -/
theorem derives_node_iff : Derives s (.node r ts) ↔ s = .phrase r.phrase ∧ DerivesAll r.symbols ts := by
  constructor
  · intro h
    cases h with
    | node _ _ hts => exact ⟨rfl, hts⟩
  · rintro ⟨rfl, hts⟩
    exact .node r ts hts

theorem derivesAll_nil_iff : DerivesAll [] ts ↔ ts = [] := by
  constructor
  · intro h
    cases h
    rfl
  · rintro rfl
    exact .nil

theorem derivesAll_singleton_iff : DerivesAll [s] ts ↔ ∃ t, ts = [t] ∧ Derives s t := by
  constructor
  · intro h
    cases h with
    | cons ht hts =>
      cases hts
      exact ⟨_, rfl, ht⟩
  · rintro ⟨t, rfl, ht⟩
    exact .cons ht .nil

/-- Trees of a list are a tree of its head and trees of its tail. -/
theorem derivesAll_cons_iff :
    DerivesAll (s :: ss) ts ↔ ∃ t us, ts = t :: us ∧ Derives s t ∧ DerivesAll ss us := by
  constructor
  · intro h
    cases h with
    | cons ht hus => exact ⟨_, _, rfl, ht, hus⟩
  · rintro ⟨t, us, rfl, ht, hus⟩
    exact .cons ht hus

mutual

/-- Does a tree follow the grammar? -/
def follows : Symbol → Tree → Bool
  | s, .leaf token => s = .token token.kind
  | s, .node r ts => s = .phrase r.phrase && followAll r.symbols ts

/-- Do trees follow the grammar, one for each symbol? -/
def followAll : List Symbol → List Tree → Bool
  | [], [] => true
  | s :: ss, t :: ts => follows s t && followAll ss ts
  | _, _ => false

end

mutual

/-- The check on trees is sound for derivations. -/
theorem derives_of_follows : ∀ {s : Symbol} (t : Tree), follows s t → Derives s t
  | s, .leaf token, h => by
    obtain rfl := of_decide_eq_true h
    exact .leaf token
  | s, .node r ts, h => by
    obtain ⟨hs, hts⟩ := Bool.and_eq_true_iff.mp h
    obtain rfl := of_decide_eq_true hs
    exact .node r ts (derivesAll_of_followAll ts hts)

/-- The check on trees is sound for lists as well. -/
theorem derivesAll_of_followAll : ∀ {ss : List Symbol} (ts : List Tree), followAll ss ts →
    DerivesAll ss ts
  | [], [], _ => .nil
  | [], _ :: _, h => by simp [followAll] at h
  | _ :: _, [], h => by simp [followAll] at h
  | s :: ss, t :: ts, h => by
    obtain ⟨ht, hts⟩ := Bool.and_eq_true_iff.mp h
    exact .cons (derives_of_follows t ht) (derivesAll_of_followAll ts hts)

end

end Shape

end Tree

namespace Parse

open Automaton LookaheadSet Rubylet.Tree

-- Only the test of the states says what they are.
attribute [local irreducible] states

/-! ### Stacks -/

/-- The lookahead before some tokens. -/
def lookahead (ts : List Token) : Lookahead := ts.head?.map Token.kind

/-- The trees of a stack, in text order. -/
def trees (stack : Stack) : List Tree := stack.reverse.map Frame.tree

/-- The tokens under a stack. -/
def spanned (stack : Stack) : List Token := Tree.allTokens (trees stack)

/-- A stack is a path of the automaton, under trees that follow the grammar. -/
inductive Path : Stack → Prop
  | nil : Path []
  | cons {stack : Stack} {t : Tree} {n : Nat} : Path stack → Derives t.symbol t →
      goto (top stack) t.symbol = some n → Path (⟨n, t⟩ :: stack)

/-- How many more reductions a stack can see before the next token: its height counts, and the
weight of the symbol on top. -/
def potential : Stack → Nat
  | [] => 31
  | frame :: rest => 22 * (rest.length + 1) + weight frame.tree.symbol

variable {stack below : Stack} {frame : Frame} {a : Lookahead} {r : Rule} {t : Tree} {m : Nat}
  {ts : List Token} {l : LookaheadSet}

theorem trees_cons : trees (frame :: stack) = trees stack ++ [frame.tree] := by
  rw [trees, List.reverse_cons, List.map_append]
  rfl

theorem trees_append (fs : Stack) : trees (fs ++ stack) = trees stack ++ trees fs := by
  rw [trees, List.reverse_append, List.map_append]
  rfl

theorem spanned_cons : spanned (frame :: stack) = spanned stack ++ frame.tree.tokens := by
  rw [spanned, trees_cons, allTokens_append, allTokens, allTokens, List.append_nil]
  rfl

/-- The state on top of a path is one of the table. -/
theorem Path.top_lt (h : Path stack) : top stack < states.size := by
  induction h with
  | nil => exact size_pos
  | cons _ _ hgoto ih => exact lt_of_goto ih hgoto

/-- What an item has read lies on top of the stack. -/
theorem Path.unwind (h : Path stack) : ∀ (k : Nat) {l : LookaheadSet},
    (⟨r, k⟩, l) ∈ (state (top stack)).items → k ≤ r.symbols.length →
      ∃ fs below, stack = fs ++ below ∧ fs.length = k ∧ Path below ∧
        DerivesAll (r.symbols.take k) (trees fs) := by
  induction h with
  | nil =>
    intro k l hi _
    obtain rfl : k = 0 := done_of_mem_items_zero hi
    exact ⟨[], [], rfl, rfl, .nil, .nil⟩
  -- The state on top remembers what its items have read; below it the same items have read one
  -- symbol less.
  | @cons stack t n hpath ht hgoto ih =>
    intro k l hi hk
    cases k with
    | zero => exact ⟨[], _, rfl, rfl, .cons hpath ht hgoto, .nil⟩
    | succ k =>
      obtain ⟨hsymbol, l', hi'⟩ := comes_at hpath.top_lt hgoto hi
      obtain ⟨fs, below, rfl, rfl, hbelow, hall⟩ := ih k hi' (Nat.le_of_succ_le hk)
      refine ⟨⟨n, t⟩ :: fs, below, rfl, rfl, hbelow, ?_⟩
      rw [List.take_add_one, hsymbol, trees_cons]
      exact hall.append (.cons ht .nil)

/-- A reduction takes as many frames as its rule has symbols, and makes one of them. -/
theorem reduce_append (fs : Stack) (h : fs.length = r.symbols.length) :
    reduce r (fs ++ below) = (goto (top below) (.phrase r.phrase)).map fun state =>
      ⟨state, .node r (trees fs)⟩ :: below := by
  unfold reduce
  rw [← h, List.drop_left, List.take_left]
  rfl

/-- **A reduction** takes a path to a path that spans the same tokens and is lighter. -/
theorem Path.reduce (h : Path stack) (ha : action (top stack) a = some (.reduce r))
    (hr : r ≠ .entry) {stack' : Stack} (hs : Parse.reduce r stack = some stack') :
    Path stack' ∧ spanned stack' = spanned stack ∧ potential stack' < potential stack := by
  by_cases hb : r = .emptyBody
  · subst hb
    have hs' := hs
    rw [← List.nil_append stack, reduce_append [] rfl] at hs'
    obtain ⟨m, hm, rfl⟩ := Option.map_eq_some_iff.mp hs'
    refine ⟨.cons h (.node .emptyBody [] .nil) hm, ?_, ?_⟩
    · rw [spanned_cons]
      exact List.append_nil _
    -- Nothing is taken off, so the stack gets higher; what lies below is heavy enough.
    · cases h with
      | nil => exact Nat.lt_of_sub_eq_succ rfl
      | @cons rest t n hrest ht hgoto =>
        have hw := weight_of_emptyBody hrest.top_lt hgoto ha
        simp only [potential, List.length_cons]
        show 22 * (rest.length + 1 + 1) + 1 < _
        omega
  · obtain ⟨l, hi⟩ := (reduces_at h.top_lt ha).resolve_left hb
    obtain ⟨fs, below, rfl, hlen, hbelow, hall⟩ := h.unwind _ hi (Nat.le_refl _)
    rw [List.take_length] at hall
    rw [reduce_append fs hlen] at hs
    obtain ⟨m, hm, rfl⟩ := Option.map_eq_some_iff.mp hs
    refine ⟨.cons hbelow (.node r _ hall) hm, ?_, ?_⟩
    · rw [spanned_cons, spanned, spanned, trees_append, allTokens_append]
      rfl
    · obtain ⟨symbols, last, heq, hlt⟩ := weight_lt r hr hb
      -- The rule has a last symbol, so there is a frame whose weight can be compared.
      cases fs with
      | nil =>
        rw [heq, List.length_append] at hlen
        cases hlen
      | cons f fs =>
        have hlast : f.tree.symbol = last := by
          have hmap := hall.map_symbol
          rw [heq, trees_cons, List.map_append] at hmap
          exact List.singleton_inj.mp (List.append_inj_right' hmap rfl)
        rw [heq, List.length_append, List.length_cons, List.length_singleton] at hlen
        show 22 * (below.length + 1) + weight (.phrase r.phrase) <
          22 * ((fs ++ below).length + 1) + weight f.tree.symbol
        rw [hlast, List.length_append]
        omega

/-! ### What is parsed follows the grammar -/

/-- What is left to do after the reductions before a lookahead fits what the stack was. -/
def Settled.Fits (stack : Stack) (a : Lookahead) : Settled → Prop
  | .shift m stack' => Path stack' ∧ spanned stack' = spanned stack ∧
      action (top stack') a = some (.shift m)
  | .accept t => Derives (.phrase .program) t ∧ t.tokens = spanned stack ∧ a = none
  | .error stack' => Path stack' ∧ spanned stack' = spanned stack

section SettleBy

variable {action : Nat → Option Action} {reduce : Rule → Stack → Option Stack} {steps : Nat}

theorem settleBy_none (h : action (top stack) = none) :
    settleBy action reduce (steps + 1) stack = .error stack := by
  unfold settleBy
  rw [h]

theorem settleBy_shift (h : action (top stack) = some (.shift m)) :
    settleBy action reduce (steps + 1) stack = .shift m stack := by
  unfold settleBy
  rw [h]

theorem settleBy_accept {frame : Frame} (h : action frame.state = some (.reduce .entry)) :
    settleBy action reduce (steps + 1) [frame] = .accept frame.tree := by
  unfold settleBy
  rw [top, h]

/-- A finished entry rule must have the stack to itself. -/
theorem settleBy_entry (h : action (top stack) = some (.reduce .entry)) :
    (∃ frame, stack = [frame]) ∨ settleBy action reduce (steps + 1) stack = .error stack := by
  unfold settleBy
  rw [h]
  match stack with
  | [] => exact .inr rfl
  | [frame] => exact .inl ⟨frame, rfl⟩
  | _ :: _ :: _ => exact .inr rfl

/-- A settlement reduces and goes on with what it has reduced to. -/
theorem settleBy_reduce (h : action (top stack) = some (.reduce r)) (hr : r ≠ .entry) :
    settleBy action reduce (steps + 1) stack = match reduce r stack with
      | none => .error stack
      | some stack => settleBy action reduce steps stack := by
  conv_lhs => unfold settleBy
  rw [h]
  cases r <;> first | rfl | contradiction

/-- Where nothing is to be reduced, one step is enough. -/
theorem settleBy_stop (h : ∀ r, action (top stack) = some (.reduce r) → r = .entry) :
    settleBy action reduce (steps + 1) stack = settleBy action reduce 1 stack := by
  unfold settleBy
  cases ha : action (top stack) with
  | none => rfl
  | some act =>
    cases act with
    | shift m => rfl
    | reduce r =>
      obtain rfl := h r ha
      rfl

end SettleBy

/-- What the automaton accepts is a program. -/
theorem Path.accept (h : Path [frame]) (ha : action frame.state a = some (.reduce .entry)) :
    Derives (.phrase .program) frame.tree ∧ frame.tree.tokens = spanned [frame] := by
  obtain ⟨n, t⟩ := frame
  refine ⟨?_, (@spanned_cons [] ⟨n, t⟩).symm⟩
  cases h with
  | cons hpath ht hgoto =>
    obtain ⟨l, hi⟩ := (reduces_at (lt_of_goto hpath.top_lt hgoto) ha).resolve_left nofun
    obtain ⟨hsymbol, -⟩ := comes_at hpath.top_lt hgoto hi
    rwa [← Option.some.inj hsymbol] at ht

/-- A settlement keeps a path a path, however often it reduces. -/
theorem Path.settleWithin (a : Lookahead) : ∀ (steps : Nat) {stack : Stack}, Path stack →
    (settleWithin a steps stack).Fits stack a := by
  intro steps
  induction steps with
  | zero => exact fun h => ⟨h, rfl⟩
  | succ steps ih =>
    intro stack h
    rw [Parse.settleWithin]
    cases ha : action (top stack) a with
    | none =>
      rw [settleBy_none ha]
      exact ⟨h, rfl⟩
    | some act =>
      cases act with
      | shift m =>
        rw [settleBy_shift ha]
        exact ⟨h, rfl, ha⟩
      | reduce r =>
        by_cases hr : r = .entry
        · subst hr
          rcases @settleBy_entry stack (action · a) Parse.reduce steps ha with ⟨frame, rfl⟩ | herror
          · rw [settleBy_accept ha]
            obtain ⟨hprogram, hspanned⟩ := h.accept ha
            exact ⟨hprogram, hspanned, entry_at h.top_lt ha⟩
          · rw [herror]
            exact ⟨h, rfl⟩
        -- What the remaining steps lead to spans what the reduced stack spans, so the same tokens.
        · rw [settleBy_reduce ha hr]
          cases hs : Parse.reduce r stack with
          | none => exact ⟨h, rfl⟩
          | some stack' =>
            obtain ⟨hpath, hspanned, -⟩ := h.reduce ha hr hs
            have hfits := ih hpath
            rw [Parse.settleWithin] at hfits
            dsimp only
            revert hfits
            cases settleBy (action · a) Parse.reduce steps stack' with
            | shift m stack'' => exact fun h => ⟨h.1, h.2.1.trans hspanned, h.2.2⟩
            | accept t => exact fun h => ⟨h.1, h.2.1.trans hspanned, h.2.2⟩
            | error stack'' => exact fun h => ⟨h.1, h.2.trans hspanned⟩

/-- Settling keeps what the stack spans, and leaves the token to be shifted or refused. -/
theorem Path.settle (h : Path stack) (a : Lookahead) : (settle a stack).Fits stack a :=
  h.settleWithin a _

/-- A token is shifted only where the settlement says so. -/
theorem Settled.shifted_eq_ok_iff {token : Token} {stack' : Stack} : ∀ {s : Settled},
    s.shifted token = .ok stack' ↔
      ∃ m below, s = .shift m below ∧ stack' = ⟨m, .leaf token⟩ :: below
  | .shift m below => by
    constructor
    · exact fun h => ⟨m, below, rfl, (Except.ok.inj h).symm⟩
    · rintro ⟨_, _, ⟨⟩, rfl⟩
      rfl
  | .accept _ => by simp [shifted]
  | .error _ => by simp [shifted]

/-- A parse ends well only where the settlement accepts. -/
theorem Settled.finished_eq_ok_iff {last : Option Token} : ∀ {s : Settled},
    s.finished last = .ok t ↔ s = .accept t
  | .shift _ _ => by simp [finished]
  | .accept _ => by simp [finished]
  | .error _ => by simp [finished]

/-- A shift adds its token to what the stack spans. -/
theorem Path.shift {token : Token} {stack' : Stack} (h : Path stack)
    (hs : Parse.shift stack token = .ok stack') :
    Path stack' ∧ spanned stack' = spanned stack ++ [token] := by
  obtain ⟨m, below, hsettle, rfl⟩ := Settled.shifted_eq_ok_iff.mp hs
  have hfits := h.settle (some token.kind)
  rw [hsettle] at hfits
  obtain ⟨hpath, hspanned, haction⟩ := hfits
  refine ⟨.cons hpath (.leaf token) (action_eq_shift_iff.mp haction), ?_⟩
  rw [spanned_cons, hspanned]
  rfl

/-- Shifting all tokens adds all of them to what the stack spans. -/
theorem Path.shiftAll {stack' : Stack} (h : Path stack) (hs : shiftAll stack ts = .ok stack') :
    Path stack' ∧ spanned stack' = spanned stack ++ ts := by
  rw [Parse.shiftAll] at hs
  -- On the tokens, with the stack that the ones before have left.
  induction ts generalizing stack with
  | nil =>
    obtain rfl := Except.ok.inj hs
    exact ⟨h, (List.append_nil _).symm⟩
  | cons token ts ih =>
    rw [List.foldlM_cons] at hs
    cases hshift : Parse.shift stack token with
    | error e => rw [hshift] at hs; cases hs
    | ok middle =>
      rw [hshift] at hs
      obtain ⟨hmiddle, hspanned⟩ := h.shift hshift
      obtain ⟨hpath, hall⟩ := ih hmiddle hs
      refine ⟨hpath, ?_⟩
      rw [hall, hspanned, List.append_assoc]
      rfl

/-- What is answered for some tokens. -/
def answer (last : Option Token) (stack : Stack) (ts : List Token) : Except SyntaxError Tree :=
  Parse.shiftAll stack ts >>= finish last

theorem tree_eq_answer : tree ts = answer ts.getLast? [] ts := rfl

/-- What is answered follows the grammar, and spans what the stack spans and the tokens. -/
theorem Path.answer {last : Option Token} (h : Path stack)
    (ht : Parse.answer last stack ts = .ok t) :
    Derives (.phrase .program) t ∧ t.tokens = spanned stack ++ ts := by
  rw [Parse.answer] at ht
  cases hs : Parse.shiftAll stack ts with
  | error e => rw [hs] at ht; cases ht
  | ok stack' =>
    rw [hs] at ht
    -- The tokens are spent, and what remains is settled against the end of the source.
    have hfinish : finish last stack' = .ok t := (pure_bind stack' _).symm.trans ht
    obtain ⟨hpath, hspanned⟩ := h.shiftAll hs
    have hfits := hpath.settle none
    rw [Settled.finished_eq_ok_iff.mp hfinish] at hfits
    exact ⟨hfits.1, hfits.2.1.trans hspanned⟩

/-- **What is parsed follows the grammar** and spans the tokens. -/
theorem derives_of_tree (h : tree ts = .ok t) : Derives (.phrase .program) t ∧ t.tokens = ts :=
  Path.nil.answer h

/-! ### What follows the grammar is parsed -/

/-- The token list of a tree is empty only if its symbol can be, and begins as its symbol can. -/
def Begins (symbols : List Symbol) (ts : List Token) : Prop :=
  match ts with
  | [] => canBeEmpty firsts symbols
  | t :: _ => mem (some t.kind) (firstOf firsts 0 symbols)

theorem Begins.cons {symbol : Symbol} {symbols : List Symbol} {ts us : List Token}
    (h : Begins [symbol] ts) (h' : Begins symbols us) : Begins (symbol :: symbols) (ts ++ us) := by
  cases symbol with
  | token kind =>
    cases ts with
    -- The phrase was empty, so what comes behind it begins the whole.
    | nil => cases h
    -- Something of the phrase is there, and begins the whole.
    | cons t ts => exact h
  | phrase p =>
    cases ts with
    | cons t ts =>
      simp only [Begins, List.cons_append, mem_firstOf_phrase, Bool.or_eq_true,
        Bool.and_eq_true] at h ⊢
      exact .inl (h.resolve_right fun h => absurd h.2 (by simp [firstOf, mem]))
    | nil =>
      simp only [Begins, canBeEmpty, Bool.and_true] at h
      cases us with
      | nil =>
        simp only [Begins, List.nil_append, canBeEmpty, h, Bool.true_and] at h' ⊢
        exact h'
      | cons u us =>
        simp only [Begins, List.nil_append, mem_firstOf_phrase, h, Bool.true_and] at h' ⊢
        rw [h', Bool.or_true]

/-- What may follow some symbols comes after them, if it does not come first. -/
theorem Begins.lookahead {symbols : List Symbol} {us : List Token} (h : Begins symbols ts)
    (hus : mem (lookahead us) l) : mem (Parse.lookahead (ts ++ us)) (firstOf firsts l symbols) := by
  rw [mem_firstOf]
  cases ts with
  | nil =>
    rw [show canBeEmpty firsts symbols = true from h, List.nil_append, hus]
    simp
  | cons t ts =>
    rw [show mem (Parse.lookahead (t :: ts ++ us)) (firstOf firsts 0 symbols) = true from h,
      Bool.true_or]

mutual

/-- What a tree begins with is among the first tokens of its symbol, or the symbol can be empty. -/
theorem begins_of_derives {symbol : Symbol} {t : Tree} (h : Derives symbol t) :
    Begins [symbol] t.tokens :=
  match h with
  | .leaf token => mem_singleton (some token.kind)
  | .node r children hchildren => by
    have hall := begins_of_derivesAll hchildren
    rw [Tree.tokens]
    -- The node is empty, or its first token is the first of its children.
    cases hts : allTokens children with
    | nil =>
      rw [hts] at hall
      simp only [Begins, canBeEmpty, Bool.and_true]
      exact canBeEmpty_rule hall
    | cons token ts =>
      rw [hts] at hall
      simp only [Begins, mem_firstOf_phrase]
      rw [mem_of_within (firstOf_rule r) hall, Bool.true_or]

/-- What trees begin with can begin their symbols. -/
theorem begins_of_derivesAll {symbols : List Symbol} {ts : List Tree} (h : DerivesAll symbols ts) :
    Begins symbols (allTokens ts) :=
  match h with
  | .nil => rfl
  | .cons ht hts => (begins_of_derives ht).cons (begins_of_derivesAll hts)

end

/-- The parser goes from one stack and the tokens before it to another. -/
inductive Steps : Stack → List Token → Stack → List Token → Prop
  | refl (stack : Stack) (ts : List Token) : Steps stack ts stack ts
  | shift {stack stack' : Stack} {t : Token} {ts ts' : List Token} {m : Nat} :
      goto (top stack) (.token t.kind) = some m →
      Steps (⟨m, .leaf t⟩ :: stack) ts stack' ts' → Steps stack (t :: ts) stack' ts'
  | reduce {stack middle stack' : Stack} {ts ts' : List Token} {r : Rule} :
      action (top stack) (lookahead ts) = some (.reduce r) → r ≠ .entry →
      Parse.reduce r stack = some middle → Steps middle ts stack' ts' → Steps stack ts stack' ts'

/-- Readings follow each other. -/
theorem Steps.trans {s₁ s₂ s₃ : Stack} {ts₁ ts₂ ts₃ : List Token} (h : Steps s₁ ts₁ s₂ ts₂)
    (h' : Steps s₂ ts₂ s₃ ts₃) : Steps s₁ ts₁ s₃ ts₃ := by
  induction h with
  | refl _ _ => exact h'
  | shift hgoto _ ih => exact .shift hgoto (ih h')
  | reduce ha hr hs _ ih => exact .reduce ha hr hs (ih h')

/-- No rule is built from the phrase of the whole input. -/
theorem entry_notMem (r : Rule) : .phrase .entry ∉ r.symbols :=
  of_decide_eq_true
    (Phrase.forall_rule (f := fun _ r => decide (.phrase .entry ∉ r.symbols)) (by decide) r)

mutual

/-- **A tree leads the parser over its root**, wherever its symbol can come. -/
theorem steps_of_derives {symbol : Symbol} {t : Tree} (h : Derives symbol t) {stack : Stack}
    {i : Item} {l : LookaheadSet} {beyond : List Symbol} {ts : List Token}
    (hstack : top stack < states.size) (hi : (i, l) ∈ (state (top stack)).items)
    (hrest : i.rest = symbol :: beyond) (hts : mem (lookahead ts) (firstOf firsts l beyond)) :
    ∃ m, goto (top stack) symbol = some m ∧ Steps stack (t.tokens ++ ts) (⟨m, t⟩ :: stack) ts := by
  obtain ⟨m, -, hm, -, -⟩ := passes_at hstack hi hrest
  refine ⟨m, hm, ?_⟩
  match h with
  | .leaf token => exact .shift hm (.refl _ _)
  | .node r children hchildren =>
    -- The whole input is no part of anything, so this rule is reduced like any other.
    have hr : r ≠ .entry := by
      rintro rfl
      refine entry_notMem i.rule (List.mem_of_mem_drop (i := i.done) ?_)
      rw [show i.rule.symbols.drop i.done = _ from hrest]
      exact .head _
    -- The rule is begun where its phrase is expected; its children lead over its symbols, and then
    -- it is finished.
    obtain ⟨l', hbegun, hl'⟩ := closed_at hstack hi hrest hts (r := r) rfl
    obtain ⟨fs, k, l'', htrees, hlt, hsteps, hfinished, hk, hl''⟩ :=
      steps_of_derivesAll hchildren hstack hbegun rfl hl'
    have hlength : fs.length = r.symbols.length := by
      rw [← hchildren.map_symbol, List.length_map, ← htrees, trees, List.length_map,
        List.length_reverse]
    have hreduce : Parse.reduce r (fs ++ stack) = some (⟨m, .node r children⟩ :: stack) := by
      rw [reduce_append fs hlength, hm, htrees]
      rfl
    exact hsteps.trans (.reduce (decides_at hlt hfinished hk hl'') hr hreduce (.refl _ _))

/-- Trees lead the parser over their roots, one after the other. -/
theorem steps_of_derivesAll {symbols : List Symbol} {us : List Tree} (h : DerivesAll symbols us)
    {stack : Stack} {r : Rule} {k : Nat} {l : LookaheadSet} {ts : List Token}
    (hstack : top stack < states.size) (hi : (⟨r, k⟩, l) ∈ (state (top stack)).items)
    (hrest : (⟨r, k⟩ : Item).rest = symbols) (hts : mem (lookahead ts) l) :
    ∃ fs k' l', trees fs = us ∧ top (fs ++ stack) < states.size ∧
      Steps stack (allTokens us ++ ts) (fs ++ stack) ts ∧
      (⟨r, k'⟩, l') ∈ (state (top (fs ++ stack))).items ∧ (⟨r, k'⟩ : Item).rest = [] ∧
      mem (lookahead ts) l' := by
  match h with
  | .nil => exact ⟨[], k, l, rfl, hstack, .refl _ _, hi, hrest, hts⟩
  | @DerivesAll.cons _ t beyond us ht hus =>
    -- What comes behind the first tree is what the others begin with, or what follows all of them.
    obtain ⟨m, hm, hsteps⟩ := steps_of_derives ht hstack hi hrest
      ((begins_of_derivesAll hus).lookahead hts)
    obtain ⟨m', l', hm', hi', hl'⟩ := passes_at hstack hi hrest
    obtain rfl := Option.some.inj (hm.symm.trans hm')
    have hbeyond : (⟨r, k + 1⟩ : Item).rest = beyond := by
      rw [Item.rest, ← List.drop_drop, show r.symbols.drop k = _ from hrest]
      rfl
    obtain ⟨fs, k', l'', rfl, hlt, hsteps', hfinished, hk, hl''⟩ :=
      @steps_of_derivesAll _ _ hus (⟨m, t⟩ :: stack) _ _ _ _ (lt_of_goto hstack hm) hi' hbeyond
        (hl' _ hts)
    refine ⟨fs ++ [⟨m, t⟩], k', l'', trees_append fs, ?_⟩
    rw [allTokens, List.append_assoc, List.append_assoc]
    exact ⟨hlt, hsteps.trans hsteps', hfinished, hk, hl''⟩

end

/-! ### The reductions before a token are within their steps -/

/-- A token weighs the most. -/
theorem weight_le (symbol : Symbol) : weight symbol ≤ 31 := by
  cases symbol with
  | token kind => exact Nat.le_refl _
  | phrase p => cases p <;> decide

/-- The bound on the number of reductions is above what any stack needs. -/
theorem potential_lt (stack : Stack) : potential stack < settleSteps stack := by
  cases stack with
  | nil => decide
  | cons frame rest =>
    have hweight := weight_le frame.tree.symbol
    show 22 * (rest.length + 1) + weight frame.tree.symbol < (rest.length + 1 + 2) * 22
    omega

/-- **More steps than a stack needs** make no difference. -/
theorem Path.settleWithin_eq (a : Lookahead) : ∀ (steps : Nat) {steps' : Nat} {stack : Stack},
    Path stack → potential stack < steps → potential stack < steps' →
      Parse.settleWithin a steps stack = Parse.settleWithin a steps' stack := by
  intro steps
  induction steps with
  | zero => exact fun _ h => absurd h (Nat.not_lt_zero _)
  | succ steps ih =>
    intro steps' stack h hsteps hsteps'
    obtain ⟨steps', rfl⟩ := Nat.exists_eq_succ_of_ne_zero (Nat.ne_zero_of_lt hsteps')
    rw [Parse.settleWithin, Parse.settleWithin]
    -- A reduction makes the stack lighter, so the steps that are left are enough again.
    by_cases hstop : ∃ r, action (top stack) a = some (.reduce r) ∧ r ≠ .entry
    · obtain ⟨r, ha, hr⟩ := hstop
      rw [settleBy_reduce ha hr, settleBy_reduce ha hr]
      cases hs : Parse.reduce r stack with
      | none => rfl
      | some stack' =>
        obtain ⟨hpath, -, hlt⟩ := h.reduce ha hr hs
        exact ih hpath (by omega) (by omega)
    · have hentry : ∀ r, action (top stack) a = some (.reduce r) → r = .entry :=
        fun r ha => Decidable.not_not.mp fun hr => hstop ⟨r, ha, hr⟩
      rw [settleBy_stop hentry, @settleBy_stop _ _ _ steps' hentry]

/-- A reduction that is made makes no difference to what is left to do. -/
theorem Path.settle_eq (h : Path stack) (ha : action (top stack) a = some (.reduce r))
    (hr : r ≠ .entry) {stack' : Stack} (hs : Parse.reduce r stack = some stack') :
    Parse.settle a stack = Parse.settle a stack' := by
  obtain ⟨hpath, -, hlt⟩ := h.reduce ha hr hs
  obtain ⟨steps, hsteps⟩ := Nat.exists_eq_succ_of_ne_zero (Nat.ne_zero_of_lt (potential_lt stack))
  have hpotential := potential_lt stack
  rw [Parse.settle, Parse.settle, hsteps]
  rw [hsteps] at hpotential
  refine Eq.trans ?_ (hpath.settleWithin_eq a steps (by omega) (potential_lt stack'))
  rw [Parse.settleWithin, settleBy_reduce ha hr, hs]
  rfl

/-- A token that can be shifted needs no reduction. -/
theorem settle_shift (h : action (top stack) a = some (.shift m)) :
    Parse.settle a stack = .shift m stack := by
  obtain ⟨steps, hsteps⟩ := Nat.exists_eq_succ_of_ne_zero (Nat.ne_zero_of_lt (potential_lt stack))
  rw [Parse.settle, hsteps, Parse.settleWithin]
  exact settleBy_shift h

theorem settle_accept (h : action frame.state a = some (.reduce .entry)) :
    Parse.settle a [frame] = .accept frame.tree := by
  obtain ⟨steps, hsteps⟩ :=
    Nat.exists_eq_succ_of_ne_zero (Nat.ne_zero_of_lt (potential_lt [frame]))
  rw [Parse.settle, hsteps, Parse.settleWithin]
  exact settleBy_accept h

theorem answer_nil {last : Option Token} : answer last stack [] = finish last stack := by
  rw [answer, Parse.shiftAll, List.foldlM_nil]
  exact pure_bind _ _

/-- The answer is found by shifting the first token and going on with the rest. -/
theorem answer_cons {last : Option Token} {token : Token} :
    answer last stack (token :: ts) = Parse.shift stack token >>= fun s => answer last s ts := by
  simp only [answer, Parse.shiftAll, List.foldlM_cons, bind_assoc]

/-- **The steps of the parser** lead to where its answer is the same. -/
theorem Steps.answer_eq {last : Option Token} {stack stack' : Stack} {ts ts' : List Token}
    (h : Steps stack ts stack' ts') (hpath : Path stack) :
    answer last stack ts = answer last stack' ts' := by
  induction h with
  | refl _ _ => rfl
  | @shift stack _ token ts _ m hgoto _ ih =>
    refine Eq.trans ?_ (ih (.cons hpath (.leaf token) hgoto))
    have hshift : Parse.shift stack token = .ok (⟨m, .leaf token⟩ :: stack) := by
      rw [Parse.shift, settle_shift (action_eq_shift_iff.mpr hgoto)]
      rfl
    rw [answer_cons, hshift]
    exact pure_bind _ _
  | @reduce stack middle _ ts _ r ha hr hs _ ih =>
    refine Eq.trans ?_ (ih (hpath.reduce ha hr hs).1)
    have hsettle := hpath.settle_eq ha hr hs
    -- A reduction is made before a token is shifted, or before the end of the input.
    cases ts with
    | nil =>
      rw [answer_nil, answer_nil, finish, finish]
      exact congrArg _ hsettle
    | cons token ts =>
      have hshift : Parse.shift stack token = Parse.shift middle token := by
        rw [Parse.shift, Parse.shift]
        exact congrArg _ hsettle
      rw [answer_cons, answer_cons, hshift]

/-- **What follows the grammar is parsed.** -/
theorem tree_of_derives (h : Derives (.phrase .program) t) : tree t.tokens = .ok t := by
  obtain ⟨m, hm, hsteps⟩ := @steps_of_derives _ _ h [] _ _ [] [] size_pos entry_mem_items rfl (mem_singleton none)
  rw [List.append_nil] at hsteps
  obtain ⟨m', l, hm', hi, hl⟩ := passes_at size_pos entry_mem_items rfl
  obtain rfl := Option.some.inj (hm.symm.trans hm')
  have haction : action m none = some (.reduce .entry) :=
    decides_at (lt_of_goto size_pos hm) hi rfl (hl none (mem_singleton none))
  rw [tree_eq_answer, hsteps.answer_eq .nil, answer_nil, finish, settle_accept haction]
  rfl

/-- **The parser accepts the grammar.** Tokens are parsed to a tree just in case the tree follows the
grammar and spans the tokens. -/
theorem tree_eq_ok_iff : tree ts = .ok t ↔ Derives (.phrase .program) t ∧ t.tokens = ts := by
  constructor
  · exact derives_of_tree
  · rintro ⟨h, rfl⟩
    exact tree_of_derives h

/-- **The grammar is unambiguous.** -/
theorem eq_of_derives {u : Tree} (ht : Derives (.phrase .program) t)
    (hu : Derives (.phrase .program) u) (h : t.tokens = u.tokens) : t = u :=
  Except.ok.inj ((tree_of_derives ht).symm.trans (h ▸ tree_of_derives hu))

end Parse

end Rubylet
