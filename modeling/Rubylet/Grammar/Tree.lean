import Rubylet.Grammar

/-!
# Parse trees

A `Tree` is a token or a rule applied to trees. `Tree.Derives s t` says that `t` follows the
grammar and stands for the symbol `s`; `Tree.tokens` is the token list that a tree spans.
-/

namespace Rubylet

/-- A tree over the rules of the grammar. -/
inductive Tree where
  | leaf (token : Token)
  | node (rule : Rule) (children : List Tree)
  deriving Repr, Inhabited

namespace Tree

/-- The symbol at the root. -/
def symbol : Tree → Symbol
  | leaf token => .token token.kind
  | node rule _ => .phrase rule.phrase

mutual

/-- The tokens of a tree, from left to right. -/
def tokens : Tree → List Token
  | leaf token => [token]
  | node _ children => allTokens children

/-- The tokens of several trees. -/
def allTokens : List Tree → List Token
  | [] => []
  | t :: rest => t.tokens ++ allTokens rest

end

mutual

/-- The position of the first token of a tree, if it has one. -/
def start? : Tree → Option Pos
  | leaf token => some token.pos
  | node _ children => firstStart? children

/-- The position of the first token of several trees. -/
def firstStart? : List Tree → Option Pos
  | [] => none
  | t :: rest => t.start?.or (firstStart? rest)

end

mutual

/-- Does every node of the tree apply its rule to the symbols the rule asks for? -/
inductive Derives : Symbol → Tree → Prop
  | leaf (token : Token) : Derives (.token token.kind) (.leaf token)
  | node (rule : Rule) (children : List Tree) :
      DerivesAll rule.symbols children → Derives (.phrase rule.phrase) (.node rule children)

/-- The same for the trees that stand for a list of symbols. -/
inductive DerivesAll : List Symbol → List Tree → Prop
  | nil : DerivesAll [] []
  | cons {s : Symbol} {t : Tree} {symbols : List Symbol} {trees : List Tree} :
      Derives s t → DerivesAll symbols trees → DerivesAll (s :: symbols) (t :: trees)

end

theorem Derives.symbol_eq {s : Symbol} {t : Tree} (h : Derives s t) : t.symbol = s := by
  cases h <;> rfl

end Tree

end Rubylet
