import Rubylet.Grammar.Automaton
import Rubylet.Grammar.Tree

/-!
# Parsing

The parser keeps a stack of states, each with the tree that led to it. Before a token it makes all
the reductions the automaton asks for (`settle`), then shifts the token; at the end of the input
it makes the last reductions and answers the tree that is left.

A syntax error is met at the first token that cannot be shifted. The reductions made before that
token are not taken back, and `expected` lists what could have been read from there.
-/

namespace Rubylet.Parse

/-- A state, and the tree that led to it. -/
structure Frame where
  state : Nat
  tree : Tree
  deriving Repr, Inhabited

/-- The parser's stack, its top first. -/
abbrev Stack := List Frame

/-- The state on top; an empty stack is in the first state. -/
def top : Stack → Nat
  | [] => 0
  | frame :: _ => frame.state

/-- Replaces the trees of a finished rule by one tree. -/
def reduce (rule : Rule) (stack : Stack) : Option Stack :=
  let below := stack.drop rule.symbols.length
  let children := (stack.take rule.symbols.length).reverse.map Frame.tree
  (Automaton.goto (top below) (.phrase rule.phrase)).map fun state =>
    ⟨state, .node rule children⟩ :: below

/-- What is left to do once all reductions before a lookahead are made. -/
inductive Settled where
  /-- The lookahead can be shifted, and leads to a state. -/
  | shift (state : Nat) (stack : Stack)
  /-- The input is a program. -/
  | accept (tree : Tree)
  /-- The lookahead cannot come here. -/
  | error (stack : Stack)
  deriving Repr, Inhabited

/-- Makes reductions as long as a table asks for them. The table says what to do in a state, and what
a reduction makes of a stack. -/
def settleBy (action : Nat → Option Automaton.Action) (reduce : Rule → Stack → Option Stack) :
    (steps : Nat) → Stack → Settled
  | 0, stack => .error stack
  | steps + 1, stack =>
    match action (top stack) with
    | none => .error stack
    | some (.shift state) => .shift state stack
    -- The entry rule takes one symbol. What is left must be its tree alone.
    | some (.reduce .entry) =>
      match stack with
      | [frame] => .accept frame.tree
      | _ => .error stack
    | some (.reduce rule) =>
      match reduce rule stack with
      | none => .error stack
      | some stack => settleBy action reduce steps stack

/-- Makes the reductions before a lookahead. -/
def settleWithin (l : Lookahead) (steps : Nat) (stack : Stack) : Settled :=
  settleBy (Automaton.action · l) reduce steps stack

/-- Enough steps for the reductions before one lookahead: each of them shortens the stack, or builds
a phrase from a single one, or builds an empty body, after which the stack must grow by a token. -/
def settleSteps (stack : Stack) : Nat := (stack.length + 2) * (Phrase.all.length + 1)

/-- Makes all reductions before a lookahead. -/
def settle (l : Lookahead) (stack : Stack) : Settled :=
  settleWithin l (settleSteps stack) stack

/-- Can the lookahead come next? -/
def accepts (stack : Stack) (l : Lookahead) : Bool :=
  match settle l stack with
  | .error _ => false
  | _ => true

/-- The lookaheads that can come next: the end of the input first, then the token kinds by name. -/
def expected (stack : Stack) : List Lookahead :=
  (none :: TokenKind.all.map some).filter (accepts stack)

/-- A token that cannot come where it stands, or `none` for the end of the input. -/
structure SyntaxError where
  found : Option Token
  pos : Pos
  expected : List Lookahead
  deriving Repr, DecidableEq, Inhabited

/-- Shifts a token once the reductions before it are made. -/
def Settled.shifted (t : Token) : Settled → Except SyntaxError Stack
  | shift state stack => .ok (⟨state, .leaf t⟩ :: stack)
  | accept _ => .error ⟨some t, t.pos, []⟩
  | error stack => .error ⟨some t, t.pos, expected stack⟩

/-- Shifts a token. -/
def shift (stack : Stack) (t : Token) : Except SyntaxError Stack :=
  (settle (some t.kind) stack).shifted t

/-- Shifts all tokens of a list. -/
def shiftAll (stack : Stack) (tokens : List Token) : Except SyntaxError Stack :=
  tokens.foldlM shift stack

/-- The tree once the reductions before the end of the input are made. The end of the input is
reported at the last token. -/
def Settled.finished (last : Option Token) : Settled → Except SyntaxError Tree
  | accept tree => .ok tree
  | shift _ stack | error stack => .error ⟨none, (last.map Token.pos).getD .start, expected stack⟩

/-- Ends the parse. -/
def finish (last : Option Token) (stack : Stack) : Except SyntaxError Tree :=
  (settle none stack).finished last

/-- Parses a token list as a program. -/
def tree (tokens : List Token) : Except SyntaxError Tree := do
  finish tokens.getLast? (← shiftAll [] tokens)

/-- The printed name of a lookahead. -/
def lookaheadLabel : Lookahead → String
  | none => "$END"
  | some kind => kind.label

end Rubylet.Parse
