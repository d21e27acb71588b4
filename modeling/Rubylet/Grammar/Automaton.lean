import Rubylet.Grammar

/-!
# The automaton of the grammar

The parser is driven by the LALR(1) automaton of the grammar: its states are sets of rules in
progress, told apart by the rules and not by what may follow them, and every rule in progress
carries the set of tokens that may follow it.

The construction merges on the fly. `Builder.visit` takes a state off the worklist, completes it
by the rules that may begin at its dots (`close`), and passes what it finds on to the successor
states, which go back on the worklist whenever they have learned something. What is reached in the
end is the least solution, so the order of the work does not matter.

Sets of tokens are bit sets in a natural number: bit 0 stands for the end of the input, bit `i +
1` for the token kind number `i`.
-/

namespace Rubylet

/-- What comes next in the input: a token kind, or `none` at its end. -/
abbrev Lookahead := Option TokenKind

/-- A set of lookaheads, as bits. -/
abbrev LookaheadSet := Nat

namespace LookaheadSet

/-- The number of a lookahead's bit. -/
def bit : Lookahead → Nat
  | none => 0
  | some kind => kind.ctorIdx + 1

/-- The set with one element. -/
def singleton (l : Lookahead) : LookaheadSet := Nat.shiftLeft 1 (bit l)

/-- Is the lookahead in the set? -/
def mem (l : Lookahead) (s : LookaheadSet) : Bool := Nat.testBit s (bit l)

end LookaheadSet

namespace Automaton

/-! ### First tokens -/

/-- What is known of the texts of each phrase: can it be empty, and what can it begin with? The
entries are in the order of `Phrase.all`. -/
abbrev Firsts := List (Bool × LookaheadSet)

/-- What is known of one phrase. -/
def Firsts.get (f : Firsts) (p : Phrase) : Bool × LookaheadSet := f.getD p.ctorIdx (false, 0)

/-- What some symbols, followed by one of `follow`, can begin with. -/
def firstOf (f : Firsts) (follow : LookaheadSet) : List Symbol → LookaheadSet
  | [] => follow
  | .token kind :: _ => .singleton (some kind)
  | .phrase p :: rest =>
    let (empty, first) := f.get p
    if empty then first ||| firstOf f follow rest else first

/-- Can all the symbols be empty? -/
def canBeEmpty (f : Firsts) : List Symbol → Bool
  | [] => true
  | .token _ :: _ => false
  | .phrase p :: rest => (f.get p).1 && canBeEmpty f rest

/-- One round of learning from all the rules. -/
def refine (f : Firsts) : Firsts :=
  Phrase.all.map fun p =>
    (p.rules.any fun r => canBeEmpty f r.symbols,
      p.rules.foldl (fun s r => s ||| firstOf f 0 r.symbols) 0)

/-- As many rounds as asked for. -/
def rounds : Nat → Firsts → Firsts
  | 0, f => f
  | n + 1, f => rounds n (refine f)

/-- The first tokens of every phrase. What a phrase begins with is found after at most one round for
each phrase. -/
def firsts : Firsts := rounds Phrase.all.length []

/-! ### Items and states -/

/-- A rule in progress: its first `done` symbols have been read. -/
structure Item where
  rule : Rule
  done : Nat
  deriving Repr, DecidableEq, Inhabited

/-- The symbols an item still waits for. -/
def Item.rest (i : Item) : List Symbol := i.rule.symbols.drop i.done

/-- Items, each with the lookaheads that may follow its rule. -/
abbrev ItemSet := List (Item × LookaheadSet)

/-- Do two item sets have the same items? Neither holds an item twice. -/
def sameItems (a b : ItemSet) : Bool :=
  a.length == b.length && a.all fun (i, _) => b.any fun (j, _) => i == j

/-- Adds an item, or more lookaheads to it. -/
def addItem (i : Item) (l : LookaheadSet) : ItemSet → ItemSet
  | [] => [(i, l)]
  | (j, m) :: rest => if i = j then (j, m ||| l) :: rest else (j, m) :: addItem i l rest

/-- The phrases that may begin at the dot of an item, and what may follow them. -/
def opened (f : Firsts) (rest : List Symbol) (follow : LookaheadSet) :
    List (Phrase × LookaheadSet) :=
  match rest with
  | .phrase p :: beyond => [(p, firstOf f follow beyond)]
  | _ => []

/-- For each phrase, in the order of `Phrase.all`, what may follow it where it may begin. -/
abbrev Openings := List LookaheadSet

/-- Opens phrases, and the phrases that their rules begin with, until nothing new is learned. -/
def close (f : Firsts) : (steps : Nat) → List (Phrase × LookaheadSet) → Openings → Openings
  | 0, _, known => known
  | _ + 1, [], known => known
  | steps + 1, (p, l) :: work, known =>
    let old := known.getD p.ctorIdx 0
    let new := old ||| l
    -- Nothing new may follow the phrase, so nothing new begins with it.
    if new = old then close f steps work known
    else
      close f steps ((p.rules.flatMap fun r => opened f r.symbols new) ++ work)
        (known.set p.ctorIdx new)

/-- No phrase is open. -/
def noOpenings : Openings := List.replicate Phrase.all.length 0

/-- More steps than any state of the grammar needs to be closed. -/
def closeSteps : Nat := 4096

/-- The items that begin at the dots of a state's kernel. -/
def begun (f : Firsts) (kernel : ItemSet) : ItemSet :=
  let known := close f closeSteps (kernel.flatMap fun (i, l) => opened f i.rest l) noOpenings
  Phrase.all.flatMap fun p =>
    let l := known.getD p.ctorIdx 0
    if l = 0 then [] else p.rules.map fun r => (⟨r, 0⟩, l)

/-- Sorts an item with its dot moved on under the symbol it has moved over. -/
def sortMove (s : Symbol) (i : Item) (l : LookaheadSet) :
    List (Symbol × ItemSet) → List (Symbol × ItemSet)
  | [] => [(s, [(i, l)])]
  | (s', items) :: rest =>
    if s = s' then (s', addItem i l items) :: rest else (s', items) :: sortMove s i l rest

/-- The kernels of the successors of an item set, by symbol. -/
def moves (items : ItemSet) : List (Symbol × ItemSet) :=
  items.foldl
    (fun sorted (i, l) =>
      match i.rest with
      | [] => sorted
      | s :: _ => sortMove s ⟨i.rule, i.done + 1⟩ l sorted)
    []

/-- The rules that are finished in an item set. -/
def finished (items : ItemSet) : List (Rule × LookaheadSet) :=
  items.filterMap fun (i, l) => if i.rest.isEmpty then some (i.rule, l) else none

/-- A state: the items that brought it about, the rules finished in it, and its successors. -/
structure State where
  kernel : ItemSet
  reductions : List (Rule × LookaheadSet)
  successors : List (Symbol × Nat)
  deriving Repr, DecidableEq, Inhabited

/-! ### Construction -/

/-- An automaton under construction: its states, and the numbers of those still to be visited. -/
structure Builder where
  states : List State
  work : List Nat
  deriving Repr, Inhabited

namespace Builder

/-- The number of the state with the given items. -/
def findKernel (kernel : ItemSet) : (number : Nat) → List State → Option Nat
  | _, [] => none
  | number, s :: rest =>
    if sameItems kernel s.kernel then some number else findKernel kernel (number + 1) rest

/-- Has the second item set, of the same items, learned nothing from the first? -/
def knows (old : ItemSet) (new : ItemSet) : Bool :=
  old.length == new.length && (old.zip new).all fun ((_, l), (_, m)) => l == m

/-- Passes a kernel on to its state, which is made if there is none. The state has to be visited
if it has learned something. Answers the state's number. -/
def pass (b : Builder) (kernel : ItemSet) : Builder × Nat :=
  match findKernel kernel 0 b.states with
  | none =>
    (⟨b.states ++ [⟨kernel, [], []⟩], b.work ++ [b.states.length]⟩, b.states.length)
  | some n =>
    let state := b.states.getD n default
    let merged := kernel.foldl (fun items (i, l) => addItem i l items) state.kernel
    if knows state.kernel merged then (b, n)
    else
      (⟨b.states.set n { state with kernel := merged },
        if b.work.contains n then b.work else b.work ++ [n]⟩, n)

/-- Passes the kernels of all successors on, and answers where they went. -/
def passAll (b : Builder) : List (Symbol × ItemSet) → Builder × List (Symbol × Nat)
  | [] => (b, [])
  | (s, kernel) :: rest =>
    let (b, n) := b.pass kernel
    let (b, others) := passAll b rest
    (b, (s, n) :: others)

/-- Visits one state: completes its items, and passes on what it knows. -/
def visit (f : Firsts) (b : Builder) (n : Nat) : Builder :=
  let items := (b.states.getD n default).kernel
  let all := items ++ begun f items
  let (b, successors) := b.passAll (moves all)
  -- The state is looked up again: its own successors may have passed something on to it.
  let state := b.states.getD n default
  { b with states := b.states.set n { state with reductions := finished all, successors } }

/-- Visits states until none is left. -/
def run (f : Firsts) : (steps : Nat) → Builder → Builder
  | 0, b => b
  | steps + 1, b =>
    match b.work with
    | [] => b
    | n :: work => run f steps (visit f { b with work } n)

/-- The construction begins with the state that waits for a whole program. -/
def initial : Builder := ⟨[⟨[(⟨.entry, 0⟩, .singleton none)], [], []⟩], [0]⟩

end Builder

/-- More visits than the construction makes. -/
def visits : Nat := 4096

/-- The states of the automaton of the grammar. The first one is where a parse begins. -/
def states : Array State := (Builder.run firsts visits .initial).states.toArray

/-! ### The table -/

/-- What the automaton does at a lookahead. -/
inductive Action where
  | shift (state : Nat)
  | reduce (rule : Rule)
  deriving Repr, DecidableEq, Inhabited

/-- A state by its number. -/
def state (n : Nat) : State := states.getD n default

/-- Where a state goes over a symbol. -/
def goto (n : Nat) (s : Symbol) : Option Nat :=
  ((state n).successors.find? fun (s', _) => s' = s).map Prod.snd

/-- The rule that a state finishes before a lookahead. -/
def reduction? (n : Nat) (l : Lookahead) : Option Rule :=
  ((state n).reductions.find? fun (_, follow) => LookaheadSet.mem l follow).map Prod.fst

/-- What the automaton does in a state at a lookahead; `none` is a syntax error. A token that can
be shifted is shifted. -/
def action (n : Nat) (l : Lookahead) : Option Action :=
  match l.bind fun kind => goto n (.token kind) with
  | some target => some (.shift target)
  | none => (reduction? n l).map .reduce

end Automaton

end Rubylet
