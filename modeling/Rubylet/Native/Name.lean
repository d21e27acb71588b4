import Std.Data.HashMap
import Std.Data.HashSet

/-!
# Names in native code

All that a function holds has a name of its own: its blocks, its slots, its arguments and the
results of its instructions. A name is asked for by a base. The first to ask has the base itself,
and every later one has it with a number behind a point. The empty base is taken from the start, so
what asks for no particular name is numbered alone.
-/

namespace Rubylet.Native

/-- The names that are taken in a function. -/
structure Names where
  used : Std.HashSet String
  /-- The last number behind each base. -/
  counts : Std.HashMap String Nat
  deriving Repr, Inhabited

namespace Names

/-- The names of a function that holds nothing. -/
def initial : Names := ⟨{""}, ∅⟩

/-- A base with a number. -/
def numbered (base : String) (number : Nat) : String := base ++ "." ++ toString number

/-- The first number behind a count that makes a base a free name. Among `tries + 1` numbers there
is one if at most `tries` names are taken. -/
def freeNumber (n : Names) (base : String) : (tries count : Nat) → Nat
  | 0, count => count + 1
  | tries + 1, count =>
    if n.used.contains (numbered base (count + 1)) then freeNumber n base tries (count + 1)
    else count + 1

/-- Takes a name for a base. -/
def take (n : Names) (base : String) : String × Names :=
  if n.used.contains base then
    let number := n.freeNumber base n.used.size (n.counts.getD base 0)
    let name := numbered base number
    (name, ⟨n.used.insert name, n.counts.insert base number⟩)
  else (base, { n with used := n.used.insert base })

/-- Takes names for several bases. -/
def takeAll (n : Names) : List String → List String × Names
  | [] => ([], n)
  | base :: rest =>
    let (name, n) := n.take base
    let (names, n) := n.takeAll rest
    (name :: names, n)

end Names

end Rubylet.Native
