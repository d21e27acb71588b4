import Rubylet.Ty

/-!
# Primitive operators

The operators of integers and strings: for each the type of its argument and of its result. Integer
division rounds down.
-/

namespace Rubylet

/-- A primitive operator, by what it does. -/
inductive Operator where
  | add
  | subtract
  | multiply
  | divide
  | concat
  | replicate
  deriving Repr, DecidableEq, Inhabited

namespace Operator

/-- The name by which an operator is called. -/
def name : Operator → String
  | add | concat => "+"
  | subtract => "-"
  | multiply | replicate => "*"
  | divide => "/"

/-- The type of the argument. -/
def argType : Operator → Ty
  | add | subtract | multiply | divide | replicate => .int
  | concat => .str

/-- The type of the result. -/
def resultType : Operator → Ty
  | add | subtract | multiply | divide => .int
  | concat | replicate => .str

/-- The operator that a receiver of a type has under a name. -/
def find? (receiver : Ty) (name : String) : Option Operator :=
  match receiver with
  | .int =>
    if name = "+" then some add
    else if name = "-" then some subtract
    else if name = "*" then some multiply
    else if name = "/" then some divide
    else none
  | .str => if name = "+" then some concat else if name = "*" then some replicate else none
  | _ => none

theorem name_of_find? {t : Ty} {n : String} {o : Operator} (h : find? t n = some o) :
    o.name = n := by
  revert h
  unfold find?
  grind [Operator.name]

end Operator

end Rubylet
