/-!
# Types

The static type of a record: one of the four base types of the language, a base type that only
a hand-made annotation can name, or the type of the objects of one class. The base type `int`
and the objects of a class called `int` are different types that print alike.
-/

namespace Rubylet

/-- A static type. -/
inductive Ty where
  | int
  | str
  | nil
  /-- The type of every class object. -/
  | cls
  /-- A base type outside the language; `Ty.named` builds it for no name of the four above. -/
  | other (name : String)
  /-- The type of the objects of a class. -/
  | object (className : String)
  deriving Repr, DecidableEq, Inhabited

namespace Ty

/-- The name a type is printed by. -/
def name : Ty → String
  | int => "int"
  | str => "str"
  | nil => "nil"
  | cls => "Class"
  | other n => n
  | object n => n

/-- The base type with a given name. -/
def named (n : String) : Ty :=
  if n = "int" then int
  else if n = "str" then str
  else if n = "nil" then nil
  else if n = "Class" then cls
  else other n

@[simp] theorem name_named (n : String) : (named n).name = n := by
  unfold named; grind [name]

end Ty

end Rubylet
