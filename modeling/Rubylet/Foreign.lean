import Rubylet.Text.Quoted

/-!
# Foreign values

Plain values outside the program: one that stands where a piece of syntax or a dependency is wanted,
or an operand on its way into a debugging text. An error names the value's type or shows the value.
-/

namespace Rubylet

/-- A plain value. -/
inductive Foreign where
  | none
  | bool (value : Bool)
  | int (value : Int)
  | text (value : String)
  deriving Repr, DecidableEq, Inhabited

namespace Foreign

/-- The name of the value's type. -/
def typeName : Foreign → String
  | none => "NoneType"
  | bool _ => "bool"
  | int _ => "int"
  | text _ => "str"

/-- The value as a text without quotes. -/
def plain : Foreign → String
  | none => "None"
  | bool true => "True"
  | bool false => "False"
  | int n => toString n
  | text s => s

/-- The value as an error shows it: texts are quoted. -/
def display : Foreign → String
  | text s => Text.quote s
  | value => value.plain

/-- Several values between parentheses; a single one is followed by a comma. -/
def displayAll (values : List Foreign) : String :=
  "(" ++ ", ".intercalate (values.map display) ++ (if values.length = 1 then ",)" else ")")

end Foreign

end Rubylet
