import Rubylet.Position

/-!
# Origins

Every instruction remembers the piece of syntax it was made for: its kind, its position and, for
a method parameter, its name. That is all a diagnostic says about it.
-/

namespace Rubylet

/-- The kinds of syntax. -/
inductive Kind where
  | block
  | call
  | argument (name : String)
  | methodDef
  | classDef
  | conditional
  | assignment
  | localRead
  | integer
  | text
  | nil
  | constant
  /-- A kind of syntax that lowering has no rule for. -/
  | other (label : String)
  deriving Repr, DecidableEq, Inhabited

namespace Kind

/-- The label of a kind in diagnostics. -/
def label : Kind → String
  | block => "block"
  | call => "call"
  | argument _ => "argument"
  | methodDef => "def"
  | classDef => "class"
  | conditional => "if"
  | assignment => "lasgn"
  | localRead => "lvar"
  | integer => "lit"
  | text => "str"
  | nil => "nil"
  | constant => "const"
  | other label => label

/-- How a headline names a piece of syntax: a parameter by its name, all else by its label. -/
def describe : Kind → String
  | argument name => "`" ++ name ++ "' argument"
  | kind => "`" ++ kind.label ++ "' expression"

end Kind

/-- Where an instruction comes from. -/
structure Origin where
  kind : Kind
  pos : Pos
  deriving Repr, DecidableEq, Inhabited

end Rubylet
