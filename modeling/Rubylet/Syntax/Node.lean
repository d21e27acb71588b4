import Rubylet.Origin
import Rubylet.Foreign

/-!
# Syntax trees

The syntax of programs after reading. A bare name is already told apart as the read of a local or
a call without receiver, and `elsif` is a conditional nested in an else branch.

Trees built by hand may hold more than a program text can: any tree as a body, a parameter outside a
parameter list, kinds of syntax that lowering has no rule for, and foreign values.
-/

namespace Rubylet

/-- A parameter of a method: its name, where it stands, and which argument it takes. -/
structure Param where
  pos : Pos
  name : String
  index : Int
  deriving Repr, DecidableEq, Inhabited

/-- The origin of a parameter. -/
def Param.origin (p : Param) : Origin := ⟨.argument p.name, p.pos⟩

/-- A piece of syntax. -/
inductive Node where
  | block (pos : Pos) (statements : List Node)
  /-- A call; an operator is a call of the receiver on its left. -/
  | call (pos : Pos) (receiver : Option Node) (name : String) (args : List Node)
  | argument (param : Param)
  | methodDef (pos : Pos) (name : String) (params : List Param) (body : Option Node)
  | classDef (pos : Pos) (name : String) (body : Node)
  | conditional (pos : Pos) (condition : Node) (thenBody elseBody : Option Node)
  | assign (pos : Pos) (name : String) (value : Node)
  | localRead (pos : Pos) (name : String)
  | integer (pos : Pos) (value : Int)
  | text (pos : Pos) (value : String)
  | nil (pos : Pos)
  | constant (pos : Pos) (name : String)
  /-- Syntax that lowering has no rule for: its label and the name of its construct. -/
  | unsupported (pos : Pos) (label construct : String)
  /-- No syntax at all. -/
  | foreign (value : Foreign)
  deriving Repr, Inhabited

namespace Node

/-- The origin of a piece of syntax; a foreign value has none. -/
def origin? : Node → Option Origin
  | block pos _ => some ⟨.block, pos⟩
  | call pos _ _ _ => some ⟨.call, pos⟩
  | argument param => some param.origin
  | methodDef pos _ _ _ => some ⟨.methodDef, pos⟩
  | classDef pos _ _ => some ⟨.classDef, pos⟩
  | conditional pos _ _ _ => some ⟨.conditional, pos⟩
  | assign pos _ _ => some ⟨.assignment, pos⟩
  | localRead pos _ => some ⟨.localRead, pos⟩
  | integer pos _ => some ⟨.integer, pos⟩
  | text pos _ => some ⟨.text, pos⟩
  | nil pos => some ⟨.nil, pos⟩
  | constant pos _ => some ⟨.constant, pos⟩
  | unsupported pos label _ => some ⟨.other label, pos⟩
  | foreign _ => none

end Node

end Rubylet
