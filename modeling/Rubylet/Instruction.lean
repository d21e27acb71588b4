import Rubylet.Origin
import Rubylet.Foreign

/-!
# Instructions

A program is lowered to a flat list of instructions for a stack. Nothing in the list says which
instructions supply the operands of another one: their order does, by the discipline of
`Rubylet.Replay`.

Every instruction has an origin. An instruction made by hand may have an opcode outside the
language, an argument count that is missing, and a negative argument index.
-/

namespace Rubylet

/-- What an instruction does. -/
inductive Operation where
  | pushNil
  | pushInt (value : Int)
  | pushStr (text : String)
  /-- Pushes the class of a name. -/
  | pushConst (name : String)
  | pushVar (name : String)
  | setVar (name : String)
  /-- Pushes an argument of the method that is running. -/
  | pushArg (index : Int)
  /-- Sends a message with some arguments; a missing count stands for none. -/
  | send (name : String) (count : Option Int)
  | defStart (name : String)
  | defEnd (name : String)
  | classStart (name : String)
  | classEnd (name : String)
  | ifStart
  | ifElse
  | ifEnd
  /-- An opcode outside the language. -/
  | unknown (opcode : String) (operand : Option String)
  deriving Repr, DecidableEq, Inhabited

namespace Operation

/-- The text of the opcode. -/
def opcode : Operation → String
  | pushNil => "push_nil"
  | pushInt _ => "push_int"
  | pushStr _ => "push_str"
  | pushConst _ => "push_const"
  | pushVar _ => "push_var"
  | setVar _ => "set_var"
  | pushArg _ => "push_arg"
  | send _ _ => "send"
  | defStart _ => "def"
  | defEnd _ => "end_def"
  | classStart _ => "class"
  | classEnd _ => "end_class"
  | ifStart => "if"
  | ifElse => "else"
  | ifEnd => "end_if"
  | unknown opcode _ => opcode

/-- The operand, if there is one. -/
def operand? : Operation → Option Foreign
  | pushInt value => some (.int value)
  | pushArg index => some (.int index)
  | pushStr name | pushConst name | pushVar name | setVar name | send name _ | defStart name
  | defEnd name | classStart name | classEnd name => some (.text name)
  | unknown _ operand => operand.map .text
  | pushNil | ifStart | ifElse | ifEnd => none

/-- The operand read as a name. -/
def name? (op : Operation) : Option String :=
  match op.operand? with
  | some (.text name) => some name
  | _ => none

/-- The number of arguments an operation takes from the stack besides its receiver. -/
def argCount : Operation → Nat
  | send _ (some count) => count.toNat
  | _ => 0

/-- The opcode, the operand and the argument count, as far as they are there. -/
def parts (op : Operation) : List Foreign :=
  .text op.opcode :: op.operand?.toList ++
    (match op with
      | send _ (some count) => [.int count]
      | _ => [])

end Operation

/-- An operation and where it comes from. -/
structure Instruction where
  op : Operation
  origin : Origin
  deriving Repr, DecidableEq, Inhabited

namespace Instruction

/-- The text of the operand; a missing one is spelled out. -/
def operandText (i : Instruction) : String :=
  match i.op.operand? with
  | some value => value.plain
  | none => Foreign.none.plain

/-- The error of an instruction without an origin. -/
def missingOriginMessage (op : Operation) : String :=
  op.opcode ++ " instruction requires a source node, got " ++ Foreign.none.display

/-- An instruction as a debugging text. -/
def describe (i : Instruction) : String :=
  "<Instruction " ++ " ".intercalate (i.op.parts.map Foreign.display) ++ ">"

end Instruction

end Rubylet
