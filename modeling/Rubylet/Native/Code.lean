import Rubylet.Native.Word
import Rubylet.Table

/-!
# Native code

A native program is a main body and one function for each method definition. A body has a slot for
each of its locals and a list of instructions. The results of instructions are named by the
records they were made for, and each is written once.

A conditional is a tree: which of its branches is taken is known from the type of the condition,
but both are there. Its result is the value of the branch that was taken.

A program can be put together wrongly and written down nevertheless. It is sound if it can also be
run.
-/

namespace Rubylet.Native

/-- The two kinds of values: an integer is a word; a string and nil are pointers. -/
inductive Kind where
  | word
  | pointer
  deriving Repr, DecidableEq, Inhabited

/-- What an instruction is given. -/
inductive Operand where
  | word (value : Word)
  | text (value : String)
  /-- The pointer that stands for nil. -/
  | null
  /-- The result of the instruction of a record. -/
  | result (record : Nat) (kind : Kind)
  /-- An argument of the function. -/
  | argument (index : Nat) (kind : Kind)
  deriving Repr, DecidableEq, Inhabited

/-- The kind of an operand. -/
def Operand.kind : Operand → Kind
  | word _ => .word
  | text _ | null => .pointer
  | result _ kind | argument _ kind => kind

/-- An instruction. -/
inductive Inst where
  | store (name : String) (value : Operand)
  | load (record : Nat) (name : String)
  | arith (record : Nat) (op : Arith) (left right : Operand)
  /-- Calls the function of a method definition. -/
  | call (record method : Nat) (args : List Operand)
  | branch (record : Nat) (taken : Bool) (first : List Inst) (firstValue : Operand)
      (second : List Inst) (secondValue : Operand)
  deriving Repr, Inhabited

/-- What a function does. -/
structure Body where
  slots : Table String Kind
  code : List Inst
  /-- What it returns. -/
  value : Operand
  deriving Repr, Inhabited

/-- How a function is called. -/
structure Signature where
  name : String
  params : List Kind
  result : Kind
  deriving Repr, DecidableEq, Inhabited

/-- A function. -/
structure Function where
  signature : Signature
  body : Body
  deriving Repr, Inhabited

/-- A native program. -/
structure Program where
  main : Body
  /-- The functions, by the records of the definitions. -/
  functions : Table Nat Function
  /-- Do all its parts fit together? -/
  isSound : Bool
  deriving Repr, Inhabited

end Rubylet.Native
