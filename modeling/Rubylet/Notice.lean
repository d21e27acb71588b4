import Rubylet.Ty

/-!
# Notices

What the stages of a compilation say beside their results. A `Notice` is a fact; its level, the
channel it belongs to and its wording are functions of it.
-/

namespace Rubylet

/-- How much a notice matters. -/
inductive Level where
  | debug
  | info
  | warning
  deriving Repr, DecidableEq, Inhabited

/-- Something a stage has to say. -/
inductive Notice where
  | readSource (characters : Nat) (path : String)
  | lowered (instructions : Nat)
  | reopenedClass (name : String) (line : Int)
  | redefinedMethod (name : String) (line : Int)
  | indexed (methods classes names : Nat)
  | typed (record : Nat) (opcode : String) (type : Ty)
  | typedAll (records : Nat)
  | running (records : Nat) (backend : String)
  | called (method : String) (args : Nat)
  | emitted (functions : Nat)
  deriving Repr, DecidableEq, Inhabited

namespace Notice

/-- The level of a notice. -/
def level : Notice → Level
  | redefinedMethod _ _ => .warning
  | running _ _ => .info
  | _ => .debug

/-- The channel of a notice. -/
def channel : Notice → String
  | readSource _ _ => "tix.cli"
  | lowered _ => "tix.compiler"
  | reopenedClass _ _ | redefinedMethod _ _ | indexed _ _ _ => "tix.graph"
  | typed _ _ _ | typedAll _ => "tix.resolver"
  | running _ _ => "tix.driver"
  | called _ _ => "tix.vm"
  | emitted _ => "tix.jit"

/-- The wording of a notice. -/
def message : Notice → String
  | readSource characters path => "read " ++ toString characters ++ " characters from " ++ path
  | lowered instructions => "lowered `block' into " ++ toString instructions ++ " instructions"
  | reopenedClass name line => "reopening class `" ++ name ++ "' on line " ++ toString line
  | redefinedMethod name line =>
    "method `" ++ name ++ "' redefined on line " ++ toString line ++ "; the last definition wins"
  | indexed methods classes names =>
    "indexed " ++ toString methods ++ " global methods, " ++ toString classes ++ " classes, " ++
      toString names ++ " called names"
  | typed record opcode type =>
    "#" ++ toString record ++ " " ++ opcode ++ " : " ++ type.name
  | typedAll records => "resolved " ++ toString records ++ " records"
  | running records backend =>
    "running " ++ toString records ++ " typed records on the " ++ backend ++ " backend"
  | called method args => "call `" ++ method ++ "' with " ++ toString args ++ " args"
  | emitted functions => "emitted LLVM module with " ++ toString functions ++ " functions"

end Notice

end Rubylet
