import Rubylet.Fault
import Rubylet.Operator
import Rubylet.Text.Basic

/-!
# Values

The values of a running program. Integers are unbounded; an object is known by its class alone.

`Value.inspect` is how a value is shown. For nil, strings and integers that are not negative it is a
program text that yields the value again. An integer has no bound of its own, but one of too many
digits cannot be shown.
-/

namespace Rubylet

/-- A runtime value. -/
inductive Value where
  | nil
  | int (n : Int)
  | str (s : String)
  /-- A class. -/
  | cls (name : String)
  /-- An object of a class. -/
  | object (className : String)
  deriving Repr, DecidableEq, Inhabited

namespace Value

/-- A string between double quotes. Backslashes, quotes and line feeds are escaped, one kind after
the other. Backslashes come first: those of the other escapes are not escaped again. -/
def inspectString (s : String) : String :=
  let escaped := Text.replaceEach '\n' ['\\', 'n']
    (Text.replaceEach '\x22' ['\\', '\x22'] (Text.replaceEach '\\' ['\\', '\\'] s.toList))
  String.ofList ('\x22' :: (escaped ++ ['\x22']))

/-- An integer in decimal digits, unless they are too many. -/
def inspectInt (n : Int) : Except Fault String :=
  if Nat.pow 10 maxDigits ≤ n.natAbs then .error .tooManyDigits else .ok (toString n)

/-- How a value is shown. -/
def inspect : Value → Except Fault String
  | nil => .ok "nil"
  | int n => inspectInt n
  | str s => .ok (inspectString s)
  | cls name => .ok name
  | object className => .ok ("#<" ++ className ++ ">")

/-- Only numbers of too many digits are not shown. -/
theorem error_of_inspect {v : Value} {f : Fault} (h : v.inspect = .error f) :
    f = .tooManyDigits := by
  cases v with
  | int n =>
    rw [inspect, inspectInt] at h
    split at h <;> cases h
    rfl
  | _ => cases h

/-- Only nil is false. -/
def isTruthy : Value → Bool
  | nil => false
  | _ => true

/-- The type of a value, as far as primitive operators are concerned. -/
def type? : Value → Option Ty
  | int _ => some .int
  | str _ => some .str
  | _ => none

/-- A text some times over; never, if the count is negative. There is room for texts up to a length of
`memory`. -/
def replicateText (memory : Nat) (s : String) (count : Int) : Except Fault String :=
  match repetitionFault? memory s.length count with
  | some f => .error f
  | none => .ok (Text.repeated count.toNat s)

end Value

namespace Operator

/-- The value of an operator, where there is room for texts up to a length of `memory`. Addition and
multiplication take any operands they have a meaning for. -/
def apply (memory : Nat) (o : Operator) (left right : Value) : Except Fault Value :=
  match o, left, right with
  | .add, .int a, .int b | .concat, .int a, .int b => .ok (.int (a + b))
  | .add, .str a, .str b | .concat, .str a, .str b => .ok (.str (a ++ b))
  | .subtract, .int a, .int b => .ok (.int (a - b))
  | .multiply, .int a, .int b | .replicate, .int a, .int b => .ok (.int (a * b))
  | .multiply, .str s, .int n | .replicate, .str s, .int n
  | .multiply, .int n, .str s | .replicate, .int n, .str s =>
    (Value.replicateText memory s n).map .str
  | .divide, .int a, .int b => if b = 0 then .error .divisionByZero else .ok (.int (a.fdiv b))
  | _, _, _ => .error .mixedKinds

end Operator

end Rubylet
