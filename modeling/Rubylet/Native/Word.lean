import Rubylet.Operator

/-!
# Machine words

Integers of native code are words of 64 bits. Addition, subtraction and multiplication wrap around.
A machine divides toward zero and defines neither a zero divisor nor the one quotient that
is no word, so division down is a sequence of instructions: `Word.floorQuotient?` replaces a zero
divisor by one, divides toward zero and steps down by one if the division is inexact and the
signs of remainder and divisor differ.
-/

namespace Rubylet.Native

/-- A word of 64 bits. -/
abbrev Word := BitVec 64

namespace Word

/-- The word of an integer, up to a multiple of `2 ^ 64`. -/
def ofInt (n : Int) : Word := BitVec.ofInt 64 n

/-- Is the machine's division of `a` by `b` defined? -/
def divides (a b : Word) : Bool := b != 0 && !(a == BitVec.intMin 64 && b == -1)

/-- The quotient toward zero, where it is defined. -/
def quotient? (a b : Word) : Option Word := if divides a b then some (a.sdiv b) else none

/-- The remainder of the quotient toward zero, where it is defined. -/
def remainder? (a b : Word) : Option Word := if divides a b then some (a.srem b) else none

/-- The divisor that is used in place of `b`. -/
def safeDivisor (b : Word) : Word := if b = 0 then 1 else b

/-- No division is by zero. -/
theorem safeDivisor_ne_zero (b : Word) : safeDivisor b ≠ 0 := by
  unfold safeDivisor
  split <;> simp_all

/-- The step down from the quotient toward zero. -/
def adjustment (remainder divisor : Word) : Word :=
  (BitVec.ofBool (remainder != 0 && (remainder ^^^ divisor).slt 0)).setWidth 64

/-- The quotient rounded down, where all steps to it are defined. -/
def floorQuotient? (a b : Word) : Option Word := do
  let divisor := safeDivisor b
  let quotient ← quotient? a divisor
  let remainder ← remainder? a divisor
  return quotient - adjustment remainder divisor

end Word

/-- An arithmetic instruction. -/
inductive Arith where
  | add
  | subtract
  | multiply
  | divide
  deriving Repr, DecidableEq, Inhabited

namespace Arith

/-- The instruction for an operator of integers. -/
def named? (name : String) : Option Arith :=
  match Operator.find? .int name with
  | some .add => some add
  | some .subtract => some subtract
  | some .multiply => some multiply
  | some .divide => some divide
  | _ => none

/-- The result of an instruction, where it is defined. -/
def eval? : Arith → Word → Word → Option Word
  | add, a, b => some (a + b)
  | subtract, a, b => some (a - b)
  | multiply, a, b => some (a * b)
  | divide, a, b => Word.floorQuotient? a b

end Arith

end Rubylet.Native
