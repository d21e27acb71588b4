/-!
# Faults

What goes wrong when a stage is handed code that no program lowers to, and takes it by its word: an
operand that is not there, an argument beyond the list, a name in no table.

Two kinds of faults are within the reach of a program. Repeating a text can ask for more than there
is an index or room for, and a number can have too many digits to be converted to or from a text.

Repetition is the one operation whose room is accounted for, because its result can be out of all
proportion to its operands; how much room there is, is a parameter (`repetitionFault?`). A sum of
texts and an integer of any size always have room, and so have the stacks of every stage but the
calls of a running program.
-/

namespace Rubylet

/-- An operation that cannot be carried out. -/
inductive Fault where
  | emptyStack
  | noSuchElement
  | noSuchKey
  /-- The end of a method that was never called. -/
  | noReturnAddress
  | divisionByZero
  /-- Values of different kinds where one kind is wanted. -/
  | mixedKinds
  /-- Operands that have to be of one kind, whichever it is, and are not. -/
  | unlikeOperands
  /-- An instruction where none may stand, or with an operand that it never takes. -/
  | illegalInstruction
  /-- A size or a count that is no index. -/
  | beyondIndex
  | outOfMemory
  /-- A number with more digits than are converted to or from a text. -/
  | tooManyDigits
  /-- Native code whose branches or functions do not fit together. -/
  | brokenCode
  deriving Repr, DecidableEq, Inhabited

/-- The element with an index; a negative index counts from the end. -/
def elementAt? {α : Type} (xs : List α) (index : Int) : Option α :=
  if 0 ≤ index then xs[index.toNat]?
  else if -index ≤ xs.length then xs[xs.length - (-index).toNat]?
  else none

theorem elementAt?_natCast {α : Type} (xs : List α) (n : Nat) :
    elementAt? xs (n : Int) = xs[n]? := by
  simp [elementAt?]

theorem elementAt?_map {α β : Type} (f : α → β) (xs : List α) (index : Int) :
    elementAt? (xs.map f) index = (elementAt? xs index).map f := by
  unfold elementAt?
  rw [List.length_map, List.getElem?_map, List.getElem?_map]
  split
  · rfl
  · split <;> rfl

/-- The greatest index. An index is a signed word of 64 bits. -/
def maxIndex : Nat := Nat.pow 2 63 - 1

/-- The most digits of a number that is converted to or from a text. -/
def maxDigits : Nat := 4300

/-- What goes wrong when a text of a length is repeated, where there is room for texts up to a
length of `memory`. The count has to be an index, although a negative one counts as zero; the result
has to have an index for every character, and there has to be room for it. -/
def repetitionFault? (memory length : Nat) (count : Int) : Option Fault :=
  if count < -maxIndex - 1 || maxIndex < count || maxIndex < count.toNat * length then
    some .beyondIndex
  else if memory < count.toNat * length then some .outOfMemory
  else none

end Rubylet
