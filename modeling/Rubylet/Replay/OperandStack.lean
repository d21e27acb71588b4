import Rubylet.Fault

/-!
# Operand stacks

A stack of records as a list, its top first. A pop may have a floor: a height below which it does
not reach. `popMany` answers the elements in the order in which they were pushed; if there are too
few of them they are gone all the same. `popAbove` and `truncateAt` take any integer for a height.
-/

namespace Rubylet.OperandStack

variable {α : Type}

/-- Pops the top if the stack is higher than `floor`. -/
def pop (floor : Nat) : List α → Option (α × List α)
  | [] => none
  | x :: rest => if rest.length < floor then none else some (x, rest)

/-- Pops `count` elements, and answers them in the order in which they were pushed. If there are too
few of them, the stack is left empty. -/
def popMany (count : Nat) (stack : List α) : Option (List α) × List α :=
  (if count ≤ stack.length then some (stack.take count).reverse else none, stack.drop count)

/-- Drops what stands above a height. -/
def truncate (height : Nat) (stack : List α) : List α := stack.drop (stack.length - height)

/-- Pops the top if the stack is higher than a floor, which may lie below the ground. An empty stack
is higher than such a floor, and has no top. -/
def popAbove (floor : Int) (stack : List α) : Except Fault (Option (α × List α)) :=
  if floor < 0 && stack.isEmpty then .error .emptyStack else .ok (pop floor.toNat stack)

/-- Drops what stands above a height; a negative height counts from the top down. -/
def truncateAt (height : Int) (stack : List α) : List α :=
  if 0 ≤ height then truncate height.toNat stack else stack.drop (-height).toNat

/-- The top, if there is one. -/
def peek (stack : List α) : Option α := stack.head?

theorem pop_eq_some_iff {floor : Nat} {stack rest : List α} {x : α} :
    pop floor stack = some (x, rest) ↔ stack = x :: rest ∧ floor < stack.length := by
  cases stack with
  | nil => simp [pop]
  | cons y ys => grind [pop]

theorem length_truncate (height : Nat) (stack : List α) :
    (truncate height stack).length = min height stack.length := by
  simp [truncate]; omega

@[simp] theorem truncate_append (above stack : List α) :
    truncate stack.length (above ++ stack) = stack := by
  simp [truncate]

theorem map_truncate {β : Type} (f : α → β) (height : Nat) (stack : List α) :
    (truncate height stack).map f = truncate height (stack.map f) := by
  rw [truncate, truncate, List.map_drop, List.length_map]

theorem popMany_push (args stack : List α) :
    popMany args.length (args.reverse ++ stack) = (some args, stack) := by
  simp [popMany]

end Rubylet.OperandStack
