import Rubylet.Inference
import Rubylet.Text.Basic

/-!
# Listings

A listing has one line for each instruction: its number, its opcode, indented by the blocks it
stands in, its operand, its type if there is one, and its position. The operand of a string is
quoted, so that no operand breaks a line.
-/

namespace Rubylet.Listing

/-- The operand as it is listed. -/
def operand (op : Operation) : String :=
  match op with
  | .pushStr text => Text.quote text
  | .send name count =>
    name ++ " (" ++ (match count with
      | some n => toString n
      | none => Foreign.none.plain) ++ ")"
  | op =>
    match op.operand? with
    | some value => value.plain
    | none => ""

/-- The opcode and the operand. -/
def body (op : Operation) : String :=
  let operand := operand op
  if operand.isEmpty then op.opcode else op.opcode ++ " " ++ operand

/-- One line. -/
def line (number depth : Nat) (i : Instruction) (type? : Option Ty) : String :=
  let text := Text.padLeft 4 (toString number) ++ "  " ++
    Text.padRight 32 (Text.blanks (2 * depth) ++ body i.op)
  let typed :=
    match type? with
    | some type => text ++ " : " ++ type.name
    | none => text
  Text.padRight 48 (Text.trimRight typed) ++ " ; " ++ toString i.origin.pos.line ++ ":" ++
    toString i.origin.pos.column

/-- Does the instruction end a block or the first branch of a conditional? -/
def closes : Operation → Bool
  | .defEnd _ | .classEnd _ | .ifEnd | .ifElse => true
  | _ => false

/-- Does the instruction begin a block or the second branch of a conditional? -/
def opens : Operation → Bool
  | .defStart _ | .classStart _ | .ifStart | .ifElse => true
  | _ => false

/-- The lines from a record on; `depth` blocks are open. -/
def linesFrom (number depth : Nat) : List TypedRecord → List String
  | [] => []
  | r :: rest =>
    let op := r.instruction.op
    let here := if closes op then depth - 1 else depth
    line number here r.instruction r.type? ::
      linesFrom (number + 1) (if opens op then here + 1 else here) rest

/-- There is one line for each record. -/
@[simp] theorem length_linesFrom (number depth : Nat) (records : List TypedRecord) :
    (linesFrom number depth records).length = records.length := by
  induction records generalizing number depth with
  | nil => rfl
  | cons r rest ih => simp [linesFrom, ih]

/-- The listing of typed code. -/
def typed (records : List TypedRecord) : String := "\n".intercalate (linesFrom 0 0 records)

/-- The listing of code without types. -/
def untyped (code : List Instruction) : String := typed (code.map fun i => ⟨i, none⟩)

end Rubylet.Listing
