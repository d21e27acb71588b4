import Rubylet.Instruction.Listing
import Rubylet.Proofs.Syntax.Descent
import Rubylet.Proofs.Syntax.Spelled
import Rubylet.Proofs.Text.Columns
import Rubylet.Proofs.Text.Quoting
import Std.Data.String.ToInt

/-!
# A listing determines the code

A line of a listing is put together from columns, and each column is found again in it. The position
stands behind the last semicolon, and numbers have neither colons nor blanks in them. What is before
it has been filled up twice, but ends in no blank itself. The opcode goes up to the first blank
behind the indentation, and what follows is the operand.

So two lines with the same number that look the same come from the same operation at the same
position, however deep they are indented (`eq_of_line_eq`). And no operand breaks a line: names are
visible, and texts are quoted (`oneLine_line`).

* `code_of_listing`: a listing has a line for each instruction, and programs with the same listing
  have the same operations at the same positions.
-/

namespace Rubylet.Listing

open Text

variable {op op' : Operation} {c : Char} {code code' : List Instruction}

/-! ### Operands -/

/-- A word without blanks is firm at both ends. -/
theorem firm_of_visible {s : String} (h : Visible s) : Firm s := by
  obtain ⟨cs, c, heq⟩ : ∃ cs c, s.toList = cs ++ [c] := by
    rcases List.eq_nil_or_concat s.toList with hnil | h'
    · exact absurd (String.toList_eq_nil_iff.mp hnil) h.1
    · obtain ⟨cs, c, heq⟩ := h'
      exact ⟨cs, c, by rw [heq, List.concat_eq_append]⟩
  exact ⟨cs, c, heq, h.2 c (heq ▸ List.mem_append_right _ (.head _))⟩

theorem not_isLineBreak_of_visible {s : String} (h : Visible s) (hc : c ∈ s.toList) :
    isLineBreak c = false := by
  rw [← Bool.not_eq_true]
  intro hbreak
  exact absurd (isBlank_of_isLineBreak hbreak) (by simp [h.2 c hc])

theorem visible_toString (n : Int) : Visible (toString n) :=
  ⟨toString_ne_empty n, fun _ hc => not_isBlank_of_isFigure (isFigure_of_mem_toString hc)⟩

/-- A quoted text begins and ends with its quotes. -/
theorem firm_quote (s : String) : Firm (quote s) := by
  refine ⟨quoteMark s.toList :: s.toList.flatMap (quoteChar (quoteMark s.toList)),
    quoteMark s.toList, by rw [quote, String.toList_ofList]; rfl, ?_⟩
  rcases isMark_quoteMark s.toList with h | h <;> rw [h] <;> rfl

theorem visible_opcode (h : op.Spelled) : Visible op.opcode := by
  cases op
  case unknown => exact h.elim
  all_goals
    simp only [Operation.opcode]
    exact ⟨by decide, fun c => eq_of_all (by decide)⟩

/-- The operand of a call is its name and the number of its arguments. -/
theorem operand_send (name : String) (n : Int) :
    operand (.send name (some n)) = name ++ " (" ++ toString n ++ ")" := rfl

/-- An operand is missing or ends in something that is not blank. -/
theorem operand_cases (h : op.Spelled) : operand op = "" ∨ Firm (operand op) := by
  -- An operand is missing, a word, a quoted text, or a name with a count in brackets.
  cases op with
  | pushNil | ifStart | ifElse | ifEnd => exact .inl rfl
  | pushInt value => exact .inr (firm_of_visible (visible_toString value))
  | pushArg index => exact .inr (firm_of_visible (visible_toString index))
  | pushStr text => exact .inr (firm_quote text)
  | pushConst | pushVar | setVar | defStart | defEnd | classStart | classEnd =>
    exact .inr (firm_of_visible h)
  | send name count =>
    obtain ⟨n, rfl⟩ := Option.isSome_iff_exists.mp h.2
    exact .inr (firm_append _ ⟨[], ')', rfl, rfl⟩)
  | unknown => exact h.elim

/-- An operand breaks no line. -/
theorem not_isLineBreak_of_mem_operand (h : op.Spelled) (hc : c ∈ (operand op).toList) :
    isLineBreak c = false := by
  cases op with
  | pushNil | ifStart | ifElse | ifEnd => cases hc
  | pushInt value => exact not_isLineBreak_of_visible (visible_toString value) hc
  | pushArg index => exact not_isLineBreak_of_visible (visible_toString index) hc
  | pushStr text => exact not_isLineBreak_of_mem_quote hc
  | pushConst | pushVar | setVar | defStart | defEnd | classStart | classEnd =>
    exact not_isLineBreak_of_visible h hc
  | send name count =>
    obtain ⟨n, rfl⟩ := Option.isSome_iff_exists.mp h.2
    rw [operand_send] at hc
    simp only [String.toList_append, List.mem_append] at hc
    -- The name, the bracket, the count, the bracket.
    rcases hc with ((hc | hc) | hc) | hc
    · exact not_isLineBreak_of_visible h.1 hc
    · exact eq_of_all (by decide) hc
    · exact not_isLineBreak_of_visible (visible_toString n) hc
    · exact eq_of_all (by decide) hc
  | unknown => exact h.elim

/-- What is visible goes up to the first blank. -/
theorem eq_of_blank_behind {s t : String} {a b : List Char} (hs : Visible s) (ht : Visible t)
    (h : s.toList ++ ' ' :: a = t.toList ++ ' ' :: b) : s = t ∧ a = b := by
  have hblank {u : String} (hu : Visible u) : ' ' ∉ u.toList := fun hm => by cases hu.2 ' ' hm
  obtain ⟨heq, hrest⟩ := split_at_first (hblank hs) (hblank ht) h
  exact ⟨String.toList_injective heq, hrest⟩

/-- **The opcode and the operand determine the operation.** -/
theorem eq_of_opcode_operand (h : op.Spelled) (h' : op'.Spelled) (hopcode : op.opcode = op'.opcode)
    (hoperand : operand op = operand op') : op = op' := by
  -- Equal opcodes leave the pairs with the same constructor.
  cases op <;> cases op' <;> simp only [Operation.opcode, String.reduceEq] at hopcode
  case pushNil.pushNil | ifStart.ifStart | ifElse.ifElse | ifEnd.ifEnd => rfl
  case pushInt.pushInt => exact congrArg _ (Int.repr_injective hoperand)
  case pushArg.pushArg => exact congrArg _ (Int.repr_injective hoperand)
  case pushStr.pushStr => exact congrArg _ (quote_injective hoperand)
  case send.send name count name' count' =>
    obtain ⟨n, rfl⟩ := Option.isSome_iff_exists.mp h.2
    obtain ⟨n', rfl⟩ := Option.isSome_iff_exists.mp h'.2
    have hchars := congrArg String.toList hoperand
    have hopen : " (".toList = [' ', '('] := rfl
    simp only [operand_send, String.toList_append, hopen, List.append_assoc, List.cons_append,
      List.nil_append] at hchars
    -- A name has no blank, so it ends where the bracket of the count is opened.
    obtain ⟨rfl, hcount⟩ := eq_of_blank_behind h.1 h'.1 hchars
    have hn := List.append_cancel_right (List.cons.inj hcount).2
    rw [Int.repr_injective (String.toList_injective hn)]
  case unknown.unknown => exact h.elim
  all_goals first | exact h.elim | exact h'.elim | exact congrArg _ hoperand

/-! ### The column of the operation -/

theorem body_of_empty (h : operand op = "") : body op = op.opcode := by
  rw [body, h]
  exact if_pos rfl

theorem body_of_nonempty (h : operand op ≠ "") :
    (body op).toList = op.opcode.toList ++ ' ' :: (operand op).toList := by
  have hblank : " ".toList = [' '] := rfl
  rw [body, if_neg (by simpa using h), String.toList_append, String.toList_append, hblank,
    List.append_assoc, List.singleton_append]

/-- **What is listed of an operation determines it.** -/
theorem eq_of_body_eq (h : op.Spelled) (h' : op'.Spelled) (heq : body op = body op') :
    op = op' := by
  -- Behind an opcode with an operand there is a blank, and there is none in an opcode alone.
  have hone {op op' : Operation} (hop : op.Spelled) (hempty : operand op = "")
      (hnonempty : operand op' ≠ "") (heq : body op = body op') : False := by
    have hchars := congrArg String.toList heq
    rw [body_of_empty hempty, body_of_nonempty hnonempty] at hchars
    have hblank : ' ' ∈ op.opcode.toList := hchars ▸ List.mem_append_right _ (.head _)
    cases (visible_opcode hop).2 ' ' hblank
  by_cases hempty : operand op = "" <;> by_cases hempty' : operand op' = ""
  · rw [body_of_empty hempty, body_of_empty hempty'] at heq
    exact eq_of_opcode_operand h h' heq (hempty.trans hempty'.symm)
  · exact (hone h hempty hempty' heq).elim
  · exact (hone h' hempty' hempty heq.symm).elim
  · have hchars := congrArg String.toList heq
    rw [body_of_nonempty hempty, body_of_nonempty hempty'] at hchars
    obtain ⟨hopcode, hoperand⟩ := eq_of_blank_behind (visible_opcode h) (visible_opcode h') hchars
    exact eq_of_opcode_operand h h' hopcode (String.toList_injective hoperand)

/-- What an operation prints begins and ends with a character that is not blank. -/
theorem firm_body (h : op.Spelled) : Firm (body op) := by
  rcases operand_cases h with hempty | hfirm
  · rw [body_of_empty hempty]
    exact firm_of_visible (visible_opcode h)
  · unfold body
    simp only
    split
    · exact firm_of_visible (visible_opcode h)
    · exact firm_append _ hfirm

/-- The opcode begins with what is not blank. -/
theorem head_body (h : op.Spelled) : (body op).toList.head? ≠ some ' ' := by
  obtain ⟨c, cs, hcs⟩ : ∃ c cs, op.opcode.toList = c :: cs :=
    List.exists_cons_of_ne_nil fun hnil => (visible_opcode h).1 (String.toList_eq_nil_iff.mp hnil)
  have hhead : (body op).toList.head? = some c := by
    by_cases hempty : operand op = ""
    · rw [body_of_empty hempty, hcs]; rfl
    · rw [body_of_nonempty hempty, hcs]; rfl
  rw [hhead]
  rintro heq
  obtain rfl := Option.some.inj heq
  cases (visible_opcode h).2 ' ' (hcs ▸ .head _)

/-- What an operation prints stays on its line. -/
theorem not_isLineBreak_of_mem_body (h : op.Spelled) (hc : c ∈ (body op).toList) :
    isLineBreak c = false := by
  by_cases hempty : operand op = ""
  · rw [body_of_empty hempty] at hc
    exact not_isLineBreak_of_visible (visible_opcode h) hc
  · rw [body_of_nonempty hempty, List.mem_append, List.mem_cons] at hc
    rcases hc with hc | rfl | hc
    · exact not_isLineBreak_of_visible (visible_opcode h) hc
    · rfl
    · exact not_isLineBreak_of_mem_operand h hc

/-! ### One line -/

variable {number depth depth' : Nat} {i i' : Instruction}

/-- The columns before the position, as far as they are not filled up. -/
def stem (number depth : Nat) (op : Operation) : String :=
  padLeft 4 (toString number) ++ "  " ++ (blanks (2 * depth) ++ body op)

/-- A line without a type, before and from its position on. -/
theorem line_eq (h : i.op.Spelled) : line number depth i none =
    padRight 48 (stem number depth i.op) ++ " ; " ++ toString i.origin.pos.line ++ ":" ++
      toString i.origin.pos.column := by
  have htrim : trimRight (padLeft 4 (toString number) ++ "  " ++
      padRight 32 (blanks (2 * depth) ++ body i.op)) = stem number depth i.op := by
    rw [padRight, ← String.append_assoc, trimRight_append_blanks]
    exact trimRight_of_firm (firm_append _ (firm_append _ (firm_body h)))
  unfold line
  dsimp only
  rw [htrim]

/-- What is before the position determines the operation. -/
theorem eq_of_stem_eq (h : i.op.Spelled) (h' : i'.op.Spelled)
    (heq : padRight 48 (stem number depth i.op) = padRight 48 (stem number depth' i'.op)) :
    i.op = i'.op := by
  have hstem (d : Nat) {op : Operation} (hop : op.Spelled) :
      trimRight (padRight 48 (stem number d op)) = stem number d op := by
    rw [trimRight_padRight]
    exact trimRight_of_firm (firm_append _ (firm_append _ (firm_body hop)))
  have hstems : stem number depth i.op = stem number depth' i'.op := by
    rw [← hstem depth h, heq, hstem depth' h']
  have hbody := (String.append_right_inj _).mp hstems
  exact eq_of_body_eq h h' (eq_of_blanks_append (head_body h) (head_body h') hbody)

/-- A number has no separators in it. -/
theorem not_mem_toString {n : Int} (h : isFigure c = false) : c ∉ (toString n).toList := fun hc =>
  absurd (isFigure_of_mem_toString hc) (by simp [h])

/-- **A line determines what it lists**, the operation and its position, however deep it is. -/
theorem eq_of_line_eq (h : i.op.Spelled) (h' : i'.op.Spelled)
    (heq : line number depth i none = line number depth' i' none) :
    i.op = i'.op ∧ i.origin.pos = i'.origin.pos := by
  -- The text before the position may hold any separator, as in a quoted form. So the line is taken
  -- apart from its end, where the numbers of the position hold none.
  have hplaced (text l c : String) : (text ++ " ; " ++ l ++ ":" ++ c).toList =
      ((text.toList ++ [' ', ';']) ++ ' ' :: l.toList) ++ ':' :: c.toList := by
    have hsemi : " ; ".toList = [' ', ';', ' '] := rfl
    have hcolon : ":".toList = [':'] := rfl
    simp [String.toList_append, hsemi, hcolon]
  have hchars := congrArg String.toList heq
  rw [line_eq h, line_eq h', hplaced, hplaced] at hchars
  obtain ⟨hleft, hcolumn⟩ := split_at_last (not_mem_toString rfl) (not_mem_toString rfl) hchars
  obtain ⟨htext, hline⟩ := split_at_last (not_mem_toString rfl) (not_mem_toString rfl) hleft
  have hop := eq_of_stem_eq h h' (String.toList_injective (List.append_cancel_right htext))
  have hl := Int.repr_injective (String.toList_injective hline)
  have hc := Int.repr_injective (String.toList_injective hcolumn)
  have hpos : i.origin.pos = ⟨i'.origin.pos.line, i'.origin.pos.column⟩ := by rw [← hl, ← hc]
  exact ⟨hop, hpos⟩

/-- A line is not broken. -/
theorem oneLine_line (h : i.op.Spelled) : OneLine (line number depth i none) := by
  -- None of the parts of a line can break it.
  have hnumber (n : Int) : ∀ c ∈ (toString n).toList, isLineBreak c = false :=
    fun c => not_isLineBreak_of_visible (visible_toString n)
  have hblanks (n : Nat) : ∀ c ∈ (blanks n).toList, isLineBreak c = false := by
    intro c hc
    rw [blanks, String.toList_ofList] at hc
    rw [List.eq_of_mem_replicate hc]
    rfl
  have hbody : ∀ c ∈ (body i.op).toList, isLineBreak c = false :=
    fun c => not_isLineBreak_of_mem_body h
  have hsemi : ∀ c ∈ " ; ".toList, isLineBreak c = false := fun c => eq_of_all (by decide)
  have hcolon : ∀ c ∈ ":".toList, isLineBreak c = false := fun c => eq_of_all (by decide)
  have hgap : ∀ c ∈ "  ".toList, isLineBreak c = false := fun c => eq_of_all (by decide)
  rw [line_eq h]
  -- A line is not empty: its column is the last thing on it.
  refine ⟨fun hempty => ?_, ?_⟩
  · have hcolumn := (String.append_eq_empty_iff.mp hempty).2
    exact toString_ne_empty _ hcolumn
  · simp only [padRight, padLeft, stem, String.toList_append, List.forall_mem_append]
    exact ⟨⟨⟨⟨⟨⟨⟨⟨hblanks _, hnumber number⟩, hgap⟩, hblanks _, hbody⟩, hblanks _⟩, hsemi⟩,
      hnumber _⟩, hcolon⟩, hnumber _⟩

/-! ### All lines -/

/-- The lines of untyped code are not broken. -/
theorem oneLine_linesFrom (h : AreSpelled code) {l : String}
    (hl : l ∈ linesFrom number depth (code.map fun i => ⟨i, none⟩)) : OneLine l := by
  induction code generalizing number depth with
  | nil => cases hl
  | cons i code ih =>
    rcases List.mem_cons.mp hl with rfl | hl
    · exact oneLine_line (h i (.head _))
    · exact ih (fun j hj => h j (.tail _ hj)) hl

/-- **Lines determine the code**, whatever blocks are open before them. -/
theorem eq_of_linesFrom_eq (h : AreSpelled code) (h' : AreSpelled code')
    (heq : linesFrom number depth (code.map fun i => ⟨i, none⟩) =
      linesFrom number depth' (code'.map fun i => ⟨i, none⟩)) :
    code.map (fun i => (i.op, i.origin.pos)) = code'.map fun i => (i.op, i.origin.pos) := by
  -- On the code: the lines come one for one, so the first ones are equal and the rest are.
  induction code generalizing code' number depth depth' with
  | nil =>
    cases code' with
    | nil => rfl
    | cons i' code' => cases heq
  | cons i code ih =>
    cases code' with
    | nil => cases heq
    | cons i' code' =>
      obtain ⟨hline, hrest⟩ := List.cons.inj heq
      obtain ⟨hop, hpos⟩ := eq_of_line_eq (h i (.head _)) (h' i' (.head _)) hline
      rw [List.map_cons, List.map_cons, hop, hpos,
        ih (fun j hj => h j (.tail _ hj)) (fun j hj => h' j (.tail _ hj)) hrest]

/-- **A listing determines the code.** It has exactly one line for each instruction, and two programs
with the same listing have the same operations at the same positions. -/
theorem code_of_listing {source source' : String} (h : Program.code source = .ok code)
    (h' : Program.code source' = .ok code') :
    (lines (untyped code) = linesFrom 0 0 (code.map fun i => ⟨i, none⟩) ∧
      (lines (untyped code)).length = code.length) ∧
    (untyped code = untyped code' →
      code.map (fun i => (i.op, i.origin.pos)) = code'.map fun i => (i.op, i.origin.pos)) := by
  have hspelled := areSpelled_of_code h
  have hspelled' := areSpelled_of_code h'
  -- The printed text breaks into the lines it was put together from.
  have hlines {code : List Instruction} (hs : AreSpelled code) :
      lines (untyped code) = linesFrom 0 0 (code.map fun i => ⟨i, none⟩) :=
    lines_intercalate fun l hl => oneLine_linesFrom hs hl
  refine ⟨⟨hlines hspelled, ?_⟩, fun heq => ?_⟩
  · rw [hlines hspelled, length_linesFrom, List.length_map]
  · have hsame : linesFrom 0 0 (code.map fun i => ⟨i, none⟩) =
        linesFrom 0 0 (code'.map fun i => ⟨i, none⟩) := by
      rw [← hlines hspelled, heq, hlines hspelled']
    exact eq_of_linesFrom_eq hspelled hspelled' hsame

namespace Sample

/-- An assignment of a text that looks like the end of a line of a listing. -/
def disguised : String := "x = \" ; 1:5\\n\""

/-- The same with a comment behind it. -/
def commented : String := disguised ++ " # x"

def disguisedCode : List Instruction :=
  [⟨.pushStr " ; 1:5\n", ⟨.text, ⟨1, 5⟩⟩⟩, ⟨.setVar "x", ⟨.assignment, ⟨1, 1⟩⟩⟩]

theorem code_disguised : Program.code disguised = .ok disguisedCode :=
  Syntax.code_of_descend (by decide +kernel)

theorem code_commented : Program.code commented = .ok disguisedCode :=
  Syntax.code_of_descend (by decide +kernel)

end Sample

/-- The text is listed on one line, before the position. -/
theorem code_of_listing_disguised :
    Program.code Sample.disguised = .ok Sample.disguisedCode ∧
      Program.code Sample.commented = .ok Sample.disguisedCode ∧
      lines (untyped Sample.disguisedCode) =
        ["   0  push_str ' ; 1:5\\n'                        ; 1:5",
          "   1  set_var x                                  ; 1:1"] ∧
      (lines (untyped Sample.disguisedCode)).length = 2 := by
  obtain ⟨⟨hlines, hlength⟩, -⟩ := code_of_listing Sample.code_disguised Sample.code_commented
  refine ⟨Sample.code_disguised, Sample.code_commented, hlines.trans ?_, hlength⟩
  decide +kernel

end Rubylet.Listing
