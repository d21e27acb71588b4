import Mathlib.Algebra.Group.Nat.Defs
import Mathlib.Data.List.Basic
import Rubylet.Text.Character
import Rubylet.Text.Lines
import Rubylet.Text.Quoted

/-!
# Quoted texts are read back

The quoted form of a text begins with the quote in use, which does not occur in it unescaped. What
stands for a character says by its first two characters how long it is, so the characters are read
back one after the other (`readChar_quoteChar`). Hence no two texts have the same quoted form
(`quote_injective`).

A quoted form stands on one line. All line breaks are unprintable, so none is shown as it is, and no
escape contains one (`not_isLineBreak_of_mem_quote`).
-/

namespace Rubylet.Text

variable {mark c d : Char} {cs ds rest : List Char} {n width : Nat}

/-- What is the same for all of some characters is checked for each of them. It is not decided for
all characters that there are. -/
theorem eq_of_all {p : Char → Bool} {b : Bool} (h : (cs.all fun c => p c == b) = true)
    (hc : c ∈ cs) : p c = b := beq_iff_eq.mp (List.all_eq_true.mp h c hc)

/-! ### Hexadecimal digits -/

/-- The value of a hexadecimal digit. -/
def digitValue (d : Char) : Nat := if d ≤ '9' then d.toNat - '0'.toNat else d.toNat - 'a'.toNat + 10

/-- The number with these hexadecimal digits. -/
def hexValue (ds : List Char) : Nat := ds.foldl (fun n d => n * 16 + digitValue d) 0

theorem digit_facts : ∀ n < 16,
    digitValue (hexDigit n) = n ∧ isLineBreak (hexDigit n) = false := by decide

theorem digitValue_hexDigit (n : Nat) : digitValue (hexDigit n) = n % 16 := by
  have h := (digit_facts (n % 16) (Nat.mod_lt n (by decide))).1
  rwa [hexDigit, Nat.mod_mod] at h

theorem length_hexDigits (width n : Nat) : (hexDigits width n).length = width := by
  induction width generalizing n with
  | zero => rfl
  | succ width ih => rw [hexDigits, List.length_append, ih, List.length_singleton]

/-- The digits are those of the remainder that fits. -/
theorem hexValue_hexDigits (width n : Nat) : hexValue (hexDigits width n) = n % 16 ^ width := by
  induction width generalizing n with
  | zero => rw [Nat.pow_zero, Nat.mod_one]; rfl
  | succ width ih =>
    have hsnoc (ds : List Char) (d : Char) :
        hexValue (ds ++ [d]) = hexValue ds * 16 + digitValue d := List.foldl_append
    rw [hexDigits, hsnoc, ih, digitValue_hexDigit, Nat.pow_succ, Nat.mul_comm (16 ^ width) 16,
      Nat.mod_mul, Nat.mul_comm (_ % _), Nat.add_comm]

theorem not_isLineBreak_of_mem_hexDigits (h : c ∈ hexDigits width n) : isLineBreak c = false := by
  induction width generalizing n with
  | zero => cases h
  | succ width ih =>
    rcases List.mem_append.mp h with h | h
    · exact ih h
    · obtain rfl := List.mem_singleton.mp h
      have hbreak := (digit_facts (n % 16) (Nat.mod_lt n (by decide))).2
      rwa [hexDigit, Nat.mod_mod] at hbreak

/-! ### Reading back -/

/-- A character by its code point in so many hexadecimal digits. -/
def readCodePoint (width : Nat) (cs : List Char) : Char × List Char :=
  (Char.ofNat (hexValue (cs.take width)), cs.drop width)

/-- Reads a character that stands behind a backslash. -/
def readEscape (letter : Char) (rest : List Char) : Char × List Char :=
  match letter with
  | 'n' => ('\n', rest)
  | 'r' => ('\r', rest)
  | 't' => ('\t', rest)
  | 'x' => readCodePoint 2 rest
  | 'u' => readCodePoint 4 rest
  | 'U' => readCodePoint 8 rest
  | c => (c, rest)

/-- Reads the first character of the inside of a quoted form. -/
def readChar : List Char → Char × List Char
  | '\\' :: letter :: rest => readEscape letter rest
  | c :: rest => (c, rest)
  | [] => ('\\', [])

/-- A code point is read back from its digits. -/
theorem readCodePoint_hexDigits (h : c.toNat < 16 ^ width) (rest : List Char) :
    readCodePoint width (hexDigits width c.toNat ++ rest) = (c, rest) := by
  have hlength := length_hexDigits width c.toNat
  rw [readCodePoint, List.take_left' hlength, List.drop_left' hlength, hexValue_hexDigits,
    Nat.mod_eq_of_lt h, Char.ofNat_toNat]

/-- An escape by a code point says how many digits it has. -/
theorem codePointEscape_cases (c : Char) : ∃ letter width,
    (letter = 'x' ∧ width = 2 ∨ letter = 'u' ∧ width = 4 ∨ letter = 'U' ∧ width = 8) ∧
      c.toNat < 16 ^ width ∧ codePointEscape c = '\\' :: letter :: hexDigits width c.toNat := by
  by_cases hshort : c.toNat < 0x100
  · exact ⟨'x', 2, .inl ⟨rfl, rfl⟩, hshort, if_pos hshort⟩
  by_cases hmiddle : c.toNat < 0x10000
  · exact ⟨'u', 4, .inr (.inl ⟨rfl, rfl⟩), hmiddle, (if_neg hshort).trans (if_pos hmiddle)⟩
  · have hlong : c.toNat < 16 ^ 8 := c.val.toNat_lt
    exact ⟨'U', 8, .inr (.inr ⟨rfl, rfl⟩), hlong, (if_neg hshort).trans (if_neg hmiddle)⟩

theorem readChar_codePointEscape (c : Char) (rest : List Char) :
    readChar (codePointEscape c ++ rest) = (c, rest) := by
  obtain ⟨letter, width, hwidth, hlt, heq⟩ := codePointEscape_cases c
  rw [heq]
  rcases hwidth with ⟨rfl, rfl⟩ | ⟨rfl, rfl⟩ | ⟨rfl, rfl⟩ <;> exact readCodePoint_hexDigits hlt rest

/-- A character that is not a backslash stands for itself. -/
theorem readChar_plain (h : c ≠ '\\') (rest : List Char) : readChar (c :: rest) = (c, rest) := by
  rw [readChar]
  rintro letter rest' rfl
  exact absurd rfl h

/-- The quotes that are in use. -/
def IsMark (mark : Char) : Prop := mark = '\x27' ∨ mark = '\x22'

theorem isMark_quoteMark (cs : List Char) : IsMark (quoteMark cs) := by
  unfold quoteMark
  split
  · exact .inr rfl
  · exact .inl rfl

/-- **What stands for a character is read as that character.** -/
theorem readChar_quoteChar (hmark : IsMark mark) (c : Char) (rest : List Char) :
    readChar (quoteChar mark c ++ rest) = (c, rest) := by
  unfold quoteChar
  split
  · next h =>
    simp only [Bool.or_eq_true, decide_eq_true_eq] at h
    -- The mark and the backslash are escaped, whichever mark it is.
    rcases h with rfl | rfl
    · rcases hmark with rfl | rfl <;> rfl
    · rfl
  · next h =>
    simp only [Bool.or_eq_true, decide_eq_true_eq, not_or] at h
    split
    · next h => rw [h]; rfl
    split
    · next h => rw [h]; rfl
    split
    · next h => rw [h]; rfl
    split
    · exact readChar_codePointEscape c rest
    · exact readChar_plain h.2 rest

theorem quoteChar_ne_nil (mark c : Char) : quoteChar mark c ≠ [] := by
  obtain ⟨letter, width, -, -, heq⟩ := codePointEscape_cases c
  rw [quoteChar, heq]
  split_ifs <;> exact List.cons_ne_nil _ _

/-- So the inside of a quoted form stands for one text only. -/
theorem eq_of_flatMap_quoteChar (hmark : IsMark mark)
    (h : cs.flatMap (quoteChar mark) = ds.flatMap (quoteChar mark)) : cs = ds := by
  induction cs generalizing ds with
  | nil =>
    cases ds with
    | nil => rfl
    | cons d ds =>
      rw [List.flatMap_nil, List.flatMap_cons] at h
      exact absurd (List.append_eq_nil_iff.mp h.symm).1 (quoteChar_ne_nil mark d)
  | cons c cs ih =>
    cases ds with
    | nil =>
      rw [List.flatMap_nil, List.flatMap_cons] at h
      exact absurd (List.append_eq_nil_iff.mp h).1 (quoteChar_ne_nil mark c)
    | cons d ds =>
      -- What is read first, and what is left, is the same on both sides.
      have hread := congrArg readChar h
      rw [List.flatMap_cons, List.flatMap_cons, readChar_quoteChar hmark,
        readChar_quoteChar hmark] at hread
      obtain ⟨rfl, hrest⟩ := Prod.mk.inj hread
      rw [ih hrest]

/-- **No two texts have the same quoted form.** -/
theorem quote_injective {s t : String} (h : quote s = quote t) : s = t := by
  have hchars := String.ofList_injective h
  obtain ⟨hmark, hinside⟩ := List.cons.inj hchars
  -- Both forms begin with the quote in use, so it is the same one.
  rw [← hmark] at hinside
  exact String.toList_injective
    (eq_of_flatMap_quoteChar (isMark_quoteMark _) (List.append_cancel_right hinside))

/-! ### On one line -/

/-- **A line break is not printed.** -/
theorem isUnprintable_of_isLineBreak (h : isLineBreak c) : isUnprintable c := by
  simp only [isLineBreak, Bool.or_eq_true, decide_eq_true_eq] at h
  rcases h with ((((((((rfl | rfl) | rfl) | rfl) | rfl) | rfl) | rfl) | rfl) | rfl) | rfl <;>
    decide +kernel

/-- Every line break is blank. -/
theorem isBlank_of_isLineBreak (h : isLineBreak c) : isBlank c := by
  simp only [isLineBreak, Bool.or_eq_true, decide_eq_true_eq] at h
  rcases h with ((((((((rfl | rfl) | rfl) | rfl) | rfl) | rfl) | rfl) | rfl) | rfl) | rfl <;>
    decide

theorem IsMark.not_isLineBreak (h : IsMark mark) : isLineBreak mark = false := by
  rcases h with rfl | rfl <;> rfl

/-- No character is quoted with a line break. -/
theorem not_isLineBreak_of_mem_quoteChar (hmark : IsMark mark) (h : d ∈ quoteChar mark c) :
    isLineBreak d = false := by
  have hescape : isLineBreak '\\' = false := rfl
  unfold quoteChar at h
  split at h
  · next hc =>
    simp only [Bool.or_eq_true, decide_eq_true_eq] at hc
    simp only [List.mem_cons, List.not_mem_nil, or_false] at h
    rcases h with rfl | rfl
    · exact hescape
    · rcases hc with rfl | rfl
      · exact hmark.not_isLineBreak
      · exact hescape
  split at h
  · exact eq_of_all (by decide) h
  split at h
  · exact eq_of_all (by decide) h
  split at h
  · exact eq_of_all (by decide) h
  split at h
  -- An escaped code point is a backslash, a letter and hexadecimal digits.
  · obtain ⟨letter, width, hwidth, -, heq⟩ := codePointEscape_cases c
    rw [heq, List.mem_cons, List.mem_cons] at h
    rcases h with rfl | rfl | h
    · exact hescape
    · rcases hwidth with ⟨rfl, -⟩ | ⟨rfl, -⟩ | ⟨rfl, -⟩ <;> rfl
    · exact not_isLineBreak_of_mem_hexDigits h
  · next hprinted =>
    obtain rfl := List.mem_singleton.mp h
    exact Bool.eq_false_iff.mpr fun hbreak => hprinted (isUnprintable_of_isLineBreak hbreak)

/-- **A quoted form has no line break.** -/
theorem not_isLineBreak_of_mem_quote {s : String} (h : c ∈ (quote s).toList) :
    isLineBreak c = false := by
  have hmark := isMark_quoteMark s.toList
  rw [quote, String.toList_ofList, quoteChars, List.mem_cons, List.mem_append,
    List.mem_singleton] at h
  rcases h with rfl | h | rfl
  · exact hmark.not_isLineBreak
  · obtain ⟨d, -, h⟩ := List.mem_flatMap.mp h
    exact not_isLineBreak_of_mem_quoteChar hmark h
  · exact hmark.not_isLineBreak

end Rubylet.Text
