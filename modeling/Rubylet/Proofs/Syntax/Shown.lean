import Rubylet.Proofs.Grammar.Productions
import Rubylet.Proofs.Syntax.Reading
import Rubylet.Value

/-!
# Shown values are literals

A value is shown by `Value.inspect`. Three kinds of values are shown as a text that the lexer takes
for one token, and the literal that is read from that token has the value again.

* A string is shown between double quotes. It is escaped three times over, which comes to the same
  as escaping each character once (`Value.inspectString_eq`), because backslashes come first. The
  lexer and the decoder go through the text in pairs of a backslash and the character after it, or
  by single characters; an escape that is shown is such a pair, so that both come back to every
  boundary between two characters of the string.
* An integer that is not negative is shown by its digits, and nil by its keyword. Digits that are
  too many are not read: the bound of `Value.inspectInt` is the one of `readInteger`.

`read_of_token` is about programs of one token that is a literal, and `read_inspectString`,
`read_repr` and `read_nil` say what the shown values are read as.
-/

namespace Rubylet

open Rubylet.Tree

/-! ### One token -/

/-- A text that is one lexeme is one token. -/
theorem Lexer.tokens_of_lexeme {c : Char} {rest : List Char} {kind : TokenKind}
    (h : lexeme? c rest = some ⟨some kind, c :: rest⟩) :
    tokens (String.ofList (c :: rest)) = ⟨[⟨kind, String.ofList (c :: rest), .start⟩], none⟩ := by
  have hscan : ∀ steps pos, scan (steps + 1) pos (c :: rest) =
      ⟨[⟨kind, String.ofList (c :: rest), pos⟩], none⟩ := by
    intro steps pos
    have hend : scan steps (advanceAll pos (c :: rest)) [] = ⟨[], none⟩ := by cases steps <;> rfl
    simp only [scan, h, List.drop_length, hend, Stream.cons]
  rw [tokens, String.toList_ofList]
  exact hscan rest.length .start

theorem Terminator.read_of_lexeme {c : Char} {rest : List Char} {kind : TokenKind}
    (h : Lexer.lexeme? c rest = some ⟨some kind, c :: rest⟩) (hnewline : kind ≠ .newline)
    (hsemi : kind ≠ .semi) :
    read (String.ofList (c :: rest)) =
      ⟨[⟨kind, String.ofList (c :: rest), .start⟩], none⟩ := by
  -- Terminators are made of newlines and semicolons only.
  have hinsert : ∀ t : Token, t.kind = kind → insert [t] = [t] := by
    rintro t rfl
    unfold insert insertFrom
    split
    · exact absurd ‹_› hnewline
    · exact absurd ‹_› hsemi
    · rfl
  simp only [read, Lexer.tokens_of_lexeme h, hinsert ⟨kind, _, _⟩ rfl]

/-- What begins with a digit is an integer. -/
theorem Lexer.lexeme_of_digit {d : Char} {rest : List Char} (h : isDigit d) :
    lexeme? d rest = some ⟨some .int, d :: digitGroups rest⟩ := by
  have hrange : 48 ≤ d.toNat ∧ d.toNat ≤ 57 := by
    simpa [isDigit, Char.le_def, UInt32.le_iff_toNat_le] using h
  -- The lexer tries names and constants first, and none of them begins with a digit.
  have hname : isNameStart d = false := by
    have hunderscore : d ≠ '_' := by
      rintro rfl
      exact absurd hrange.2 (by decide)
    have hlower : ¬ 'a' ≤ d := by
      rw [Char.le_def, UInt32.le_iff_toNat_le]
      exact Nat.not_le_of_lt (Nat.lt_of_le_of_lt hrange.2 (by decide))
    simp [isNameStart, hunderscore, hlower]
  have hconst : isConstStart d = false := by
    have hupper : ¬ 'A' ≤ d := by
      rw [Char.le_def, UInt32.le_iff_toNat_le]
      exact Nat.not_le_of_lt (Nat.lt_of_le_of_lt hrange.2 (by decide))
    simp [isConstStart, hupper]
  simp only [lexeme?, hname, hconst, h, Bool.false_eq_true, if_false, if_true]

namespace Syntax

/-- The rule of a literal, by the kind of its token. -/
def literalRule? : TokenKind → Option Rule
  | .int => some .integer
  | .string => some .text
  | .kwNil => some .nil
  | _ => none

/-- The tree of a program that is one literal. -/
def literalTree (rule : Rule) (t : Token) : Tree :=
  .node .program [.node (.body false false false) [.node .exprStatement [.node .expr
    [.node .singleTerm [.node .singleChain [.node .singlePrimary [.node rule [.leaf t]]]]]]]]

theorem derives_literalTree {rule : Rule} {t : Token} (h : literalRule? t.kind = some rule) :
    Derives (.phrase .program) (literalTree rule t) := by
  obtain ⟨kind, text, pos⟩ := t
  cases kind <;> cases h <;> exact derives_of_follows _ rfl

/-- **A program of one literal is read from its token.** -/
theorem read_of_token {c : Char} {rest : List Char} {kind : TokenKind} {rule : Rule}
    (h : Lexer.lexeme? c rest = some ⟨some kind, c :: rest⟩)
    (hrule : literalRule? kind = some rule) :
    read (String.ofList (c :: rest)) =
      ofTree (literalTree rule ⟨kind, String.ofList (c :: rest), .start⟩) := by
  have hstream := Terminator.read_of_lexeme h (by rintro rfl; cases hrule)
    (by rintro rfl; cases hrule)
  exact read_of_derives (by rw [hstream]) (derives_literalTree hrule) (by rw [hstream]; rfl)

/-! ### Strings -/

end Syntax

namespace Value

/-- A character of a shown string. -/
def inspectChar (c : Char) : List Char :=
  if c = '\\' then ['\\', '\\']
  else if c = '\x22' then ['\\', '\x22']
  else if c = '\n' then ['\\', 'n']
  else [c]

/-- **The three replacements come to one.** A backslash that stands for itself is doubled before the
others are there, and what a later replacement looks for is in no escape of an earlier one. -/
theorem inspectString_eq (s : String) :
    inspectString s = String.ofList ('\x22' :: (s.toList.flatMap inspectChar ++ ['\x22'])) := by
  have hescaped : Text.replaceEach '\n' ['\\', 'n'] (Text.replaceEach '\x22' ['\\', '\x22']
      (Text.replaceEach '\\' ['\\', '\\'] s.toList)) = s.toList.flatMap inspectChar := by
    unfold Text.replaceEach
    rw [List.flatMap_assoc, List.flatMap_assoc]
    -- The replacements act on each character by itself, so their composite is a map of characters.
    refine congrArg (List.flatMap · s.toList) (funext fun c => ?_)
    unfold inspectChar
    split_ifs with hbackslash hquote hline
    -- The backslash goes first, and is not one of those the later two look for.
    · decide
    · subst hquote; decide
    · subst hline; decide
    · simp [hquote, hline]
  rw [inspectString, hescaped]

end Value

namespace Syntax

/-- **A shown character** is an escape that stands for the character, or the character itself. -/
theorem inspectChar_cases (c : Char) :
    (∃ e, Value.inspectChar c = ['\\', e] ∧ e ≠ '\n' ∧ isUnsupportedEscape e = false ∧
      unescape e = c) ∨
    (Value.inspectChar c = [c] ∧ c ≠ '\\' ∧ c ≠ '\x22' ∧ c ≠ '\n') := by
  unfold Value.inspectChar
  split_ifs with hbackslash hquote hline
  · exact .inl ⟨'\\', rfl, by decide, rfl, hbackslash.symm⟩
  · exact .inl ⟨'\x22', rfl, by decide, rfl, hquote.symm⟩
  · exact .inl ⟨'n', rfl, by decide, rfl, hline.symm⟩
  · exact .inr ⟨rfl, hbackslash, hquote, hline⟩

/-- The characters of a shown string, up to and with the closing quote, are the rest of a string. -/
theorem stringRest_inspect (cs : List Char) :
    Lexer.stringRest '\x22' (cs.flatMap Value.inspectChar ++ ['\x22']) =
      some (cs.flatMap Value.inspectChar ++ ['\x22']) := by
  induction cs with
  | nil => rfl
  | cons c cs ih =>
    -- An escape is skipped as a whole, and so a quote in it does not close the string.
    rw [List.flatMap_cons, List.append_assoc]
    rcases inspectChar_cases c with ⟨e, heq, hline, -, -⟩ | ⟨heq, hbackslash, hquote, hline⟩
    · rw [heq, List.cons_append, List.singleton_append, Lexer.stringRest, if_neg hline, ih,
        Option.map_some]
    · rw [heq, List.singleton_append, Lexer.stringRest, ih]
      · simp [hbackslash, hquote, hline]
      · exact fun _ _ h _ => hbackslash h

/-- The inside of a shown string is decoded to the string. -/
theorem decodeDouble_inspect (cs : List Char) :
    decodeDouble (cs.flatMap Value.inspectChar) = .ok cs := by
  induction cs with
  | nil => rfl
  | cons c cs ih =>
    rw [List.flatMap_cons]
    -- The character is escaped, and the escape is read back, or stands for itself.
    rcases inspectChar_cases c with ⟨e, heq, -, hsupported, rfl⟩ | ⟨heq, hbackslash, -, -⟩
    · rw [heq, List.cons_append, List.singleton_append, decodeDouble, hsupported, ih]
      rfl
    · rw [heq, List.singleton_append, decodeDouble, ih]
      · rfl
      · exact fun _ _ h _ => hbackslash h

/-- **A shown string is read as the string.** -/
theorem read_inspectString (s : String) :
    read (Value.inspectString s) = .ok (.block .start [.text .start s]) := by
  -- The quote that ends the literal is the only one that is not escaped.
  have hlexeme : Lexer.lexeme? '\x22' (s.toList.flatMap Value.inspectChar ++ ['\x22']) =
      some ⟨some .string, '\x22' :: (s.toList.flatMap Value.inspectChar ++ ['\x22'])⟩ := by
    change (Lexer.stringRest '\x22' _).map _ = _
    rw [stringRest_inspect, Option.map_some]
  have hdecode : decodeLiteral ('\x22' :: (s.toList.flatMap Value.inspectChar ++ ['\x22'])) =
      .ok s.toList := by
    rw [decodeLiteral, List.tail_cons, List.dropLast_concat]
    exact decodeDouble_inspect s.toList
  rw [Value.inspectString_eq, read_of_token hlexeme rfl]
  simp only [ofTree, literalTree, readBody, readStatement, readExpr, readString,
    String.toList_ofList, hdecode, String.ofList_toList]
  rfl

/-! ### Integers -/

/-- Digits are one group. -/
theorem digitGroups_of_digits {ds : List Char} (h : ∀ d ∈ ds, Lexer.isDigit d) :
    Lexer.digitGroups ds = ds := by
  induction ds with
  | nil => rfl
  | cons d ds ih =>
    have hd := h d (.head _)
    have hrest := ih fun e he => h e (.tail _ he)
    rw [Lexer.digitGroups, if_pos hd, hrest]
    rintro e es rfl
    exact absurd hd (by decide)

theorem lexeme_of_digits {d : Char} {ds : List Char} (h : ∀ e ∈ d :: ds, Lexer.isDigit e) :
    Lexer.lexeme? d ds = some ⟨some .int, d :: ds⟩ := by
  rw [Lexer.lexeme_of_digit (h d (.head _)), digitGroups_of_digits fun e he => h e (.tail _ he)]

/-- Digits have the value of the number that they spell. -/
theorem integerValue_of_digits {ds : List Char} (h : ∀ d ∈ ds, Lexer.isDigit d) :
    integerValue ds = Nat.ofDigitChars 10 ds 0 := by
  rw [integerValue, Nat.ofDigitChars_eq_foldl]
  refine List.foldl_ext _ _ _ fun n d hd => ?_
  have hunderscore : d ≠ '_' := by
    rintro rfl
    exact absurd (h _ hd) (by decide)
  rw [if_neg hunderscore, Nat.mul_comm]

/-- Among digits there is no underscore. -/
theorem digitCount_of_digits {ds : List Char} (h : ∀ d ∈ ds, Lexer.isDigit d) :
    digitCount ds = ds.length := by
  rw [digitCount, List.countP_eq_length]
  intro d hd
  have hunderscore : d ≠ '_' := by
    rintro rfl
    exact absurd (h _ hd) (by decide)
  simpa using hunderscore

/-- A program of digits is an integer, unless they are too many. -/
theorem read_digits {d : Char} {ds : List Char} (h : ∀ e ∈ d :: ds, Lexer.isDigit e) :
    read (String.ofList (d :: ds)) =
      if maxDigits < (d :: ds).length then .error (.fault .tooManyDigits)
      else .ok (.block .start [.integer .start (integerValue (d :: ds))]) := by
  rw [read_of_token (lexeme_of_digits h) rfl]
  simp only [ofTree, literalTree, readBody, readStatement, readExpr, readInteger,
    String.toList_ofList, digitCount_of_digits h]
  split <;> rfl

/-- **The digits of a number are read as the number**, unless they are too many. -/
theorem read_repr (n : Nat) :
    read n.repr = if Nat.pow 10 maxDigits ≤ n then .error (.fault .tooManyDigits)
      else .ok (.block .start [.integer .start n]) := by
  have hdigits : ∀ d ∈ Nat.toDigits 10 n, Lexer.isDigit d := fun d hd =>
    Nat.isDigit_of_mem_toDigits (by decide) (by decide) hd
  -- The number of digits and the size of the number are two sides of one bound.
  have hcount : (Nat.toDigits 10 n).length ≤ maxDigits ↔ n < 10 ^ maxDigits :=
    Nat.length_toDigits_le_iff (by decide) (by decide)
  have hvalue : integerValue (Nat.toDigits 10 n) = n := by
    rw [integerValue_of_digits hdigits]
    exact Nat.ofDigitChars_toDigits (by decide) (by decide)
  obtain ⟨d, ds, hds⟩ := List.exists_cons_of_ne_nil (Nat.toDigits_ne_nil (n := n) (b := 10))
  rw [hds] at hdigits hcount hvalue
  rw [Nat.repr_eq_ofList_toDigits, hds, read_digits hdigits, hvalue, Nat.pow_eq]
  exact if_congr (not_iff_not.mp (by rw [Nat.not_lt, hcount, Nat.not_le])) rfl rfl

/-! ### Nil -/

theorem read_nil : read "nil" = .ok (.block .start [.nil .start]) := by
  have hlexeme : Lexer.lexeme? 'n' ['i', 'l'] = some ⟨some .kwNil, ['n', 'i', 'l']⟩ := by decide
  exact read_of_token hlexeme rfl

end Syntax

end Rubylet
