import Rubylet.Proofs.Code.Layout
import Rubylet.Proofs.Grammar.Productions
import Rubylet.Proofs.Syntax.Grouping
import Rubylet.Proofs.Syntax.Shown

/-!
# What is accepted

* `accepted_iff_derived`: tokens are parsed just in case the productions derive them, in one way only.
  A program text without a lexical error is read as its derivation prescribes, unless a parameter is
  repeated, a string literal between double quotes has an escape that is not supported, or an integer
  has too many digits.
* `tooManyDigits_is_derived`: the last exception cannot be left out.
-/

namespace Rubylet

/-! ### String literals of a text -/

/-- Does a string literal begin with a quote? Of other tokens nothing is asked. -/
def Token.Quoted (t : Token) : Prop :=
  t.kind = .string → t.text.toList.head? = some '\x22' ∨ t.text.toList.head? = some '\x27'

namespace Lexer

theorem wordKind_ne_string (word : List Char) : wordKind word ≠ .string := by
  unfold wordKind
  split <;> exact nofun

theorem punctuation_ne_string (c : Char) : punctuation? c ≠ some .string := by
  unfold punctuation?
  split <;> exact nofun

/-- A string literal begins with one of its two marks. -/
theorem head_of_lexeme {c : Char} {rest chars : List Char}
    (h : lexeme? c rest = some ⟨some .string, chars⟩) :
    chars.head? = some '\x22' ∨ chars.head? = some '\x27' := by
  -- One case for each kind of lexeme; all but the quoted ones are of another kind.
  unfold lexeme? at h
  split at h
  · exact absurd (Option.some.inj (Lexeme.mk.inj (Option.some.inj h)).1) (wordKind_ne_string _)
  split at h
  · cases h
  split at h
  · cases h
  split at h
  · next hquote =>
    obtain ⟨s, -, heq⟩ := Option.map_eq_some_iff.mp h
    obtain ⟨-, rfl⟩ := Lexeme.mk.inj heq
    simpa using hquote
  split at h
  · cases h
  split at h
  · cases h
  split at h
  · obtain ⟨s, -, heq⟩ := Option.map_eq_some_iff.mp h
    cases heq
  split at h
  · obtain ⟨s, -, heq⟩ := Option.map_eq_some_iff.mp h
    cases heq
  · obtain ⟨kind, hkind, heq⟩ := Option.map_eq_some_iff.mp h
    cases heq
    exact absurd hkind (punctuation_ne_string c)

/-- Every token is a lexeme of its kind. -/
theorem exists_lexeme_of_mem_scan {t : Token} : ∀ (steps : Nat) {pos : Pos} {cs : List Char},
    t ∈ (scan steps pos cs).tokens → ∃ c rest chars,
      lexeme? c rest = some ⟨some t.kind, chars⟩ ∧ t.text = String.ofList chars := by
  intro steps
  induction steps with
  | zero =>
    intro pos cs h
    cases cs <;> cases h
  | succ steps ih =>
    intro pos cs h
    cases cs with
    | nil => cases h
    | cons c rest =>
      rw [scan] at h
      cases hlexeme : lexeme? c rest with
      | none => rw [hlexeme] at h; cases h
      | some lexeme =>
        obtain ⟨kind?, chars⟩ := lexeme
        rw [hlexeme] at h
        cases kind? with
        -- Blanks and comments are lexemes without a token.
        | none => exact ih h
        | some kind =>
          rcases List.mem_cons.mp h with rfl | h
          · exact ⟨c, rest, chars, hlexeme, rfl⟩
          · exact ih h

/-- The scanner makes no string without its marks. -/
theorem quoted_of_mem_scan {t : Token} {steps : Nat} {pos : Pos} {cs : List Char}
    (h : t ∈ (scan steps pos cs).tokens) : t.Quoted := by
  obtain ⟨c, rest, chars, hlexeme, htext⟩ := exists_lexeme_of_mem_scan steps h
  intro hkind
  rw [htext, String.toList_ofList]
  exact head_of_lexeme (hkind ▸ hlexeme)

end Lexer

namespace Terminator

theorem quoted_of_mem_insertFrom {t : Token} {ts : List Token} (h : ∀ u ∈ ts, u.Quoted) :
    ∀ s, t ∈ insertFrom s ts → t.Quoted := by
  induction ts with
  | nil => exact fun s ht => nomatch ht
  | cons u ts ih =>
    intro s ht
    have hrest := ih fun v hv => h v (.tail _ hv)
    unfold insertFrom at ht
    split at ht
    · split at ht
      -- A terminator is no string, so there is nothing to show of it.
      · rcases List.mem_cons.mp ht with rfl | ht
        · exact nofun
        · exact hrest _ ht
      · exact hrest _ ht
    · rcases List.mem_cons.mp ht with rfl | ht
      · exact nofun
      · exact hrest _ ht
    · rcases List.mem_cons.mp ht with rfl | ht
      · exact h t (.head _)
      · exact hrest _ ht

/-- The string literals of a program text begin with a quote. -/
theorem quoted_of_mem_read {source : String} {t : Token} (h : t ∈ (read source).tokens) : t.Quoted :=
  quoted_of_mem_insertFrom (fun _ hu => Lexer.quoted_of_mem_scan hu) _ h

end Terminator

namespace Syntax

open Rubylet.Tree

/-- The error is that a string literal between double quotes has an escape that is not supported. -/
def MisEscapes (t : Tree) (e : StageError) : Prop :=
  ∃ s ∈ t.tokens, s.kind = .string ∧ s.text.toList.head? = some '\x22' ∧ ∃ before c after,
    s.text.toList.tail.dropLast = before ++ '\\' :: c :: after ∧ isUnsupportedEscape c ∧
      e = .compile (.atPos s.pos (.invalidEscape c))

/-- The error is that an integer has too many digits. -/
def ExceedsDigits (t : Tree) (e : StageError) : Prop :=
  ∃ s ∈ t.tokens, s.kind = .int ∧ maxDigits < digitCount s.text.toList ∧ e = .fault .tooManyDigits

/-- A literal is wrong for its escapes or for its digits. -/
theorem misEscapes_or_exceedsDigits {s : Token} {t : Tree} {e : StageError} (hs : s ∈ t.tokens)
    (hquoted : s.Quoted) (h : e ∈ literalFaults s) : MisEscapes t e ∨ ExceedsDigits t e := by
  unfold literalFaults at h
  split at h
  · next hkind =>
    split at h
    · next hcount => exact .inr ⟨s, hs, hkind, hcount, List.mem_singleton.mp h⟩
    · cases h
  · next hkind =>
    split at h
    · cases h
    · next c hc =>
      obtain rfl := List.mem_singleton.mp h
      obtain ⟨hhead, before, after, heq, hescape⟩ := exists_of_decodeLiteral hc
      -- Between single quotes no escape is refused, so the literal begins with a double quote.
      exact .inl
        ⟨s, hs, hkind, (hquoted hkind).resolve_right hhead, before, c, after, heq, hescape, rfl⟩
  · cases h

/-- A derivation is read as what it prescribes, or something is wrong with it. -/
theorem prescribes_or_faulty {t : Tree} (h : Derives (.phrase .program) t)
    (hquoted : ∀ s ∈ t.tokens, s.Quoted) :
    (∃ root, ofTree t = .ok root ∧ Prescribes t root) ∨
      ∃ e, ofTree t = .error e ∧ (RepeatsParameter t e ∨ MisEscapes t e ∨ ExceedsDigits t e) := by
  have hread := ofTree_of_derives h
  -- Reading stops at the first fault; a tree without one has its reading.
  cases hfaults : faults t with
  | nil => rw [hfaults] at hread; exact .inl hread
  | cons e es =>
    rw [hfaults] at hread
    refine .inr ⟨e, hread, ?_⟩
    have hmem : e ∈ faults t := hfaults ▸ .head _
    exact (of_mem_faults t hmem).imp_right fun ⟨s, hs, he⟩ =>
      misEscapes_or_exceedsDigits hs (hquoted s hs) he

theorem Prescribes.unique {t : Tree} {x y : Node} (hx : Prescribes t x) (hy : Prescribes t y) :
    x = y := by
  obtain ⟨xs, _, hxs, rfl⟩ := hx
  obtain ⟨ys, _, hys, rfl⟩ := hy
  rw [(hxs.unique hys).1]

/-- **The parser accepts exactly the grammar.** Tokens are parsed to a tree just in case the tree is
derived and spans them; the productions say which tokens that are, and no tokens have two trees. A
program text without a lexical error is read as its derivation prescribes, which is one thing only,
unless a parameter is repeated, a string literal between double quotes has an escape that is not
supported, or an integer has too many digits. Of an expression, whatever is prescribed groups
messages tighter than products, products tighter than sums, and both to the left. -/
theorem accepted_iff_derived :
    (∀ tokens t, treeOf ⟨tokens, none⟩ = .ok t ↔
      Derives (.phrase .program) t ∧ t.tokens = tokens) ∧
    (∀ tokens, (∃ t, treeOf ⟨tokens, none⟩ = .ok t) ↔
      tokens.map Token.kind ∈ Phrase.program.language) ∧
    (∀ t u, Derives (.phrase .program) t → Derives (.phrase .program) u → t.tokens = u.tokens →
      t = u) ∧
    (∀ source t, (Terminator.read source).error? = none → Derives (.phrase .program) t →
      t.tokens = (Terminator.read source).tokens →
        (∃ root, read source = .ok root ∧ ∀ x, Prescribes t x ↔ x = root) ∨
        ∃ e, read source = .error e ∧
          (RepeatsParameter t e ∨ MisEscapes t e ∨ ExceedsDigits t e)) ∧
    ∀ t scope x scope', Derives (.phrase .expr) t → Reads scope t [x] scope' →
      IsSum ⟨t.tokens, x⟩ := by
  -- The five clauses are the lemmas above, put together.
  refine ⟨fun _ _ => treeOf_eq_ok_iff, fun tokens => ?_, fun _ _ => Parse.eq_of_derives, ?_,
    fun _ _ _ _ h hx => grouped_of_reads h hx⟩
  · rw [← derives_iff_mem_language]
    exact exists_congr fun _ => treeOf_eq_ok_iff
  · intro source t hlex ht htokens
    rw [read_of_derives hlex ht htokens]
    -- The tokens come from the scanner, so the literals among them have their marks.
    have hquoted : ∀ s ∈ t.tokens, s.Quoted := fun s hs =>
      Terminator.quoted_of_mem_read (htokens ▸ hs)
    rcases prescribes_or_faulty ht hquoted with ⟨root, hroot, hprescribes⟩ | herror
    · exact .inl ⟨root, hroot, fun x => ⟨fun hx => hx.unique hprescribes, fun hx => hx ▸ hprescribes⟩⟩
    · exact .inr herror

/-- **Too many digits are derived, but not read**, although no parameter is repeated and no escape
stands in the text: one is the first digit, and zeros are the others. -/
theorem tooManyDigits_is_derived :
    ∃ t, (Terminator.read (String.ofList ('1' :: List.replicate maxDigits '0'))).error? = none ∧
      Derives (.phrase .program) t ∧
      t.tokens = (Terminator.read (String.ofList ('1' :: List.replicate maxDigits '0'))).tokens ∧
      read (String.ofList ('1' :: List.replicate maxDigits '0')) = .error (.fault .tooManyDigits) ∧
      ∀ e, ¬ RepeatsParameter t e ∧ ¬ MisEscapes t e := by
  have hdigits : ∀ d ∈ '1' :: List.replicate maxDigits '0', Lexer.isDigit d := by
    rintro d (_ | ⟨_, hd⟩)
    · rfl
    · obtain rfl := List.eq_of_mem_replicate hd
      rfl
  have hlexeme := lexeme_of_digits hdigits
  have hstream := Terminator.read_of_lexeme hlexeme nofun nofun
  refine ⟨literalTree .integer _, by rw [hstream], derives_literalTree rfl, by rw [hstream]; rfl, ?_,
    fun e => ⟨?_, ?_⟩⟩
  · rw [read_digits hdigits, if_pos (by simp)]
  · rintro ⟨start, name, list, rest, before, p, after, hpart, hnames, -⟩
    -- The name of a parameter would be a token of the text, and the only one is an integer.
    obtain ⟨hmem, hkind⟩ := List.mem_filter.mp (hnames ▸ List.mem_append_right _ (.head _))
    have htokens := hpart.mem_tokens (u := .node (.methodDef true) (start :: name :: list :: rest))
      (mem_allTokens (.tail _ (.tail _ (.head _))) (by simpa [allTokens] using hmem))
    obtain rfl := List.mem_singleton.mp htokens
    cases hkind
  · rintro ⟨s, hs, hkind, -⟩
    obtain rfl := List.mem_singleton.mp hs
    cases hkind

/-- The tree of an integer as an operand of a product. -/
def digit (text : String) (column : Nat) : Tree :=
  .node .singlePrimary [.node .integer [.leaf ⟨.int, text, ⟨1, column⟩⟩]]

/-- The tree of `1 + 2 * 3`. -/
def sumOfProduct : Tree :=
  .node .program [.node (.body false false false) [.node .exprStatement [.node .expr [.node .plus
    [.node .singleTerm [.node .singleChain [digit "1" 1]], .leaf ⟨.plus, "+", ⟨1, 3⟩⟩,
      .node .times [.node .singleChain [digit "2" 5], .leaf ⟨.star, "*", ⟨1, 7⟩⟩, digit "3" 9]]]]]]

/-- What `1 + 2 * 3` is read as. -/
def sumOfProductRoot : Node :=
  .block .start [.call ⟨1, 3⟩ (some (.integer ⟨1, 1⟩ 1)) "+"
    [.call ⟨1, 7⟩ (some (.integer ⟨1, 5⟩ 2)) "*" [.integer ⟨1, 9⟩ 3]]]

/-- `1 + 2 * 3` is accepted, and prescribes a sum of which the right operand is a product. -/
theorem sumOfProduct_is_accepted :
    (Terminator.read "1 + 2 * 3").error? = none ∧
      treeOf ⟨(Terminator.read "1 + 2 * 3").tokens, none⟩ = .ok sumOfProduct ∧
      read "1 + 2 * 3" = .ok sumOfProductRoot ∧ Prescribes sumOfProduct sumOfProductRoot := by
  have hlex : (Terminator.read "1 + 2 * 3").error? = none := by decide +kernel
  have htokens : sumOfProduct.tokens = (Terminator.read "1 + 2 * 3").tokens := by decide +kernel
  have ht : Derives (.phrase .program) sumOfProduct := derives_of_follows _ (by decide +kernel)
  have hroot : read "1 + 2 * 3" = .ok sumOfProductRoot := read_of_derives hlex ht htokens
  obtain ⟨haccepted, -, -, hread, -⟩ := accepted_iff_derived
  refine ⟨hlex, (haccepted _ _).mpr ⟨ht, htokens⟩, hroot, ?_⟩
  -- The reading is a root, and there is one only.
  rcases hread _ _ hlex ht htokens with ⟨root, hroot', hprescribes⟩ | ⟨e, he, -⟩
  · exact (hprescribes _).mpr (Except.ok.inj (hroot.symm.trans hroot'))
  · rw [hroot] at he
    cases he

end Syntax

end Rubylet
