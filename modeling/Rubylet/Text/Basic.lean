import Rubylet.Text.Character

/-!
# Operations on texts

* `Text.occursIn` asks whether a text occurs in another one.
* `Text.trimRight` drops the blanks at the end of a text.
* `Text.padRight` and `Text.padLeft` fill a text up to the width of a column. Widths are counted in
  code points, and a text that is wider than its column is kept whole.
* `Text.replaceEach` puts some characters for every occurrence of one.
* `Text.repeated` is a text some times over. It is put together from two halves of the same length,
  so that a long one takes few steps; `Text.toList_repeated` says what it reads.
-/

namespace Rubylet.Text

/-! ### Searching -/

/-- Does `pattern` occur as a run of neighbouring characters? -/
def isInfix (pattern : List Char) : List Char → Bool
  | [] => pattern.isEmpty
  | c :: cs => pattern.isPrefixOf (c :: cs) || isInfix pattern cs

/-- Does `pattern` occur in `s`? -/
def occursIn (pattern s : String) : Bool := isInfix pattern.toList s.toList

/-! ### Trimming -/

/-- Drops the longest suffix whose characters all satisfy `p`. -/
def dropRight (p : Char → Bool) (s : String) : String :=
  String.ofList (s.toList.reverse.dropWhile p).reverse

/-- Drops the blanks at the end. -/
def trimRight (s : String) : String := dropRight isBlank s

/-! ### Columns of fixed width -/

/-- A run of `n` blanks. -/
def blanks (n : Nat) : String := String.ofList (List.replicate n ' ')

/-- Fills up with blanks on the right to at least `width` characters. -/
def padRight (width : Nat) (s : String) : String := s ++ blanks (width - s.length)

/-- Fills up with blanks on the left to at least `width` characters. -/
def padLeft (width : Nat) (s : String) : String := blanks (width - s.length) ++ s

@[simp] theorem length_blanks (n : Nat) : (blanks n).length = n := by
  simp [blanks]

@[simp] theorem length_padRight (width : Nat) (s : String) :
    (padRight width s).length = max width s.length := by
  simp [padRight]; omega

@[simp] theorem length_padLeft (width : Nat) (s : String) :
    (padLeft width s).length = max width s.length := by
  simp [padLeft]; omega

/-! ### Replacing -/

/-- Puts `new` for every occurrence of `old`. -/
def replaceEach (old : Char) (new cs : List Char) : List Char :=
  cs.flatMap fun c => if c = old then new else [c]

/-! ### Repeating -/

/-- A text `n` times over, put together in at most `fuel` steps. -/
def doubled (s : String) : (fuel n : Nat) → String
  | 0, _ => ""
  | fuel + 1, n =>
    if n = 0 then ""
    else
      let half := doubled s fuel (n / 2)
      if n % 2 = 0 then half ++ half else half ++ half ++ s

/-- A text `n` times over. -/
def repeated (n : Nat) (s : String) : String := doubled s n n

theorem toList_doubled (s : String) {fuel n : Nat} (h : n ≤ fuel) :
    (doubled s fuel n).toList = (List.replicate n s.toList).flatten := by
  induction fuel generalizing n with
  | zero => simp [doubled, Nat.le_zero.1 h]
  | succ fuel ih =>
    by_cases hn : n = 0
    · simp [doubled, hn]
    · have hhalf := ih (n := n / 2) (by omega)
      have hsum : List.replicate n s.toList = List.replicate (n / 2) s.toList ++
          (List.replicate (n / 2) s.toList ++ List.replicate (n % 2) s.toList) := by
        rw [List.replicate_append_replicate, List.replicate_append_replicate]
        congr 1
        omega
      rcases Nat.mod_two_eq_zero_or_one n with hr | hr <;>
        simp [doubled, hn, hr, hhalf, hsum, -List.replicate_append_replicate]

/-- A repeated text is the text again and again. -/
@[simp] theorem toList_repeated (n : Nat) (s : String) :
    (repeated n s).toList = (List.replicate n s.toList).flatten :=
  toList_doubled s (Nat.le_refl n)

end Rubylet.Text
