import Mathlib.Data.List.DropRight
import Mathlib.Data.List.TakeWhile
import Rubylet.Text.Basic
import Rubylet.Text.Lines

/-!
# Columns and lines taken apart

A line that has been put together from columns can be taken apart again where a column ends in a
character that the next one does not have. What has been filled up with blanks is found again if it
does not end in a blank itself (`trimRight_padRight`), and lines that have been joined are found
again if none of them is empty or broken (`lines_intercalate`).
-/

namespace Rubylet.Text

variable {s t : String} {c sep : Char} {a a' b b' cs : List Char} {k k' : Nat}

/-! ### At a separator -/

/-- Texts are the same if they are the same up to a separator that comes first. -/
theorem split_at_first (ha : sep ∉ a) (ha' : sep ∉ a') (h : a ++ sep :: b = a' ++ sep :: b') :
    a = a' ∧ b = b' := by
  -- Both texts are read up to the separator, character by character.
  induction a generalizing a' with
  | nil =>
    cases a' with
    | nil => exact ⟨rfl, (List.cons.inj h).2⟩
    | cons c a' => exact absurd ((List.cons.inj h).1 ▸ .head _) ha'
  | cons c a ih =>
    cases a' with
    | nil => exact absurd ((List.cons.inj h).1 ▸ .head _) ha
    | cons c' a' =>
      obtain ⟨rfl, hrest⟩ := List.cons.inj h
      obtain ⟨rfl, rfl⟩ := ih (fun hm => ha (.tail _ hm)) (fun hm => ha' (.tail _ hm)) hrest
      exact ⟨rfl, rfl⟩

/-- And so they are from a separator on that comes last. -/
theorem split_at_last (hb : sep ∉ b) (hb' : sep ∉ b') (h : a ++ sep :: b = a' ++ sep :: b') :
    a = a' ∧ b = b' := by
  have hreverse := congrArg List.reverse h
  simp only [List.reverse_append, List.reverse_cons, List.append_assoc, List.singleton_append]
    at hreverse
  -- Backwards, the last separator is the first.
  obtain ⟨hb, ha⟩ := split_at_first (by simpa using hb) (by simpa using hb') hreverse
  exact ⟨List.reverse_inj.mp ha, List.reverse_inj.mp hb⟩

/-! ### Blanks -/

/-- Does the text end in something that is not blank? -/
def Firm (s : String) : Prop := ∃ cs c, s.toList = cs ++ [c] ∧ isBlank c = false

theorem firm_append (s : String) (h : Firm t) : Firm (s ++ t) := by
  obtain ⟨cs, c, heq, hc⟩ := h
  exact ⟨s.toList ++ cs, c, by rw [String.toList_append, heq, List.append_assoc], hc⟩

/-- A firm text has no blanks to trim. -/
theorem trimRight_of_firm (h : Firm s) : trimRight s = s := by
  obtain ⟨cs, c, heq, hc⟩ := h
  apply String.toList_injective
  rw [trimRight, dropRight, String.toList_ofList, heq, List.reverse_concat,
    List.dropWhile_cons_of_neg (by simp [hc]), List.reverse_cons, List.reverse_reverse]

theorem trimRight_append_blanks (s : String) (n : Nat) :
    trimRight (s ++ blanks n) = trimRight s := by
  have hblank : ∀ c ∈ List.replicate n ' ', isBlank c = true := by
    intro c hc
    rw [List.eq_of_mem_replicate hc]
    rfl
  rw [trimRight, trimRight, dropRight, dropRight, blanks, String.toList_append,
    String.toList_ofList, List.reverse_append, List.reverse_replicate,
    List.dropWhile_append_of_pos hblank]

/-- **What is filled up is found again.** -/
theorem trimRight_padRight (width : Nat) (s : String) :
    trimRight (padRight width s) = trimRight s :=
  trimRight_append_blanks s _

/-- Behind blanks a text is found again, however many there are. -/
theorem eq_of_blanks_append (hs : s.toList.head? ≠ some ' ') (ht : t.toList.head? ≠ some ' ')
    (h : blanks k ++ s = blanks k' ++ t) : s = t := by
  -- Neither text begins with a blank, so dropping the blanks in front leaves the text.
  have hdrop (n : Nat) {u : String} (hu : u.toList.head? ≠ some ' ') :
      (blanks n ++ u).toList.dropWhile (· = ' ') = u.toList := by
    rw [String.toList_append, blanks, String.toList_ofList,
      List.dropWhile_append_of_pos fun c hc => by simpa using List.eq_of_mem_replicate hc]
    cases hcs : u.toList with
    | nil => rfl
    | cons c cs =>
      rw [hcs] at hu
      exact List.dropWhile_cons_of_neg (by simpa using hu)
  apply String.toList_injective
  rw [← hdrop k hs, h, hdrop k' ht]

/-! ### Lines -/

/-- A text on one line. -/
def OneLine (s : String) : Prop := s ≠ "" ∧ ∀ c ∈ s.toList, isLineBreak c = false

theorem breakLines_cons (hc : isLineBreak c = false) (cs : List Char) : breakLines (c :: cs) =
    match breakLines cs with
    | [] => [[c]]
    | line :: others => (c :: line) :: others := by
  -- The equation is split, and not the goal: the breaks of several characters overlap with this
  -- case.
  generalize heq : breakLines (c :: cs) = ls
  unfold breakLines at heq
  split at heq
  · next h => cases h
  · next h => cases h; cases hc
  · next h =>
    cases h
    rw [hc] at heq
    exact heq.symm

theorem breakLines_feed (rest : List Char) : breakLines ('\n' :: rest) = [] :: breakLines rest :=
  rfl

/-- The first line ends at a line feed. -/
theorem breakLines_append_feed (h : ∀ c ∈ a, isLineBreak c = false) (rest : List Char) :
    breakLines (a ++ '\n' :: rest) = a :: breakLines rest := by
  induction a with
  | nil => exact breakLines_feed rest
  | cons c a ih =>
    rw [List.cons_append, breakLines_cons (h c (.head _)), ih fun d hd => h d (.tail _ hd)]

/-- A text without line breaks is one line. -/
theorem breakLines_of_oneLine (hne : a ≠ []) (h : ∀ c ∈ a, isLineBreak c = false) :
    breakLines a = [a] := by
  induction a with
  | nil => exact absurd rfl hne
  | cons c a ih =>
    rw [breakLines_cons (h c (.head _))]
    cases a with
    | nil => rfl
    | cons d a => rw [ih (List.cons_ne_nil _ _) fun d hd => h d (.tail _ hd)]

/-- **Joined lines are found again.** -/
theorem lines_intercalate {ls : List String} (h : ∀ l ∈ ls, OneLine l) :
    lines ("\n".intercalate ls) = ls := by
  induction ls with
  | nil => rfl
  | cons l ls ih =>
    have hl := h l (.head _)
    cases ls with
    | nil =>
      have hne : l.toList ≠ [] := fun hnil => hl.1 (String.toList_eq_nil_iff.mp hnil)
      rw [String.intercalate_singleton, lines, breakLines_of_oneLine hne hl.2, List.map_singleton,
        String.ofList_toList]
    | cons l' ls =>
      have hfeed : "\n".toList = ['\n'] := rfl
      -- The first line ends at the first line feed, since it has none of its own.
      rw [String.intercalate_cons_cons, lines, String.toList_append, String.toList_append, hfeed,
        List.append_assoc, List.singleton_append, breakLines_append_feed hl.2, List.map_cons,
        String.ofList_toList]
      exact congrArg _ (ih fun m hm => h m (.tail _ hm))

/-! ### Numbers -/

/-- What numbers are written with. -/
def isFigure (c : Char) : Bool := c.isDigit || c = '-'

theorem isFigure_of_mem_repr {n : Nat} (h : c ∈ n.repr.toList) : c.isDigit := by
  rw [Nat.toList_repr] at h
  exact Nat.isDigit_of_mem_toDigits (by decide) (by decide) h

theorem isFigure_of_mem_toString {n : Int} (h : c ∈ (toString n).toList) : isFigure c := by
  rw [Int.toString_eq_repr, Int.repr_eq_if] at h
  split at h
  · simp [isFigure, isFigure_of_mem_repr h]
  · rw [String.toList_append, List.mem_append] at h
    rcases h with h | h
    · obtain rfl := List.mem_singleton.mp h
      rfl
    · simp [isFigure, isFigure_of_mem_repr h]

/-- A number prints at least one digit. -/
theorem toString_ne_empty (n : Int) : toString n ≠ "" := by
  rw [Int.toString_eq_repr, Int.repr_eq_if]
  split
  · exact Nat.repr_ne_empty
  · exact fun h => absurd (String.append_eq_empty_iff.mp h).2 Nat.repr_ne_empty

theorem not_isBlank_of_isFigure (h : isFigure c) : isBlank c = false := by
  -- The minus sign and the digits lie above the blanks of ASCII and below all others.
  have hrange : 0x2d ≤ c.toNat ∧ c.toNat ≤ 0x39 := by
    simp only [isFigure, Char.isDigit, Bool.or_eq_true, Bool.and_eq_true, decide_eq_true_eq,
      ge_iff_le, UInt32.le_iff_toNat_le] at h
    rcases h with h | rfl
    · exact ⟨le_trans (by decide) h.1, h.2⟩
    · decide
  simp only [isBlank, Bool.or_eq_false_iff, Bool.and_eq_false_iff, decide_eq_false_iff_not]
  omega

end Rubylet.Text
