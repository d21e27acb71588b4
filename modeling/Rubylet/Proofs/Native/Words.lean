import Mathlib.Algebra.Ring.Int.Defs
import Mathlib.Tactic.Common
import Rubylet.Machine
import Rubylet.Native.Execution

/-!
# Integers as machine words

What native code computes with words is the word of what the language computes with integers: always
for sums, differences and products, and for a quotient if both integers are words themselves
(`Word.floorQuotient?_ofInt`). A quotient that is no word comes of one division alone.

`Matches` says which values of the language and which cells of native code stand for the same.
`Arith.onInt?` is what both the machine and native code compute (`primitive_int`, `arith_ofInt`).
-/

namespace Rubylet.Native

namespace Word

/-- An integer that is a word. -/
def Holds (n : Int) : Prop := -2 ^ 63 ≤ n ∧ n < 2 ^ 63

instance (n : Int) : Decidable (Holds n) := inferInstanceAs (Decidable (_ ∧ _))

theorem toInt_ofInt {n : Int} (h : Holds n) : (ofInt n).toInt = n :=
  BitVec.toInt_ofInt_eq_self (by decide) h.1 h.2

theorem ofInt_eq_zero_iff {n : Int} (h : Holds n) : ofInt n = 0 ↔ n = 0 := by
  constructor
  · intro hz
    rw [← toInt_ofInt h, hz]
    rfl
  · rintro rfl
    rfl

/-- A quotient steps down if there is a remainder whose sign is not that of the divisor. -/
theorem adjustment_eq (r b : Word) :
    adjustment r b = ofInt (if r.toInt ≠ 0 ∧ ¬ (r.toInt < 0 ↔ b.toInt < 0) then 1 else 0) := by
  have hzero : (r != 0) = decide (r.toInt ≠ 0) := by
    rw [Bool.eq_iff_iff, bne_iff_ne, decide_eq_true_iff, ne_eq, ne_eq, not_iff_not,
      ← BitVec.toInt_inj]
    rfl
  -- The exclusive or is negative if just one of its operands is.
  have hsign : (r ^^^ b).slt 0 = decide (¬ (r.toInt < 0 ↔ b.toInt < 0)) := by
    change (r ^^^ b).slt 0#64 = _
    rw [BitVec.slt_zero_eq_msb, BitVec.msb_xor, BitVec.msb_eq_toInt, BitVec.msb_eq_toInt]
    by_cases hr : r.toInt < 0 <;> by_cases hb : b.toInt < 0 <;> simp [hr, hb]
  rw [adjustment, hzero, hsign, ← Bool.decide_and]
  split
  · next h => rw [decide_eq_true h]; rfl
  · next h => rw [decide_eq_false h]; rfl

/-- Division down and division toward zero differ by the sign of the remainder. -/
theorem fdiv_eq_tdiv_sub (a : Int) {b : Int} (hb : b ≠ 0) :
    a.fdiv b = a.tdiv b - if a.tmod b ≠ 0 ∧ ¬ (a.tmod b < 0 ↔ b < 0) then 1 else 0 := by
  have hsign := Int.sign_tmod a b
  rw [Int.fdiv_eq_tdiv]
  by_cases hdvd : b ∣ a
  · have hzero := Int.dvd_iff_tmod_eq_zero.mp hdvd
    simp [hdvd, hzero]
  · have hne : a.tmod b ≠ 0 := fun h => hdvd (Int.dvd_of_tmod_eq_zero h)
    rw [if_neg hdvd] at hsign
    -- The remainder has the sign of the dividend.
    have hneg : a.tmod b < 0 ↔ a < 0 := by
      rw [← Int.sign_eq_neg_one_iff_neg, hsign, Int.sign_eq_neg_one_iff_neg]
    rw [if_neg hdvd]
    rcases Int.lt_or_gt_of_ne hb with hb | hb
    · have hs := Int.sign_eq_neg_one_of_neg hb
      by_cases ha : 0 ≤ a <;> simp [hne, hneg, ha, hb, hs, Int.not_le.mpr hb]
    · have hs := Int.sign_eq_one_of_pos hb
      have hb' : ¬ b < 0 := by omega
      by_cases ha : 0 ≤ a <;> simp [hne, hneg, ha, hb', hs, Int.le_of_lt hb]

/-- **Words are divided down**, as integers are. -/
theorem floorQuotient?_ofInt {a b : Int} (ha : Holds a) (hb : Holds b) (hzero : b ≠ 0)
    (hover : ¬ (a = -2 ^ 63 ∧ b = -1)) :
    floorQuotient? (ofInt a) (ofInt b) = some (ofInt (a.fdiv b)) := by
  have hnz : ofInt b ≠ 0 := fun h => hzero ((ofInt_eq_zero_iff hb).mp h)
  have hne : ofInt a ≠ BitVec.intMin 64 ∨ ofInt b ≠ -1#64 := by
    by_contra h
    rw [not_or, not_not, not_not] at h
    refine hover ⟨?_, ?_⟩
    · rw [← toInt_ofInt ha, h.1]
      decide
    · rw [← toInt_ofInt hb, h.2]
      decide
  -- The division that would leave the range is the one that is left out.
  have hdivides : divides (ofInt a) (ofInt b) = true := by
    simp only [divides, Bool.and_eq_true, bne_iff_ne, ne_eq, Bool.not_eq_true', Bool.and_eq_false_iff,
      beq_eq_false_iff_ne]
    exact ⟨hnz, hne⟩
  have hquotient : (ofInt a).sdiv (ofInt b) = ofInt (a.tdiv b) := by
    rw [← BitVec.toInt_inj, BitVec.toInt_sdiv, toInt_ofInt ha, toInt_ofInt hb, ofInt,
      BitVec.toInt_ofInt]
  have hremainder : ((ofInt a).srem (ofInt b)).toInt = a.tmod b := by
    rw [BitVec.toInt_srem, toInt_ofInt ha, toInt_ofInt hb]
  -- The divisor is not replaced.
  have hsafe : safeDivisor (ofInt b) = ofInt b := if_neg hnz
  simp only [floorQuotient?, hsafe, quotient?, remainder?, if_pos hdivides, bind, Option.bind,
    pure]
  rw [adjustment_eq, hremainder, toInt_ofInt hb, hquotient, fdiv_eq_tdiv_sub a hzero, ofInt, ofInt,
    ofInt, Int.sub_eq_add_neg, BitVec.ofInt_add, BitVec.ofInt_neg, BitVec.sub_eq_add_neg]

end Word

/-- A value of the language and a cell of native code stand for the same. -/
inductive Matches : Value → Cell → Prop
  | nil : Matches .nil (.pointer none)
  | int (x : Int) : Matches (.int x) (.word (.ofInt x))
  | str (s : String) : Matches (.str s) (.pointer (some s))

/-- What an instruction is to compute: nothing, if it is to divide by zero. -/
def Arith.onInt? : Arith → Int → Int → Option Int
  | .add, x, y => some (x + y)
  | .subtract, x, y => some (x - y)
  | .multiply, x, y => some (x * y)
  | .divide, x, y => if y = 0 then none else some (x.fdiv y)

/-- What the machine makes of an arithmetic message from one integer to another. -/
def Arith.react (op : Arith) (x y : Int) : Machine.Reaction :=
  match op.onInt? x y with
  | some z => .answer (.int z)
  | none => .fail .dividedByZero

section

variable {name : String} {op : Arith} {f f' : Frame} {n : Nat} {x y z : Int}

theorem Arith.named?_eq_some (h : Arith.named? name = some op) :
    (name = "+" ∧ op = .add) ∨ (name = "-" ∧ op = .subtract) ∨ (name = "*" ∧ op = .multiply) ∨
      (name = "/" ∧ op = .divide) := by
  unfold Arith.named? Operator.find? at h
  grind

/-- An integer takes arithmetic messages with one integer for an argument, and no others. -/
theorem primitive_int (h : Arith.named? name = some op) (memory : Nat) (x : Int)
    (args : List Value) :
    (∃ y, args = [.int y] ∧ Machine.primitive memory name (.int x) args = op.react x y) ∨
      Machine.primitive memory name (.int x) args =
        .showing (BackendCause.unconverted name args) := by
  rcases args with _ | ⟨arg, _ | ⟨other, rest⟩⟩
  · right
    rcases Arith.named?_eq_some h with ⟨rfl, rfl⟩ | ⟨rfl, rfl⟩ | ⟨rfl, rfl⟩ | ⟨rfl, rfl⟩ <;> rfl
  · cases arg with
    | int y =>
      refine .inl ⟨y, rfl, ?_⟩
      rcases Arith.named?_eq_some h with ⟨rfl, rfl⟩ | ⟨rfl, rfl⟩ | ⟨rfl, rfl⟩ | ⟨rfl, rfl⟩
      · rfl
      · rfl
      · rfl
      -- Of the four operations, only a division may fail.
      · by_cases hy : y = 0
        · subst hy
          rfl
        · simp [Machine.primitive, Value.type?, Operator.find?, Operator.argType, Operator.apply,
            Arith.react, Arith.onInt?, hy]
    | _ =>
      right
      rcases Arith.named?_eq_some h with ⟨rfl, rfl⟩ | ⟨rfl, rfl⟩ | ⟨rfl, rfl⟩ | ⟨rfl, rfl⟩ <;> rfl
  · right
    rcases Arith.named?_eq_some h with ⟨rfl, rfl⟩ | ⟨rfl, rfl⟩ | ⟨rfl, rfl⟩ | ⟨rfl, rfl⟩ <;> rfl

/-- Native code computes the word of what is to be computed. -/
theorem arith_ofInt (h : op.onInt? x y = some z)
    (hwords : op = .divide → y ≠ 0 → Word.Holds x ∧ Word.Holds y ∧ ¬ (x = -2 ^ 63 ∧ y = -1)) :
    f.arith n op (.word (.ofInt x)) (.word (.ofInt y)) =
      .ok (f.setResult n (.word (.ofInt z))) := by
  -- Addition, subtraction and multiplication wrap; division does so only in the case ruled out.
  cases op with
  | add =>
    obtain rfl := Option.some.inj h
    simp [Frame.arith, Arith.eval?, Word.ofInt, BitVec.ofInt_add]
  | subtract =>
    obtain rfl := Option.some.inj h
    simp [Frame.arith, Arith.eval?, Word.ofInt, BitVec.ofInt_add, Int.sub_eq_add_neg,
      BitVec.ofInt_neg, BitVec.sub_eq_add_neg]
  | multiply =>
    obtain rfl := Option.some.inj h
    simp [Frame.arith, Arith.eval?, Word.ofInt, BitVec.ofInt_mul]
  | divide =>
    rw [Arith.onInt?] at h
    split at h
    · cases h
    · next hzero =>
      obtain rfl := Option.some.inj h
      obtain ⟨hx, hy, hover⟩ := hwords rfl hzero
      have hnz : Word.ofInt y ≠ 0#64 := fun heq => hzero ((Word.ofInt_eq_zero_iff hy).mp heq)
      simp [Frame.arith, Arith.eval?, hnz, Word.floorQuotient?_ofInt hx hy hzero hover]

/-- Native code notes a division by zero. -/
theorem fault_of_arith (h : op.onInt? x y = none) (hf : f.fault? = none)
    (harith : f.arith n op (.word (.ofInt x)) (.word (.ofInt y)) = .ok f') :
    f'.fault? = some n := by
  -- Only a division has no integer result.
  cases op with
  | divide =>
    rw [Arith.onInt?] at h
    split at h
    · next hzero =>
      subst hzero
      obtain rfl := Except.ok.inj harith
      simp [Frame.setResult, Frame.flag, hf, Word.ofInt]
    · cases h
  | _ => cases h

end

end Rubylet.Native
