import Mathlib.Data.Rat.Floor
import Rubylet.Proofs.Native.Words

/-!
# Division down, instruction by instruction

`Word.floorQuotient?` is one function. Here the same is written out as what a machine executes: ten
steps (`Division.code`), each of which takes its data from the operands, from constants and from the
results of earlier steps. The machine has only the division toward zero, and words of 64 bits.

The steps are executed in two ways. `WordOp.eval?` is the machine; it is undefined where a division
is. `WordOp.exactly?` moreover insists that each quotient, remainder and difference is the integer
that it is to be, so that nothing wraps around. Whatever runs exactly also runs on the machine, with
the same results (`run?_mono`).

* `Division.floorQuotient?_eq`: the steps compute `Word.floorQuotient?`, for all words.
* `division_floors`: they run exactly, to the quotient rounded down, unless it is no word; and a
  division by zero is noted, and is none for the machine.
-/

namespace Rubylet.Native

/-! ### Quotients that are words -/

namespace Word

variable {a b : Word}

theorem holds_toInt (a : Word) : Holds a.toInt := ⟨a.le_toInt, a.toInt_lt⟩

/-- Division of integers rounds the rational quotient down. -/
theorem floor_div_eq_fdiv (a b : Int) : ⌊(a / b : ℚ)⌋ = a.fdiv b := by
  obtain ⟨n, rfl | rfl⟩ := b.eq_nat_or_neg
  · calc ⌊(a / (n : ℤ) : ℚ)⌋ = a / n := Rat.floor_intCast_div_natCast a n
      _ = a.fdiv n := (Int.fdiv_eq_ediv_of_nonneg a (Int.natCast_nonneg n)).symm
  · calc ⌊(a / (-n : ℤ) : ℚ)⌋ = ⌊((-a : ℤ) / n : ℚ)⌋ := by
          rw [Int.cast_neg, Int.cast_neg, Int.cast_natCast, div_neg, neg_div]
      _ = -a / n := Rat.floor_intCast_div_natCast (-a) n
      _ = (-a).fdiv n := (Int.fdiv_eq_ediv_of_nonneg (-a) (Int.natCast_nonneg n)).symm
      _ = a.fdiv (-n) := by rw [← Int.neg_fdiv_neg, Int.neg_neg]

/-- The quotient of two integers that are words is a word, unless it is `2 ^ 63`. -/
theorem holds_fdiv {a b : Int} (ha : Holds a) (hb : b ≠ 0) (hover : ¬ (a = -2 ^ 63 ∧ b = -1)) :
    Holds (a.fdiv b) := by
  obtain ⟨hlow, hhigh⟩ := ha
  rcases Int.lt_or_gt_of_ne hb with hneg | hpos
  · -- Both are negated, and the dividend may then be one too large.
    have hc : 0 < -b := by omega
    rw [← Int.neg_fdiv_neg, Int.fdiv_eq_ediv_of_nonneg _ (Int.le_of_lt hc)]
    constructor
    · rw [Int.le_ediv_iff_mul_le hc]
      omega
    · rw [Int.ediv_lt_iff_lt_mul hc]
      omega
  · rw [Int.fdiv_eq_ediv_of_nonneg _ (Int.le_of_lt hpos)]
    constructor
    · rw [Int.le_ediv_iff_mul_le hpos]
      omega
    · rw [Int.ediv_lt_iff_lt_mul hpos]
      omega

/-- The machine defines a division unless it is by zero or its quotient is `2 ^ 63`. -/
theorem divides_iff :
    divides a b = true ↔ b ≠ 0 ∧ ¬ (a.toInt = -2 ^ 63 ∧ b.toInt = -1) := by
  have hmin : a = BitVec.intMin 64 ↔ a.toInt = -2 ^ 63 := by
    rw [← BitVec.toInt_inj]
    rfl
  have hone : b = -1 ↔ b.toInt = -1 := by
    rw [← BitVec.toInt_inj]
    rfl
  rw [divides, Bool.and_eq_true, bne_iff_ne, Bool.not_eq_true', ← Bool.not_eq_true,
    Bool.and_eq_true, beq_iff_eq, beq_iff_eq, hmin, hone]

/-- Divisions that are defined are exact. -/
theorem toInt_sdiv (h : divides a b = true) : (a.sdiv b).toInt = a.toInt.tdiv b.toInt := by
  refine BitVec.toInt_sdiv_of_ne_or_ne a b ?_
  rw [divides, Bool.and_eq_true, Bool.not_eq_true', Bool.and_eq_false_iff, beq_eq_false_iff_ne,
    beq_eq_false_iff_ne] at h
  exact h.2

/-- **The step down is exact, and it leads to the quotient rounded down.** -/
theorem toInt_sub_adjustment (h : divides a b = true) :
    (a.sdiv b - adjustment (a.srem b) b).toInt =
        (a.sdiv b).toInt - (adjustment (a.srem b) b).toInt ∧
      (a.sdiv b - adjustment (a.srem b) b).toInt = a.toInt.fdiv b.toInt := by
  obtain ⟨hne, hover⟩ := divides_iff.mp h
  have hb : b.toInt ≠ 0 := fun heq => hne (BitVec.toInt_inj.mp heq)
  have hbit : ∀ p : Prop, ∀ _ : Decidable p, Holds (if p then 1 else 0) := by
    intro p _
    split <;> decide
  have hdifference : (a.sdiv b).toInt - (adjustment (a.srem b) b).toInt =
      a.toInt.fdiv b.toInt := by
    rw [adjustment_eq, toInt_ofInt (hbit _ _), toInt_sdiv h, BitVec.toInt_srem,
      fdiv_eq_tdiv_sub a.toInt hb]
  have hwrap : (a.sdiv b - adjustment (a.srem b) b).toInt = a.toInt.fdiv b.toInt := by
    -- The difference is in range only as a whole: it is the quotient that is rounded down.
    obtain ⟨hlow, hhigh⟩ := holds_fdiv (holds_toInt a) hb hover
    calc (a.sdiv b - adjustment (a.srem b) b).toInt
        = ((a.sdiv b).toInt - (adjustment (a.srem b) b).toInt).bmod (2 ^ 64) := BitVec.toInt_sub
      _ = (a.toInt.fdiv b.toInt).bmod (2 ^ 64) := by rw [hdifference]
      _ = a.toInt.fdiv b.toInt := Int.bmod_eq_of_le hlow hhigh
  exact ⟨hwrap.trans hdifference.symm, hwrap⟩

end Word

namespace Division

open Word

/-! ### Straight-line code -/

/-- The result of a step: of a comparison a bit, and otherwise a word. -/
inductive Datum where
  | bit (value : Bool)
  | word (value : Word)
  deriving Repr, DecidableEq, Inhabited

/-- Where a step takes a datum from: an operand of the division, or the result of a step. -/
inductive Source where
  | left
  | right
  | constant (value : Word)
  | result (step : Nat)
  deriving Repr, DecidableEq, Inhabited

/-- A comparison of words, read with a sign. -/
inductive Test where
  | equal
  | unequal
  | less
  deriving Repr, DecidableEq, Inhabited

/-- An operation on words, read with a sign. -/
inductive WordOp where
  | quotient
  | remainder
  | subtract
  | xor
  deriving Repr, DecidableEq, Inhabited

/-- A step of straight-line code. -/
inductive Step where
  | compare (test : Test) (x y : Source)
  | compute (op : WordOp) (x y : Source)
  | both (x y : Source)
  /-- The word of a bit, one or zero. -/
  | widen (x : Source)
  /-- The first word if the bit is set, and the second one if not. -/
  | select (condition x y : Source)
  deriving Repr, DecidableEq, Inhabited

/-- The steps of a division down. -/
def code : List Step :=
  [.compare .equal .right (.constant 0),
    .select (.result 0) (.constant 1) .right,
    .compute .quotient .left (.result 1),
    .compute .remainder .left (.result 1),
    .compare .unequal (.result 3) (.constant 0),
    .compute .xor (.result 3) (.result 1),
    .compare .less (.result 5) (.constant 0),
    .both (.result 4) (.result 6),
    .widen (.result 7),
    .compute .subtract (.result 2) (.result 8)]

/-! ### Its execution -/

/-- Does a comparison hold? -/
def Test.holds : Test → Word → Word → Bool
  | equal, x, y => x == y
  | unequal, x, y => x != y
  | less, x, y => x.slt y

/-- What the machine computes, where it is defined. -/
def WordOp.eval? : WordOp → Word → Word → Option Word
  | quotient, x, y => quotient? x y
  | remainder, x, y => remainder? x y
  | subtract, x, y => some (x - y)
  | xor, x, y => some (x ^^^ y)

/-- What an operation is to compute of integers. To combine bits is no arithmetic. -/
def WordOp.onInts? : WordOp → Int → Int → Option Int
  | quotient, x, y => some (x.tdiv y)
  | remainder, x, y => some (x.tmod y)
  | subtract, x, y => some (x - y)
  | xor, _, _ => none

/-- What the machine computes, where it is defined and does not overflow. -/
def WordOp.exactly? (op : WordOp) (x y : Word) : Option Word :=
  (op.eval? x y).filter fun w => (op.onInts? x.toInt y.toInt).all (· = w.toInt)

section

variable (compute : WordOp → Word → Word → Option Word) (left right : Word) (done : List Datum)

/-- The datum that a step takes. -/
def Source.datum? : Source → Option Datum
  | .left => some (.word left)
  | .right => some (.word right)
  | .constant value => some (.word value)
  | .result step => done[step]?

def Source.bit? (s : Source) : Option Bool :=
  match s.datum? left right done with
  | some (.bit value) => some value
  | _ => none

def Source.word? (s : Source) : Option Word :=
  match s.datum? left right done with
  | some (.word value) => some value
  | _ => none

/-- The result of a step, given those of the steps before it. -/
def Step.eval? : Step → Option Datum
  | .compare test x y => do
    return .bit (test.holds (← x.word? left right done) (← y.word? left right done))
  | .compute op x y => do
    return .word (← compute op (← x.word? left right done) (← y.word? left right done))
  | .both x y => do
    return .bit ((← x.bit? left right done) && (← y.bit? left right done))
  | .widen x => do
    return .word ((BitVec.ofBool (← x.bit? left right done)).setWidth 64)
  | .select condition x y => do
    let bit ← condition.bit? left right done
    let first ← x.word? left right done
    let second ← y.word? left right done
    return .word (if bit then first else second)

/-- The results of all steps, where they are defined. -/
def run? : List Step → List Datum → Option (List Datum)
  | [], done => some done
  | step :: rest, done => do
    run? rest (done ++ [← step.eval? compute left right done])

end

/-- The word that straight-line code ends with. -/
def answer? (done : List Datum) : Option Word :=
  match done.getLast? with
  | some (.word value) => some value
  | _ => none

/-! ### What runs exactly runs -/

variable {compute compute' : WordOp → Word → Word → Option Word} {a b d w : Word}

/-- An operation is exact when it has a result and the integers agree with it, where they have one.
-/
theorem WordOp.exactly?_eq_some_iff {op : WordOp} :
    op.exactly? a b = some w ↔
      op.eval? a b = some w ∧ ∀ z, op.onInts? a.toInt b.toInt = some z → w.toInt = z := by
  rw [exactly?, Option.filter_eq_some_iff]
  refine and_congr_right fun _ => ?_
  cases op.onInts? a.toInt b.toInt <;> simp [eq_comm]

/-- A step has the same result if its operation is defined in more cases. -/
theorem Step.eval?_mono (h : ∀ op x y w, compute op x y = some w → compute' op x y = some w)
    {step : Step} {done : List Datum} {datum : Datum}
    (hstep : step.eval? compute a b done = some datum) :
    step.eval? compute' a b done = some datum := by
  cases step with
  | compute op x y =>
    simp only [eval?, bind, Option.bind_eq_some_iff] at hstep ⊢
    obtain ⟨v, hv, v', hv', w, hw, hdatum⟩ := hstep
    exact ⟨v, hv, v', hv', w, h op v v' w hw, hdatum⟩
  | _ => exact hstep

/-- And so has straight-line code. -/
theorem run?_mono (h : ∀ op x y w, compute op x y = some w → compute' op x y = some w) :
    ∀ {steps : List Step} {done final : List Datum},
      run? compute a b steps done = some final → run? compute' a b steps done = some final := by
  intro steps
  induction steps with
  | nil => exact fun hrun => hrun
  | cons step rest ih =>
    intro done final hrun
    simp only [run?, bind, Option.bind_eq_some_iff] at hrun ⊢
    obtain ⟨datum, hstep, hrest⟩ := hrun
    exact ⟨datum, step.eval?_mono h hstep, ih hrest⟩

/-! ### The steps of a division -/

section

variable {step : Step} {rest : List Step} {done : List Datum} {datum : Datum} {op : WordOp}
  {x y : Source} {v v' : Word}

theorem run?_cons (h : step.eval? compute a b done = some datum) :
    run? compute a b (step :: rest) done = run? compute a b rest (done ++ [datum]) := by
  rw [run?, h]
  rfl

theorem run?_cons_eq_none (h : step.eval? compute a b done = none) :
    run? compute a b (step :: rest) done = none := by
  rw [run?, h]
  rfl

theorem Step.eval?_compute (hx : x.word? a b done = some v) (hy : y.word? a b done = some v') :
    (Step.compute op x y).eval? compute a b done = (compute op v v').map .word := by
  rw [eval?, hx, hy]
  cases h : compute op v v' <;> simp [h]

theorem run?_compute (hx : x.word? a b done = some v) (hy : y.word? a b done = some v')
    (h : compute op v v' = some w) :
    run? compute a b (.compute op x y :: rest) done = run? compute a b rest (done ++ [.word w]) :=
  run?_cons (by rw [Step.eval?_compute hx hy, h]; rfl)

end

/-- The divisor is selected by the first comparison. -/
theorem eval?_select (compute : WordOp → Word → Word → Option Word) (a b : Word) :
    (Step.select (.result 0) (.constant 1) .right).eval? compute a b [.bit (b == 0)] =
      some (.word (safeDivisor b)) := by
  change some (Datum.word (if (b == 0) = true then 1 else b)) = _
  simp only [beq_iff_eq, safeDivisor]

/-- The results of the steps, if all of them are defined. -/
def results (a b : Word) : List Datum :=
  let divisor := safeDivisor b
  let quotient := a.sdiv divisor
  let remainder := a.srem divisor
  let signs := remainder ^^^ divisor
  [.bit (b == 0), .word divisor, .word quotient, .word remainder, .bit (remainder != 0),
    .word signs, .bit (signs.slt 0), .bit (remainder != 0 && signs.slt 0),
    .word (adjustment remainder divisor), .word (quotient - adjustment remainder divisor)]

/-- **The steps one after the other**, with any operations that agree with the machine on them. -/
theorem run?_code (hd : safeDivisor b = d)
    (hquotient : compute .quotient a d = some (a.sdiv d))
    (hremainder : compute .remainder a d = some (a.srem d))
    (hxor : compute .xor (a.srem d) d = some (a.srem d ^^^ d))
    (hsubtract : compute .subtract (a.sdiv d) (adjustment (a.srem d) d) =
      some (a.sdiv d - adjustment (a.srem d) d)) :
    run? compute a b code [] = some (results a b) := by
  subst hd
  -- The divisor; then what the machine makes of the division.
  refine (run?_cons rfl).trans ((run?_cons (eval?_select compute a b)).trans ?_)
  refine (run?_compute rfl rfl hquotient).trans ((run?_compute rfl rfl hremainder).trans ?_)
  -- Is there a remainder, and is its sign not that of the divisor?
  refine (run?_cons rfl).trans ((run?_compute rfl rfl hxor).trans ((run?_cons rfl).trans ?_))
  -- If both, the quotient is stepped down.
  refine (run?_cons rfl).trans ((run?_cons rfl).trans ?_)
  exact (run?_compute rfl rfl hsubtract).trans rfl

/-- Without a quotient there are no results. -/
theorem run?_code_eq_none (h : compute .quotient a (safeDivisor b) = none) :
    run? compute a b code [] = none := by
  refine (run?_cons rfl).trans ((run?_cons (eval?_select compute a b)).trans ?_)
  have hstep : (Step.compute .quotient .left (.result 1)).eval? compute a b
      [.bit (b == 0), .word (safeDivisor b)] = none :=
    (Step.eval?_compute rfl rfl).trans (congrArg (Option.map Datum.word) h)
  exact run?_cons_eq_none hstep

/-- **The machine computes `floorQuotient?`**: for any words, the quotient that the steps end with,
or nothing if a division is not defined. -/
theorem floorQuotient?_eq (a b : Word) :
    floorQuotient? a b = (run? WordOp.eval? a b code []).bind answer? := by
  rw [floorQuotient?]
  -- The sequence gets stuck exactly where the division of words is undefined.
  by_cases hdivides : divides a (safeDivisor b) = true
  · have hquotient : quotient? a (safeDivisor b) = some (a.sdiv (safeDivisor b)) := if_pos hdivides
    have hremainder : remainder? a (safeDivisor b) = some (a.srem (safeDivisor b)) :=
      if_pos hdivides
    rw [run?_code rfl hquotient hremainder rfl rfl, hquotient, hremainder]
    rfl
  · have hquotient : quotient? a (safeDivisor b) = none := if_neg hdivides
    rw [run?_code_eq_none hquotient, hquotient]
    rfl

/-- **A division that is defined runs exactly**: no step of it overflows. -/
theorem run?_exactly (h : divides a (safeDivisor b) = true) :
    run? WordOp.exactly? a b code [] = some (results a b) := by
  -- An operation whose integer result fits is exact.
  have exactly : ∀ (op : WordOp) {x y w : Word} {z : Int}, op.eval? x y = some w →
      op.onInts? x.toInt y.toInt = some z → w.toInt = z → op.exactly? x y = some w := by
    intro op x y w z hw hz hexact
    refine WordOp.exactly?_eq_some_iff.mpr ⟨hw, fun z' hz' => ?_⟩
    rw [hexact]
    exact Option.some.inj (hz.symm.trans hz')
  have hquotient := exactly .quotient (if_pos h) rfl (toInt_sdiv h)
  have hremainder := exactly .remainder (if_pos h) rfl (BitVec.toInt_srem _ _)
  -- The adjustment never overflows.
  have hsubtract := exactly .subtract rfl rfl (toInt_sub_adjustment h).1
  exact run?_code rfl hquotient hremainder rfl hsubtract

/-- The machine executes the steps to a word: all divisions are defined, and nothing overflows. -/
def Runs (a b q : Word) : Prop :=
  ∃ done, run? WordOp.exactly? a b code [] = some done ∧
    run? WordOp.eval? a b code [] = some done ∧ answer? done = some q

/-- The sequence runs through when the division is defined. -/
theorem runs (h : divides a (safeDivisor b) = true) :
    Runs a b (a.sdiv (safeDivisor b) - adjustment (a.srem (safeDivisor b)) (safeDivisor b)) := by
  have hrun := run?_exactly h
  exact ⟨results a b, hrun,
    run?_mono (fun _ _ _ _ hw => (WordOp.exactly?_eq_some_iff.mp hw).1) hrun, rfl⟩

theorem Runs.floorQuotient? (h : Runs a b w) : floorQuotient? a b = some w := by
  obtain ⟨done, -, hrun, hanswer⟩ := h
  rw [floorQuotient?_eq, hrun]
  exact hanswer

end Division

theorem primitive_divide (memory : Nat) (x : Int) {y : Int} (hy : y ≠ 0) :
    Machine.primitive memory "/" (.int x) [.int y] = .answer (.int (x.fdiv y)) := by
  simp [Machine.primitive, Value.type?, Operator.find?, Operator.argType, Operator.apply, hy]

/-- A frame divides by the sequence, and flags a zero divisor. -/
theorem Frame.arith_divide {f : Frame} {n : Nat} {a b c : Word}
    (h : Word.floorQuotient? a b = some c) :
    f.arith n .divide (.word a) (.word b) =
      .ok ((if b = 0 then f.flag n else f).setResult n (.word c)) := by
  simp [arith, Arith.eval?, h]

/-- **Native division rounds down.** All integers of 64 bits may be divided but the least one by -1,
whose quotient is none of them. The machine executes the steps of the division without overflow. It
ends with the quotient rounded down, which is what the interpreter answers as well, and this is what
native code goes on with. It executes them for a divisor of zero too: no division of the machine is
by zero, the result is the dividend, and the fault is noted. -/
theorem division_floors (memory : Nat) (f : Frame) (n : Nat) (a b : Word)
    (hover : ¬ (a.toInt = -2 ^ 63 ∧ b.toInt = -1)) :
    Arith.named? "/" = some .divide ∧
    ∃ q, Division.Runs a b q ∧
      f.arith n .divide (.word a) (.word b) =
        .ok ((if b = 0 then f.flag n else f).setResult n (.word q)) ∧
      (b ≠ 0 → q.toInt = ⌊(a.toInt / b.toInt : ℚ)⌋ ∧
        Machine.primitive memory "/" (.int a.toInt) [.int b.toInt] = .answer (.int q.toInt)) ∧
      (b = 0 → q = a) := by
  -- The divisor that is used is not zero, and the one overflow is ruled out.
  have hdivides : Word.divides a (Word.safeDivisor b) = true := by
    refine Word.divides_iff.mpr ⟨Word.safeDivisor_ne_zero b, ?_⟩
    rw [Word.safeDivisor]
    split
    · exact fun h => absurd h.2 (by decide)
    · exact hover
  have hruns := Division.runs hdivides
  refine ⟨rfl, _, hruns, Frame.arith_divide hruns.floorQuotient?, fun hb => ?_, ?_⟩
  · have hsafe : Word.safeDivisor b = b := if_neg hb
    rw [hsafe] at hdivides ⊢
    have hfloor := (Word.toInt_sub_adjustment hdivides).2
    have hzero : b.toInt ≠ 0 := fun heq => hb (BitVec.toInt_inj.mp heq)
    exact ⟨by rw [hfloor, Word.floor_div_eq_fdiv], by rw [hfloor, primitive_divide _ _ hzero]⟩
  -- A zero divisor is replaced by one, and the quotient by one is the dividend.
  · rintro rfl
    change a.sdiv 1#64 - Word.adjustment (a.srem 1#64) 1#64 = a
    rw [BitVec.sdiv_one, BitVec.srem_one]
    exact BitVec.sub_zero a

/-- The least integer, divided by the greatest one: the quotient toward zero is -1, and inexact. -/
theorem division_floors_extremes :
    ¬ ((BitVec.intMin 64).toInt = -2 ^ 63 ∧ (BitVec.intMax 64).toInt = -1) ∧
    ∃ q, Division.Runs (BitVec.intMin 64) (BitVec.intMax 64) q ∧ q.toInt = -2 := by
  have hover : ¬ ((BitVec.intMin 64).toInt = -2 ^ 63 ∧ (BitVec.intMax 64).toInt = -1) := by decide
  obtain ⟨-, q, hruns, -, hq, -⟩ :=
    division_floors 0 default 0 (BitVec.intMin 64) (BitVec.intMax 64) hover
  refine ⟨hover, q, hruns, ?_⟩
  rw [(hq (by decide)).1, Word.floor_div_eq_fdiv]
  decide

end Rubylet.Native
