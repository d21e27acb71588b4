import Rubylet.Grammar.Parse

/-!
# The table of the grammar

What a parser may rely on is not how the automaton was constructed but what its states came out to
be. `State.Fits` lists that, as a test of one state against its successors:

* `closed`: the rules of a phrase at a dot are begun there, before all that may follow the phrase.
* `passes`: what stands before a symbol goes on behind it, in the successor, with its lookaheads.
* `decides`: a finished rule is what the automaton reduces, before all its lookaheads. So the grammar
  has no conflicts: no other rule is finished there, and no token can be shifted instead.
* `comes`: what stands behind a symbol came from before it, in every state that leads there.
* `reduces`: only finished rules are reduced.
* `proper`: every state waits for something, and the whole input is reduced at its end alone.

All states pass the test (`states_fit`), and what can begin a phrase has been found out
(`firsts_known`). Both are evaluated once; everything else is read off from them. A text that is no
program is parsed on the same occasion (`computed`), because the states take long to compute.
-/

namespace Rubylet

namespace LookaheadSet

/-- Does the second set hold all that the first one holds? -/
def within (s t : LookaheadSet) : Bool := s ||| t == t

variable {l : Lookahead} {s t : LookaheadSet}

theorem mem_union : mem l (s ||| t) = (mem l s || mem l t) := Nat.testBit_or s t (bit l)

/-- A smaller set has fewer members. -/
theorem mem_of_within (h : within s t) (hl : mem l s) : mem l t := by
  rw [← beq_iff_eq.mp h, mem_union, hl, Bool.true_or]

theorem mem_singleton (l : Lookahead) : mem l (singleton l) := by
  rw [mem, singleton, Nat.shiftLeft_eq', Nat.one_shiftLeft, Nat.testBit_two_pow_self]

theorem ne_zero_of_mem (h : mem l s) : s ≠ 0 := by
  rintro rfl
  rw [mem, Nat.zero_testBit] at h
  cases h

/-- Only the end of the input is in the set of the end alone. -/
theorem eq_none_of_mem (h : mem l (singleton none)) : l = none := by
  cases l with
  | none => rfl
  | some kind => cases kind <;> exact absurd h (by decide)

end LookaheadSet

namespace Automaton

open LookaheadSet

/-! ### What phrases begin with -/

/-- What is known of each phrase covers what its rules begin with. -/
def Firsts.known (f : Firsts) : Bool :=
  Phrase.all.all fun p => p.rules.all fun r =>
    (!canBeEmpty f r.symbols || (f.get p).1) && within (firstOf f 0 r.symbols) (f.get p).2

/-- What was learned in as many rounds as there are phrases covers all rules. -/
theorem firsts_known : firsts.known := by decide +kernel

/-- A phrase can be empty when the symbols of one of its rules can. -/
theorem canBeEmpty_rule {r : Rule} (h : canBeEmpty firsts r.symbols) : (firsts.get r.phrase).1 := by
  have hr := Phrase.forall_rule firsts_known r
  rw [Bool.and_eq_true, h] at hr
  exact hr.1

/-- What a rule begins with its phrase begins with. -/
theorem firstOf_rule (r : Rule) : within (firstOf firsts 0 r.symbols) (firsts.get r.phrase).2 :=
  (Bool.and_eq_true_iff.mp (Phrase.forall_rule firsts_known r)).2

/-- Symbols begin with what the first of them begins with, and with what the others do if it can be
empty. -/
theorem mem_firstOf_phrase {f : Firsts} {follow : LookaheadSet} {l : Lookahead} {p : Phrase}
    {rest : List Symbol} : mem l (firstOf f follow (.phrase p :: rest)) =
      (mem l (f.get p).2 || (f.get p).1 && mem l (firstOf f follow rest)) := by
  rw [firstOf]
  cases h : (f.get p).1 with
  | false => simp [h]
  | true => simp [h, mem_union]

/-- Where symbols cannot be empty, what follows them makes no difference to what they begin with. -/
theorem mem_firstOf {f : Firsts} {follow : LookaheadSet} {l : Lookahead} :
    ∀ {symbols : List Symbol}, mem l (firstOf f follow symbols) =
      (mem l (firstOf f 0 symbols) || canBeEmpty f symbols && mem l follow)
  | [] => by simp [firstOf, canBeEmpty, mem]
  | .token kind :: _ => by simp [firstOf, canBeEmpty]
  | .phrase p :: rest => by
    rw [mem_firstOf_phrase, mem_firstOf_phrase, @mem_firstOf _ _ _ rest, canBeEmpty]
    cases (f.get p).1 <;> simp [Bool.or_assoc]

/-! ### States -/

/-- All items of a state. -/
def State.items (s : State) : ItemSet := s.kernel ++ begun firsts s.kernel

/-- For each phrase, what may follow it where it may begin in a state. -/
def State.openings (s : State) : Openings :=
  close firsts closeSteps (s.kernel.flatMap fun (i, l) => opened firsts i.rest l) noOpenings

/-- All lookaheads. -/
def lookaheads : List Lookahead := none :: TokenKind.all.map some

/-- How many reductions a parser can make at most before a stack of this height under a symbol gets
lower: a symbol weighs more than what is built from it alone. What stands before an empty body has
the weight of a body and of one more frame. -/
def weight : Symbol → Nat
  | .token _ => 31
  | .phrase p =>
    match p with
    | .program | .elseClause | .entry => 0
    | .body => 1
    | .conditional => 30
    | .primary => 29
    | .chain => 28
    | .term => 27
    | .sum => 26
    | .expr | .assign | .methodDef | .classDef | .terminators => 25
    | .separator | .moreStatements | .statement | .paramList | .moreParams | .callArgs
    | .moreArgs => 24

namespace State

/-- The rules of the phrases at the dots are begun. -/
def closed (s : State) : Bool :=
  s.items.all fun (i, l) => (opened firsts i.rest l).all fun (p, follow) =>
    within follow (s.openings.getD p.ctorIdx 0)

/-- Every item goes on in the successor over its next symbol. -/
def passes (goto : Symbol → Option Nat) (state : Nat → State) (s : State) : Bool :=
  s.items.all fun (i, l) =>
    match i.rest with
    | [] => true
    | symbol :: _ =>
      match goto symbol with
      | none => false
      | some m => (state m).kernel.any fun (j, follow) =>
          j == ⟨i.rule, i.done + 1⟩ && within l follow

/-- Every finished rule is reduced before all its lookaheads. -/
def decides (action : Lookahead → Option Action) (s : State) : Bool :=
  s.items.all fun (i, l) => !i.rest.isEmpty ||
    lookaheads.all fun a => !mem a l || action a == some (.reduce i.rule)

/-- Every item in the kernel of a successor came from here. -/
def comes (size : Nat) (state : Nat → State) (s : State) : Bool :=
  s.successors.all fun (symbol, m) => decide (m < size) &&
    (state m).kernel.all fun (i, _) =>
      match i.done with
      | 0 => false
      | k + 1 => i.rule.symbols[k]? == some symbol && s.items.any fun (j, _) => j == ⟨i.rule, k⟩

/-- Every rule that is reduced is finished. -/
def reduces (s : State) : Bool :=
  s.reductions.all fun (r, _) =>
    r == .emptyBody || s.kernel.any fun (i, _) => i == ⟨r, r.symbols.length⟩

/-- An empty body is built on some weight. -/
def carries (state : Nat → State) (s : State) : Bool :=
  s.successors.all fun (symbol, m) => (state m).reductions.all fun (r, _) =>
    r != .emptyBody || decide (24 ≤ weight symbol)

/-- Some rule is in progress, and the rule of the whole input is reduced only at its end. -/
def proper (s : State) : Bool :=
  !s.kernel.isEmpty &&
    s.reductions.all fun (r, l) => r != .entry || l == LookaheadSet.singleton none

variable {s : State} {goto : Symbol → Option Nat} {state : Nat → State} {size m : Nat}
  {action : Lookahead → Option Action} {i : Item} {r : Rule} {p : Phrase} {symbol : Symbol}
  {beyond : List Symbol} {l : LookaheadSet} {a : Lookahead}

/-- The items that begin in a state have nothing read, and carry what closing has found for their
phrase. -/
theorem mem_begun {kernel : ItemSet} : (i, l) ∈ begun firsts kernel ↔
    i.done = 0 ∧ l ≠ 0 ∧ l = (close firsts closeSteps
      (kernel.flatMap fun (i, l) => opened firsts i.rest l) noOpenings).getD
        i.rule.phrase.ctorIdx 0 := by
  unfold begun
  simp only [List.mem_flatMap]
  constructor
  · rintro ⟨p, -, h⟩
    split at h
    · cases h
    -- What a phrase is begun with is the same for all its rules.
    · next hl =>
      obtain ⟨r, hr, heq⟩ := List.mem_map.mp h
      obtain ⟨rfl, rfl⟩ := Prod.mk.inj heq
      rw [Phrase.phrase_of_mem_rules hr]
      exact ⟨rfl, hl, rfl⟩
  · rintro ⟨hdone, hl, rfl⟩
    refine ⟨i.rule.phrase, Phrase.mem_all _, ?_⟩
    rw [if_neg hl]
    obtain ⟨r, done⟩ := i
    obtain rfl : done = 0 := hdone
    exact List.mem_map.mpr ⟨r, Phrase.mem_rules r, rfl⟩

/-- A state that is closed begins every rule of the phrase an item awaits, with the tokens that may
follow it there. -/
theorem begun_of_closed (h : s.closed) (hi : (i, l) ∈ s.items) (hrest : i.rest = .phrase p :: beyond)
    (ha : mem a (firstOf firsts l beyond)) (hr : r.phrase = p) :
    ∃ l', (⟨r, 0⟩, l') ∈ s.items ∧ mem a l' := by
  have hclosed := List.all_eq_true.mp h _ hi
  simp only [opened, hrest, List.all_cons, List.all_nil, Bool.and_true] at hclosed
  -- What follows the phrase is among what the state begins its rules with, so this is not empty.
  have hmem := mem_of_within hclosed ha
  refine ⟨_, List.mem_append_right _ (mem_begun.mpr ⟨rfl, ?_, rfl⟩), ?_⟩
  · rw [hr]
    exact ne_zero_of_mem hmem
  · rw [hr]
    exact hmem

/-- A state passes every item on with the symbol it awaits. -/
theorem goes_on_of_passes (h : s.passes goto state) (hi : (i, l) ∈ s.items)
    (hrest : i.rest = symbol :: beyond) : ∃ m l', goto symbol = some m ∧
      (⟨i.rule, i.done + 1⟩, l') ∈ (state m).items ∧ ∀ a, mem a l → mem a l' := by
  have hpasses := List.all_eq_true.mp h _ hi
  simp only [hrest] at hpasses
  split at hpasses
  · cases hpasses
  · next m hm =>
    obtain ⟨⟨j, l'⟩, hj, hjl⟩ := List.any_eq_true.mp hpasses
    obtain ⟨hj', hwithin⟩ := Bool.and_eq_true_iff.mp hjl
    obtain rfl := beq_iff_eq.mp hj'
    -- The successor finds the moved item in its kernel.
    exact ⟨m, l', hm, List.mem_append_left _ hj, fun a => mem_of_within hwithin⟩

/-- A finished item is reduced on each of its lookaheads. -/
theorem action_of_decides (h : s.decides action) (hi : (i, l) ∈ s.items) (hrest : i.rest = [])
    (ha : mem a l) : action a = some (.reduce i.rule) := by
  have hdecides := List.all_eq_true.mp h _ hi
  have hmem : a ∈ lookaheads := by
    cases a with
    | none => exact .head _
    | some kind => exact .tail _ (List.mem_map_of_mem (TokenKind.mem_all kind))
  simp only [hrest, List.isEmpty_nil, Bool.not_true, Bool.false_or] at hdecides
  have := List.all_eq_true.mp hdecides a hmem
  rw [ha, Bool.not_true, Bool.false_or] at this
  exact beq_iff_eq.mp this

theorem lt_of_comes (h : s.comes size state) (hs : (symbol, m) ∈ s.successors) : m < size :=
  of_decide_eq_true (Bool.and_eq_true_iff.mp (List.all_eq_true.mp h _ hs)).1

/-- An item that stands past a symbol was passed on from the state before. -/
theorem came_of_comes (h : s.comes size state) (hs : (symbol, m) ∈ s.successors) {k : Nat}
    (hi : (⟨r, k + 1⟩, l) ∈ (state m).items) :
    r.symbols[k]? = some symbol ∧ ∃ l', (⟨r, k⟩, l') ∈ s.items := by
  rcases List.mem_append.mp hi with hi | hi
  · have hcomes := (Bool.and_eq_true_iff.mp (List.all_eq_true.mp h _ hs)).2
    obtain ⟨hsymbol, hany⟩ := Bool.and_eq_true_iff.mp (List.all_eq_true.mp hcomes _ hi)
    obtain ⟨⟨j, l'⟩, hj, heq⟩ := List.any_eq_true.mp hany
    obtain rfl := beq_iff_eq.mp heq
    exact ⟨beq_iff_eq.mp hsymbol, l', hj⟩
  · exact absurd (mem_begun.mp hi).1 (Nat.succ_ne_zero k)

/-- An item of a successor has been moved. -/
theorem done_of_comes (h : s.comes size state) (hs : (symbol, m) ∈ s.successors)
    (hi : (i, l) ∈ (state m).kernel) : i.done ≠ 0 := by
  have hcomes := (Bool.and_eq_true_iff.mp (List.all_eq_true.mp h _ hs)).2
  have hdone := List.all_eq_true.mp hcomes _ hi
  rintro heq
  simp only [heq] at hdone
  cases hdone

/-- A state reduces by the rules it has finished. -/
theorem finished_of_reduces (h : s.reduces) (hr : (r, l) ∈ s.reductions) :
    r = .emptyBody ∨ ∃ l', (⟨r, r.symbols.length⟩, l') ∈ s.items := by
  rcases Bool.or_eq_true_iff.mp (List.all_eq_true.mp h _ hr) with heq | hany
  · exact .inl (beq_iff_eq.mp heq)
  · obtain ⟨⟨j, l'⟩, hj, heq⟩ := List.any_eq_true.mp hany
    obtain rfl := beq_iff_eq.mp heq
    exact .inr ⟨l', List.mem_append_left _ hj⟩

/-- Only a heavy symbol leads to a state that reduces an empty body. -/
theorem weight_of_carries (h : s.carries state) (hs : (symbol, m) ∈ s.successors)
    (hr : (.emptyBody, l) ∈ (state m).reductions) : 24 ≤ weight symbol := by
  have hcarries := List.all_eq_true.mp (List.all_eq_true.mp h _ hs) _ hr
  dsimp only at hcarries
  rw [bne_self_eq_false, Bool.false_or] at hcarries
  exact of_decide_eq_true hcarries

theorem exists_kernel_of_proper (h : s.proper) : ∃ i l, (i, l) ∈ s.kernel := by
  have hkernel := (Bool.and_eq_true_iff.mp h).1
  cases hs : s.kernel with
  | nil => rw [hs] at hkernel; cases hkernel
  | cons item rest => exact ⟨item.1, item.2, .head _⟩

/-- The entry rule is finished only before the end of the input. -/
theorem eq_none_of_proper (h : s.proper) (hr : (.entry, l) ∈ s.reductions) (ha : mem a l) :
    a = none := by
  have hproper := List.all_eq_true.mp (Bool.and_eq_true_iff.mp h).2 _ hr
  dsimp only at hproper
  rw [bne_self_eq_false, Bool.false_or] at hproper
  obtain rfl := beq_iff_eq.mp hproper
  exact eq_none_of_mem ha

end State

/-! ### The test of all states -/

/-- The test of one state. -/
def fits (n : Nat) : Bool :=
  let s := state n
  s.closed && s.passes (goto n) state && s.decides (action n) && s.comes states.size state &&
    s.reduces && s.carries state && s.proper

/-- The first state waits for a program and the end of the input. -/
def starts : Bool :=
  decide (0 < states.size) && decide ((state 0).kernel = [(⟨.entry, 0⟩, LookaheadSet.singleton none)])

namespace Sample

/-- The tokens of `f(1 end`. -/
def unclosed : List Token :=
  [⟨.name, "f", ⟨1, 1⟩⟩, ⟨.lpar, "(", ⟨1, 2⟩⟩, ⟨.int, "1", ⟨1, 3⟩⟩, ⟨.kwEnd, "end", ⟨1, 5⟩⟩]

/-- The word `end` is refused. The number has been made an argument before that is found out, so no
operator is expected behind it, although one could come. -/
def unclosedError : Parse.SyntaxError :=
  ⟨some ⟨.kwEnd, "end", ⟨1, 5⟩⟩, ⟨1, 5⟩, [some .comma, some .rpar]⟩

end Sample

/-- What is computed from the states, which are computed once. -/
theorem computed : (starts && (List.range states.size).all fits) = true ∧
    (match Parse.tree Sample.unclosed with
      | .ok _ => none
      | .error e => some e) = some Sample.unclosedError := by
  decide +kernel

/-- **All states pass the test.** -/
theorem states_fit : (starts && (List.range states.size).all fits) = true := computed.1

-- What a proof may know of the states is what the test says; none should try to evaluate them.
attribute [local irreducible] states

variable {n m : Nat} {i : Item} {r : Rule} {p : Phrase} {symbol : Symbol} {beyond : List Symbol}
  {l : LookaheadSet} {a : Lookahead}

/-- A state fits when it passes each of the checks. -/
theorem fits_iff : fits n ↔ ((((((state n).closed ∧ (state n).passes (goto n) state) ∧
    (state n).decides (action n)) ∧ (state n).comes states.size state) ∧ (state n).reduces) ∧
      (state n).carries state) ∧ (state n).proper := by
  simp only [fits, Bool.and_eq_true]

/-- Every state of the table has been checked. -/
theorem fits_of_lt (hn : n < states.size) : fits n :=
  List.all_eq_true.mp (Bool.and_eq_true_iff.mp states_fit).2 n (List.mem_range.mpr hn)

theorem size_pos : 0 < states.size :=
  of_decide_eq_true (Bool.and_eq_true_iff.mp (Bool.and_eq_true_iff.mp states_fit).1).1

theorem kernel_zero : (state 0).kernel = [(⟨.entry, 0⟩, LookaheadSet.singleton none)] :=
  of_decide_eq_true (Bool.and_eq_true_iff.mp (Bool.and_eq_true_iff.mp states_fit).1).2

theorem entry_mem_items : (⟨.entry, 0⟩, LookaheadSet.singleton none) ∈ (state 0).items := by
  rw [State.items, kernel_zero]
  exact .head _

/-- Nothing stands before the first state. -/
theorem done_of_mem_items_zero (hi : (i, l) ∈ (state 0).items) : i.done = 0 := by
  rcases List.mem_append.mp hi with hi | hi
  · rw [kernel_zero, List.mem_singleton] at hi
    rw [(Prod.mk.inj hi).1]
  · exact (State.mem_begun.mp hi).1

/-- Where a state goes is one of its successors. -/
theorem mem_successors (h : goto n symbol = some m) : (symbol, m) ∈ (state n).successors := by
  obtain ⟨⟨s, m'⟩, hfind, rfl⟩ := Option.map_eq_some_iff.mp h
  have hs := List.find?_some hfind
  obtain rfl : s = symbol := of_decide_eq_true hs
  exact List.mem_of_find?_eq_some hfind

/-- What the automaton does, by where the token leads and what is finished. -/
def prefer (target : Option Nat) (rule : Option Rule) : Option Action :=
  match target with
  | some target => some (.shift target)
  | none => rule.map .reduce

theorem action_eq (n : Nat) (a : Lookahead) :
    action n a = prefer (a.bind fun kind => goto n (.token kind)) (reduction? n a) := rfl

/-- A token that can be shifted is shifted, whatever could be reduced. -/
theorem prefer_eq_shift_iff {target : Option Nat} {rule : Option Rule} :
    prefer target rule = some (.shift m) ↔ target = some m := by
  cases target with
  | some t => simp [prefer]
  | none => simp [prefer]

/-- A rule is reduced only where nothing can be shifted. -/
theorem prefer_eq_reduce_iff {target : Option Nat} {rule : Option Rule} :
    prefer target rule = some (.reduce r) ↔ target = none ∧ rule = some r := by
  cases target with
  | some t => simp [prefer]
  | none => simp [prefer]

theorem action_eq_shift_iff {kind : TokenKind} :
    action n (some kind) = some (.shift m) ↔ goto n (.token kind) = some m := by
  rw [action_eq, prefer_eq_shift_iff, Option.bind_some]

/-- A reduction is taken on one of its lookaheads. -/
theorem mem_reductions (h : action n a = some (.reduce r)) :
    ∃ l, (r, l) ∈ (state n).reductions ∧ mem a l := by
  rw [action_eq, prefer_eq_reduce_iff] at h
  obtain ⟨⟨r', l⟩, hfind, rfl⟩ := Option.map_eq_some_iff.mp h.2
  have hmem := List.find?_some hfind
  exact ⟨l, List.mem_of_find?_eq_some hfind, hmem⟩

/-- **The rules of a phrase at a dot are begun** before all that may follow the phrase. -/
theorem closed_at (hn : n < states.size) (hi : (i, l) ∈ (state n).items)
    (hrest : i.rest = .phrase p :: beyond) (ha : mem a (firstOf firsts l beyond)) (hr : r.phrase = p) :
    ∃ l', (⟨r, 0⟩, l') ∈ (state n).items ∧ mem a l' :=
  State.begun_of_closed (fits_iff.mp (fits_of_lt hn)).1.1.1.1.1.1 hi hrest ha hr

/-- **An item goes on behind its next symbol**, with its lookaheads. -/
theorem passes_at (hn : n < states.size) (hi : (i, l) ∈ (state n).items)
    (hrest : i.rest = symbol :: beyond) : ∃ m l', goto n symbol = some m ∧
      (⟨i.rule, i.done + 1⟩, l') ∈ (state m).items ∧ ∀ a, mem a l → mem a l' :=
  State.goes_on_of_passes (fits_iff.mp (fits_of_lt hn)).1.1.1.1.1.2 hi hrest

/-- **A finished rule is reduced** before each of its lookaheads. -/
theorem decides_at (hn : n < states.size) (hi : (i, l) ∈ (state n).items) (hrest : i.rest = [])
    (ha : mem a l) : action n a = some (.reduce i.rule) :=
  State.action_of_decides (fits_iff.mp (fits_of_lt hn)).1.1.1.1.2 hi hrest ha

/-- The automaton stays within its states. -/
theorem lt_of_goto (hn : n < states.size) (h : goto n symbol = some m) : m < states.size :=
  State.lt_of_comes (fits_iff.mp (fits_of_lt hn)).1.1.1.2 (mem_successors h)

/-- **An item behind a symbol came from before it**, whichever state led there over which symbol. -/
theorem comes_at (hn : n < states.size) (h : goto n symbol = some m) {k : Nat}
    (hi : (⟨r, k + 1⟩, l) ∈ (state m).items) :
    r.symbols[k]? = some symbol ∧ ∃ l', (⟨r, k⟩, l') ∈ (state n).items :=
  State.came_of_comes (fits_iff.mp (fits_of_lt hn)).1.1.1.2 (mem_successors h) hi

/-- Behind a symbol only rules are in progress that have read it. -/
theorem done_at (hn : n < states.size) (h : goto n symbol = some m)
    (hi : (i, l) ∈ (state m).kernel) : i.done ≠ 0 :=
  State.done_of_comes (fits_iff.mp (fits_of_lt hn)).1.1.1.2 (mem_successors h) hi

/-- Every state waits for something. -/
theorem exists_kernel_at (hn : n < states.size) : ∃ i l, (i, l) ∈ (state n).kernel :=
  State.exists_kernel_of_proper (fits_iff.mp (fits_of_lt hn)).2

/-- The whole input is reduced at its end alone. -/
theorem entry_at (hn : n < states.size) (h : action n a = some (.reduce .entry)) : a = none := by
  obtain ⟨l, hr, ha⟩ := mem_reductions h
  exact State.eq_none_of_proper (fits_iff.mp (fits_of_lt hn)).2 hr ha

/-- **A rule that is reduced is finished**, or has no symbols. -/
theorem reduces_at (hn : n < states.size) (h : action n a = some (.reduce r)) :
    r = .emptyBody ∨ ∃ l, (⟨r, r.symbols.length⟩, l) ∈ (state n).items := by
  obtain ⟨l, hr, -⟩ := mem_reductions h
  exact State.finished_of_reduces (fits_iff.mp (fits_of_lt hn)).1.1.2 hr

/-- Before an empty body stands a symbol of some weight. -/
theorem weight_of_emptyBody (hn : n < states.size) (hgoto : goto n symbol = some m)
    (h : action m a = some (.reduce .emptyBody)) : 24 ≤ weight symbol := by
  obtain ⟨l, hr, -⟩ := mem_reductions h
  exact State.weight_of_carries (fits_iff.mp (fits_of_lt hn)).1.2 (mem_successors hgoto) hr

/-- A rule builds something lighter than what it is built from. -/
def lighter (r : Rule) : Bool :=
  match r.symbols.getLast? with
  | none => false
  | some last => decide (weight (.phrase r.phrase) < 22 * (r.symbols.length - 1) + weight last)

/-- Apart from two rules, each of them builds something lighter than what it is built from. -/
theorem rules_lighter : (Phrase.all.all fun p => p.rules.all fun r =>
    r == .entry || r == .emptyBody || lighter r) = true := by
  decide +kernel

/-- A rule that is no empty body builds something lighter than what it is built from. -/
theorem weight_lt (r : Rule) (hr : r ≠ .entry) (hb : r ≠ .emptyBody) :
    ∃ symbols last, r.symbols = symbols ++ [last] ∧
      weight (.phrase r.phrase) < 22 * symbols.length + weight last := by
  -- The two rules left out have no symbol that could carry the weight.
  have htest := Phrase.forall_rule rules_lighter r
  rw [beq_eq_false_iff_ne.mpr hr, beq_eq_false_iff_ne.mpr hb, Bool.false_or, Bool.false_or,
    lighter] at htest
  split at htest
  · cases htest
  · next last hlast =>
    obtain ⟨symbols, heq⟩ := List.getLast?_eq_some_iff.mp hlast
    refine ⟨symbols, last, heq, ?_⟩
    have hlt := of_decide_eq_true htest
    rwa [heq, List.length_append, List.length_singleton, Nat.add_sub_cancel] at hlt

end Automaton

end Rubylet
