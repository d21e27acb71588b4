import Rubylet.Proofs.Grammar.Parsing

/-!
# Whatever the parser has read can be completed

A parser stack has always a future: some tokens after it are parsed to the end
(`Path.exists_completes`). This holds of every stack that is a path of the automaton, also of one
that reductions before a wrong token have led to.

The rules in progress on the stack say what to add. An item of the state on top has read its first
symbols, which lie on top of the stack; trees for its other symbols can be found, for every symbol
has one (`derives_sample`). Once the rule is finished, the parser goes on from below, where the rule
was begun; what has to come there is found in the same way. `Awaits stack r k ts` says that `ts` is
it. It is passed on from state to state with the item (`Awaits.advance`), and from an item to the
rules that are begun at its dot (`Awaits.begin`); that every item of a state is one of these is the
soundness of `close` (`opened_of_close`).
-/

namespace Rubylet

open Rubylet.Tree

namespace Automaton

/-! ### Every symbol has a tree -/

/-- A tree for a symbol. The first rule of a phrase never leads back to the phrase. -/
def sample : (height : Nat) → Symbol → Tree
  | _, .token kind => .leaf ⟨kind, "", .start⟩
  | 0, .phrase _ => .leaf default
  | height + 1, .phrase p =>
    .node (p.rules.headD .entry) ((p.rules.headD .entry).symbols.map (sample height))

theorem samples_follow : (Phrase.all.all fun p =>
    follows (.phrase p) (sample Phrase.all.length (.phrase p))) = true := by
  decide +kernel

/-- Every symbol derives some tree. -/
theorem derives_sample (s : Symbol) : Derives s (sample Phrase.all.length s) := by
  cases s with
  | token kind => exact .leaf ⟨kind, "", .start⟩
  | phrase p =>
    exact derives_of_follows _ (List.all_eq_true.mp samples_follow p (Phrase.mem_all p))

theorem exists_derivesAll : ∀ symbols : List Symbol, ∃ ts, DerivesAll symbols ts
  | [] => ⟨[], .nil⟩
  | s :: symbols => by
    obtain ⟨ts, hts⟩ := exists_derivesAll symbols
    exact ⟨_, .cons (derives_sample s) hts⟩

/-! ### What begins at a dot -/

/-- A phrase may begin at a dot of a state, or a phrase that it begins does. -/
inductive Opened (kernel : ItemSet) : Phrase → Prop
  | dot {i : Item} {l : LookaheadSet} {p : Phrase} {beyond : List Symbol} : (i, l) ∈ kernel →
      i.rest = .phrase p :: beyond → Opened kernel p
  | first {r : Rule} {p : Phrase} {beyond : List Symbol} : Opened kernel r.phrase →
      r.symbols = .phrase p :: beyond → Opened kernel p

variable {kernel : ItemSet} {f : Firsts} {p : Phrase} {l : LookaheadSet}

theorem getElem?_all (p : Phrase) : Phrase.all[p.ctorIdx]? = some p := by cases p <;> rfl

theorem mem_opened {symbols : List Symbol} {follow : LookaheadSet}
    (h : (p, l) ∈ opened f symbols follow) : ∃ beyond, symbols = .phrase p :: beyond := by
  unfold opened at h
  split at h
  · next q beyond =>
    obtain ⟨rfl, -⟩ := Prod.mk.inj (List.mem_singleton.mp h)
    exact ⟨beyond, rfl⟩
  · cases h

/-- **Only phrases that may begin are opened.** -/
theorem opened_of_close : ∀ (steps : Nat) (work : List (Phrase × LookaheadSet)) (known : Openings),
    (∀ p l, (p, l) ∈ work → Opened kernel p) →
    (∀ p : Phrase, known.getD p.ctorIdx 0 ≠ 0 → Opened kernel p) →
    ∀ p : Phrase, (close f steps work known).getD p.ctorIdx 0 ≠ 0 → Opened kernel p := by
  intro steps
  induction steps with
  | zero => exact fun _ _ _ hknown => hknown
  | succ steps ih =>
    intro work known hwork hknown
    cases work with
    | nil => exact hknown
    | cons item work =>
      obtain ⟨p, l⟩ := item
      have hrest : ∀ p l, (p, l) ∈ work → Opened kernel p := fun p l h => hwork p l (.tail _ h)
      rw [close]
      split
      · exact ih work known hrest hknown
      · refine ih _ _ (fun q m hq => ?_) fun q hq => ?_
        · rcases List.mem_append.mp hq with hq | hq
          · obtain ⟨r, hr, hq⟩ := List.mem_flatMap.mp hq
            obtain ⟨beyond, hsymbols⟩ := mem_opened hq
            obtain rfl := Phrase.phrase_of_mem_rules hr
            exact .first (hwork _ l (.head _)) hsymbols
          · exact hrest q m hq
        -- Only what is known of `p` has changed, and a phrase is known by its index.
        · by_cases heq : p.ctorIdx = q.ctorIdx
          · have hall := getElem?_all p
            rw [heq, getElem?_all q] at hall
            obtain rfl := Option.some.inj hall
            exact hwork _ l (.head _)
          · refine hknown q ?_
            rwa [List.getD_eq_getElem?_getD, List.getElem?_set_ne heq,
              ← List.getD_eq_getElem?_getD] at hq

/-- What begins in a state begins at one of its dots. -/
theorem opened_of_mem_begun {i : Item} (h : (i, l) ∈ begun firsts kernel) :
    i.done = 0 ∧ Opened kernel i.rule.phrase := by
  obtain ⟨hdone, hne, rfl⟩ := State.mem_begun.mp h
  refine ⟨hdone, opened_of_close closeSteps _ _ (fun p l hp => ?_) (fun p hp => ?_) _ hne⟩
  · obtain ⟨⟨j, m⟩, hj, hp⟩ := List.mem_flatMap.mp hp
    obtain ⟨beyond, hrest⟩ := mem_opened hp
    exact .dot hj hrest
  · exact absurd (by cases p <;> rfl) hp

end Automaton

namespace Parse

open Automaton LookaheadSet

attribute [local irreducible] states

variable {stack : Stack} {ts : List Token} {r : Rule} {k m : Nat} {t : Tree}

/-! ### What completes a stack -/

/-- From the stack, the tokens are parsed to the end. -/
def Completes (stack : Stack) (ts : List Token) : Prop :=
  ∃ t, ∀ last, answer last stack ts = .ok t

/-- A stack that reads on to one that can be completed can be completed. -/
theorem Steps.completes {stack' : Stack} {ts' : List Token} (h : Steps stack ts stack' ts')
    (hpath : Path stack) (hcompletes : Completes stack' ts') : Completes stack ts := by
  obtain ⟨t, ht⟩ := hcompletes
  exact ⟨t, fun last => (h.answer_eq hpath).trans (ht last)⟩

/-- The tokens complete a stack on which a phrase stands above `below`; nothing has to stand below a
program. -/
def Follows (below : Stack) (p : Phrase) (ts : List Token) : Prop :=
  p = .entry ∧ below = [] ∧ ts = [] ∨
    p ≠ .entry ∧ ∃ m, goto (top below) (.phrase p) = some m ∧
      ∀ t, Derives (.phrase p) t → Completes (⟨m, t⟩ :: below) ts

/-- The first symbols of a rule lie on top of the stack, and the tokens complete the stack once the
rule is finished, before a lookahead that its item has. -/
structure Awaits (stack : Stack) (r : Rule) (k : Nat) (ts : List Token) : Prop where
  item : ∃ l, (⟨r, k⟩, l) ∈ (state (top stack)).items ∧ mem (lookahead ts) l
  read : ∃ fs below, stack = fs ++ below ∧ fs.length = k ∧
    DerivesAll (r.symbols.take k) (trees fs) ∧ Path below ∧ Follows below r.phrase ts

/-- The item of the whole input awaits the end. -/
theorem Awaits.entry : Awaits [] .entry 0 [] :=
  ⟨⟨_, entry_mem_items, mem_singleton none⟩, [], [], rfl, rfl, .nil, .nil, .inl ⟨rfl, rfl, rfl⟩⟩

/-- **What is awaited before a symbol is awaited behind it.** -/
theorem Awaits.advance {s : Symbol} (h : Awaits stack r k ts) (hpath : Path stack)
    (hs : r.symbols[k]? = some s) (ht : Derives s t) (hm : goto (top stack) s = some m) :
    Awaits (⟨m, t⟩ :: stack) r (k + 1) ts := by
  obtain ⟨⟨l, hi, hl⟩, fs, below, rfl, rfl, hall, hbelow, hfollows⟩ := h
  have hrest : (⟨r, fs.length⟩ : Item).rest = s :: r.symbols.drop (fs.length + 1) := by
    obtain ⟨hlt, hget⟩ := List.getElem?_eq_some_iff.mp hs
    rw [Item.rest, List.drop_eq_getElem_cons hlt, hget]
  -- The state moves its item along with the symbol, and the lookahead with it.
  obtain ⟨m', l', hm', hi', hl'⟩ := passes_at hpath.top_lt hi hrest
  obtain rfl := Option.some.inj (hm.symm.trans hm')
  refine ⟨⟨l', hi', hl' _ hl⟩, ⟨m, t⟩ :: fs, below, rfl, rfl, ?_, hbelow, hfollows⟩
  rw [List.take_add_one, hs, trees_cons]
  exact hall.append (.cons ht .nil)

theorem entry_of_phrase (h : r.phrase = .entry) : r = .entry := by
  cases r <;> first | rfl | cases h

/-- The input is at its end once the automaton reduces the whole of it. -/
theorem completes_nil {frame : Frame} (h : action frame.state none = some (.reduce .entry)) :
    Completes [frame] [] := by
  refine ⟨frame.tree, fun last => ?_⟩
  rw [answer_nil, finish, settle_accept h]
  rfl

/-- **Trees for the other symbols of a rule, and what is awaited, complete a stack.** -/
theorem Awaits.completes {us : List Tree} (h : Awaits stack r k ts) (hpath : Path stack)
    (hus : DerivesAll (r.symbols.drop k) us) : Completes stack (allTokens us ++ ts) := by
  obtain ⟨⟨l, hi, hl⟩, fs, below, rfl, rfl, hall, hbelow, hfollows⟩ := h
  -- The trees are shifted one by one, which brings the item to its end.
  obtain ⟨gs, k', l', rfl, hlt, hsteps, hi', hrest, hl'⟩ :=
    steps_of_derivesAll hus hpath.top_lt hi rfl hl
  have haction := decides_at hlt hi' hrest hl'
  have hwhole : DerivesAll r.symbols (trees (gs ++ fs)) := by
    rw [trees_append, ← List.take_append_drop fs.length r.symbols]
    exact hall.append hus
  have hlength : (gs ++ fs).length = r.symbols.length := by
    rw [← hwhole.map_symbol, List.length_map, trees, List.length_map, List.length_reverse]
  rw [← List.append_assoc] at hsteps haction
  -- A finished entry rule accepts. Any other rule is reduced, and the parser goes on from below
  -- with what the phrase was awaited with.
  rcases hfollows with ⟨hentry, rfl, rfl⟩ | ⟨hentry, m, hm, hcompletes⟩
  · obtain rfl := entry_of_phrase hentry
    obtain ⟨frame, heq⟩ := List.length_eq_one_iff.mp hlength
    simp only [List.append_nil, heq] at hpath hsteps haction ⊢
    exact hsteps.completes hpath (completes_nil haction)
  · have hr : r ≠ .entry := fun h => hentry (h ▸ rfl)
    have hreduce : Parse.reduce r (gs ++ fs ++ below) =
        some (⟨m, .node r (trees (gs ++ fs))⟩ :: below) := by
      rw [reduce_append _ hlength, hm]
      rfl
    have hreduced := Steps.reduce haction hr hreduce (.refl _ _)
    exact (hsteps.trans hreduced).completes hpath (hcompletes _ (.node r _ hwhole))

/-- **What is awaited before a phrase tells what its rules await.** -/
theorem Awaits.begin {p : Phrase} {beyond : List Symbol} (h : Awaits stack r k ts)
    (hpath : Path stack) (hrest : r.symbols.drop k = .phrase p :: beyond) :
    ∃ ts', ∀ r' : Rule, r'.phrase = p → Awaits stack r' 0 ts' := by
  obtain ⟨us, hus⟩ := exists_derivesAll beyond
  have hawaits := h
  obtain ⟨⟨l, hi, hl⟩, -⟩ := h
  have hp : p ≠ .entry := by
    rintro rfl
    refine entry_notMem r (List.mem_of_mem_drop (i := k) ?_)
    rw [hrest]
    exact .head _
  have hk : r.symbols[k]? = some (.phrase p) := by
    rw [← List.head?_drop, hrest]
    rfl
  have hbeyond : r.symbols.drop (k + 1) = beyond := by
    rw [← List.drop_drop, hrest]
    rfl
  have hlookahead := (begins_of_derivesAll hus).lookahead hl
  obtain ⟨m, -, hm, -, -⟩ := passes_at hpath.top_lt hi hrest
  -- After the phrase come trees for the symbols beyond it, and then what was awaited before.
  refine ⟨allTokens us ++ ts, fun r' hr' => ?_⟩
  obtain ⟨l', hi', hl'⟩ := closed_at hpath.top_lt hi hrest hlookahead hr'
  refine ⟨⟨l', hi', hl'⟩, [], stack, rfl, rfl, .nil, hpath, .inr ⟨hr' ▸ hp, m, hr' ▸ hm, ?_⟩⟩
  intro t ht
  rw [hr'] at ht
  have hadvanced := hawaits.advance hpath hk ht hm
  have hgoto : goto (top stack) t.symbol = some m := by rw [ht.symbol_eq, hm]
  refine hadvanced.completes (.cons hpath (ht.symbol_eq ▸ ht) hgoto) ?_
  rwa [hbeyond]

/-- What begins at a dot begins, in one or more steps, at the dot of an item that something has come
before. -/
theorem Path.exists_awaits_of_kernel (hpath : Path stack)
    (hkernel : ∀ r k l, (⟨r, k⟩, l) ∈ (state (top stack)).kernel → ∃ ts, Awaits stack r k ts)
    (r : Rule) (k : Nat) (l : LookaheadSet) (hi : (⟨r, k⟩, l) ∈ (state (top stack)).items) :
    ∃ ts, Awaits stack r k ts := by
  -- By induction on how the phrase is opened, not on the items, of which there may be a cycle.
  have hopened : ∀ p, Opened (state (top stack)).kernel p →
      ∃ ts, ∀ r : Rule, r.phrase = p → Awaits stack r 0 ts := by
    intro p hp
    induction hp with
    | dot hi hrest =>
      obtain ⟨ts, hts⟩ := hkernel _ _ _ hi
      exact hts.begin hpath hrest
    | @first r p beyond _ hsymbols ih =>
      obtain ⟨ts, hts⟩ := ih
      exact (hts r rfl).begin hpath hsymbols
  rcases List.mem_append.mp hi with hi | hi
  · exact hkernel r k l hi
  · obtain ⟨rfl, hp⟩ := opened_of_mem_begun hi
    obtain ⟨ts, hts⟩ := hopened _ hp
    exact ⟨ts, hts r rfl⟩

/-- **Every item on the top of a stack awaits something.** By induction on the stack: an item that has
read a symbol comes from the state below. -/
theorem Path.exists_awaits (h : Path stack) : ∀ (r : Rule) (k : Nat) (l : LookaheadSet),
    (⟨r, k⟩, l) ∈ (state (top stack)).items → ∃ ts, Awaits stack r k ts := by
  -- On the stack: an item of a kernel has been moved over the frame on top.
  induction h with
  | nil =>
    refine Path.nil.exists_awaits_of_kernel fun r k l hi => ?_
    rw [top, kernel_zero, List.mem_singleton] at hi
    obtain ⟨rfl, rfl⟩ := Item.mk.inj (Prod.mk.inj hi).1
    exact ⟨[], .entry⟩
  | @cons stack t n hpath ht hgoto ih =>
    refine (Path.cons hpath ht hgoto).exists_awaits_of_kernel fun r k l hi => ?_
    -- So its dot is past a symbol, and the frame below awaited that one.
    obtain ⟨k, rfl⟩ := Nat.exists_eq_succ_of_ne_zero (done_at hpath.top_lt hgoto hi)
    obtain ⟨hsymbol, l', hi'⟩ := comes_at hpath.top_lt hgoto (List.mem_append_left _ hi)
    obtain ⟨ts, hts⟩ := ih r k l' hi'
    exact ⟨ts, hts.advance hpath hsymbol ht hgoto⟩

/-- **Every stack can be completed.** -/
theorem Path.exists_completes (h : Path stack) : ∃ ts, Completes stack ts := by
  obtain ⟨⟨r, k⟩, l, hi⟩ := exists_kernel_at h.top_lt
  obtain ⟨ts, hts⟩ := h.exists_awaits r k l (List.mem_append_left _ hi)
  obtain ⟨us, hus⟩ := exists_derivesAll (r.symbols.drop k)
  exact ⟨_, hts.completes h hus⟩

end Parse

end Rubylet
