import Mathlib.Data.List.Induction
import Rubylet.Proofs.Syntax.Breaks

/-!
# Where newlines end statements

The pass that marks the ends of statements goes through a program once and carries a state along: it
counts parentheses, and remembers whether a statement could end at the token before. A newline that
is dropped leaves the state as it is, one that becomes a terminator does not, and a closing
parenthesis too many does not count.

Told without a state, what becomes of a token is determined by the tokens before it (`piece`). A
semicolon becomes a terminator. A newline becomes one if no parentheses are open before it and the
token right before it can be the last one of a statement, and is dropped otherwise. All other tokens
stay. `Knows before s` is what the state has to do with the tokens before: it holds at the beginning
(`knows_initial`), each token keeps it (`Knows.next`), and what the pass makes of a token in a state
that it holds of is the token's piece (`Knows.emit`).

* `Inside before`: among these tokens there is an opening parenthesis that none of those after it
  closes. The count says so (`inside_iff`).
* `insert_exact`: the pass does this to every token and nothing else, and so does not see more
  newlines where a newline ends no statement.
-/

namespace Rubylet.Terminator

variable {s : State} {t : Token} {ts before news after : List Token}

/-! ### Open parentheses -/

/-- The number of open parentheses after a token; a closing one too many does not count. -/
def depthStep (depth : Nat) (t : Token) : Nat :=
  match t.kind with
  | .lpar => depth + 1
  | .rpar => depth - 1
  | _ => depth

/-- The number of open parentheses after some tokens. -/
def depthAfter (before : List Token) : Nat := before.foldl depthStep 0

theorem depthAfter_snoc (before : List Token) (t : Token) :
    depthAfter (before ++ [t]) = depthStep (depthAfter before) t := List.foldl_append

/-- The number of tokens of a kind. -/
def number (kind : TokenKind) (ts : List Token) : Nat := ts.countP (·.kind = kind)

theorem number_snoc (kind : TokenKind) (ts : List Token) (t : Token) :
    number kind (ts ++ [t]) = number kind ts + if t.kind = kind then 1 else 0 := by
  simp [number, List.countP_append, List.countP_singleton]

/-- Wherever one stops among the tokens, no more parentheses have been closed than opened. -/
def Upheld (ts : List Token) : Prop :=
  ∀ first, first <+: ts → number .rpar first ≤ number .lpar first

/-- Is there an opening parenthesis that none of the tokens after it closes? -/
def Inside (before : List Token) : Prop :=
  ∃ outer paren inner, before = outer ++ paren :: inner ∧ paren.kind = .lpar ∧ Upheld inner

theorem upheld_nil : Upheld [] := by
  intro first h
  rw [List.prefix_nil.mp h]
  exact le_rfl

theorem Upheld.of_snoc (h : Upheld (ts ++ [t])) : Upheld ts :=
  fun first hfirst => h first (hfirst.trans (List.prefix_append ts [t]))

/-- One more token keeps the count of parentheses, unless it closes one too many. -/
theorem Upheld.snoc (h : Upheld ts) (ht : number .rpar (ts ++ [t]) ≤ number .lpar (ts ++ [t])) :
    Upheld (ts ++ [t]) := by
  intro first hfirst
  rcases List.prefix_concat_iff.mp hfirst with rfl | hfirst
  · exact ht
  · exact h first hfirst

/-- Where parentheses are upheld, the count never stops at nothing. -/
theorem Upheld.foldl_depthStep (h : Upheld ts) (depth : Nat) :
    ts.foldl depthStep depth + number .rpar ts = depth + number .lpar ts := by
  induction ts using List.reverseRecOn with
  | nil => rfl
  | append_singleton ts t ih =>
    have hbefore := ih h.of_snoc
    have hcounted := h (ts ++ [t]) (List.prefix_refl _)
    rw [number_snoc, number_snoc] at hcounted
    rw [List.foldl_append, number_snoc, number_snoc, List.foldl_cons, List.foldl_nil, depthStep]
    -- Subtraction would stop at nothing only at a closing parenthesis that `hcounted` excludes.
    cases hkind : t.kind <;> simp only [hkind, reduceCtorEq, if_true, if_false] at hcounted ⊢ <;>
      omega

/-- Where more parentheses are open than some number, one of them was opened when there were just as
many as that. -/
theorem exists_paren_of_lt {depth : Nat} (h : depth < depthAfter before) :
    ∃ outer paren inner, before = outer ++ paren :: inner ∧ paren.kind = .lpar ∧
      depthAfter outer = depth ∧ Upheld inner := by
  induction before using List.reverseRecOn with
  | nil => exact absurd h (Nat.not_lt_zero _)
  | append_singleton before t ih =>
    rw [depthAfter_snoc] at h
    by_cases hdeep : depth < depthAfter before
    · -- The parenthesis was open before the token, and still is.
      obtain ⟨outer, paren, inner, rfl, hparen, houter, hinner⟩ := ih hdeep
      refine ⟨outer, paren, inner ++ [t], by simp, hparen, houter, hinner.snoc ?_⟩
      have hcount : depthAfter (outer ++ paren :: inner) + number .rpar inner =
          depth + 1 + number .lpar inner := by
        rw [← hinner.foldl_depthStep (depth + 1), depthAfter, List.foldl_append, List.foldl_cons,
          ← depthAfter, houter, depthStep, hparen]
      rw [number_snoc, number_snoc]
      rw [depthStep] at h
      cases hkind : t.kind <;> simp only [hkind, reduceCtorEq, if_true, if_false] at h ⊢ <;> omega
    · -- The token opens it.
      have hkind : t.kind = .lpar ∧ depthAfter before = depth := by
        rw [depthStep] at h
        cases hkind : t.kind <;> simp only [hkind] at h <;>
          first | exact ⟨rfl, by omega⟩ | exact absurd h (by omega)
      exact ⟨before, t, [], rfl, hkind.1, hkind.2, upheld_nil⟩

/-- **The count is not zero exactly inside parentheses.** -/
theorem inside_iff : Inside before ↔ depthAfter before ≠ 0 := by
  constructor
  · rintro ⟨outer, paren, inner, rfl, hparen, hinner⟩
    -- Inside, the parentheses that close never outnumber those that open.
    have hcount := hinner.foldl_depthStep (depthAfter outer + 1)
    have hupheld := hinner inner (List.prefix_refl _)
    have hafter : depthAfter (outer ++ paren :: inner) =
        inner.foldl depthStep (depthAfter outer + 1) := by
      rw [depthAfter, List.foldl_append, List.foldl_cons, ← depthAfter]
      simp only [depthStep, hparen]
    omega
  · intro h
    obtain ⟨outer, paren, inner, hbefore, hparen, -, hinner⟩ :=
      exists_paren_of_lt (Nat.pos_of_ne_zero h)
    exact ⟨outer, paren, inner, hbefore, hparen, hinner⟩

/-! ### One token -/

/-- What the pass makes of a token. -/
def emit (s : State) (t : Token) : List Token :=
  match t.kind with
  | .newline => if s.depth = 0 && s.ready then [terminate t] else []
  | .semi => [terminate t]
  | _ => [t]

/-- The state after a token. -/
def State.next (s : State) (t : Token) : State :=
  match t.kind with
  | .newline => if s.depth = 0 && s.ready then s.closed else s
  | .semi => s.closed
  | kind => s.after kind

/-- Insertion emits for each token, and goes on from the next state. -/
theorem insertFrom_cons (s : State) (t : Token) (ts : List Token) :
    insertFrom s (t :: ts) = emit s t ++ insertFrom (s.next t) ts := by
  rw [insertFrom, emit, State.next]
  cases t.kind
  case newline => dsimp only; split <;> rfl
  all_goals rfl

/-- What follows is inserted from the state that the tokens before have left. -/
theorem insertFrom_append (s : State) (before after : List Token) :
    insertFrom s (before ++ after) =
      insertFrom s before ++ insertFrom (before.foldl State.next s) after := by
  induction before generalizing s with
  | nil => rfl
  | cons t before ih =>
    rw [List.cons_append, insertFrom_cons, ih, insertFrom_cons, List.foldl_cons, List.append_assoc]

/-- Does a statement end at a newline after these tokens? -/
def Ends (before : List Token) : Prop :=
  depthAfter before = 0 ∧ ∃ t, before.getLast? = some t ∧ canEnd t.kind = true

instance (before : List Token) : Decidable (Ends before) :=
  inferInstanceAs (Decidable (_ ∧ ∃ t, before.getLast? = some t ∧ _))

/-- What becomes of a token after some others. -/
def piece (before : List Token) (t : Token) : List Token :=
  match t.kind with
  | .newline => if Ends before then [terminate t] else []
  | .semi => [terminate t]
  | _ => [t]

/-- The pass knows how many parentheses are open and, outside parentheses, whether the token before
can be the last one of a statement. -/
structure Knows (before : List Token) (s : State) : Prop where
  depth : s.depth = depthAfter before
  ready : s.depth = 0 → (s.ready = true ↔ ∃ t, before.getLast? = some t ∧ canEnd t.kind = true)

theorem knows_initial : Knows [] .initial where
  depth := rfl
  ready _ := by simp [State.initial]

/-- The state tells whether a statement can end. -/
theorem Knows.ends (h : Knows before s) : (s.depth = 0 && s.ready) = true ↔ Ends before := by
  rw [Bool.and_eq_true, decide_eq_true_iff, Ends, ← h.depth]
  exact and_congr_right h.ready

/-- What is emitted for a token depends on the tokens before it as the law says. -/
theorem Knows.emit (h : Knows before s) (t : Token) : emit s t = piece before t := by
  rw [Terminator.emit, piece]
  cases t.kind
  case newline => simp only [h.ends]
  all_goals rfl

/-- The state after a token knows the tokens up to it. -/
theorem Knows.next (h : Knows before s) (t : Token) : Knows (before ++ [t]) (s.next t) := by
  rcases kind_cases t with ht | ht | ht
  · -- A newline leaves nothing that a statement could end at, whether it is dropped or not.
    have hunready : canEnd t.kind = false := by rw [ht]; rfl
    have hdepth : depthAfter (before ++ [t]) = s.depth := by
      rw [depthAfter_snoc, h.depth]
      simp only [depthStep, ht]
    have hnext : s.next t = if s.depth = 0 && s.ready then s.closed else s := by rw [State.next, ht]
    rw [hnext]
    split
    · exact ⟨hdepth.symm, fun _ => by simp [State.closed, hunready]⟩
    · next hstays =>
      refine ⟨hdepth.symm, fun hzero => ?_⟩
      simp only [hzero, decide_true, Bool.true_and, Bool.not_eq_true] at hstays
      simp [hstays, hunready]
  -- A semicolon ends the statement whatever came before it.
  · have hunready : canEnd t.kind = false := by rw [ht]; rfl
    have hnext : s.next t = s.closed := by rw [State.next, ht]
    rw [hnext]
    refine ⟨?_, fun _ => by simp [State.closed, hunready]⟩
    rw [depthAfter_snoc, ← h.depth]
    simp only [depthStep, ht, State.closed]
  -- Any other token decides by its kind whether a statement can end behind it.
  · have hnext : s.next t = s.after t.kind := by
      rw [State.next]
      split
      · next hkind => exact absurd hkind ht.1
      · next hkind => exact absurd hkind ht.2
      · rfl
    rw [hnext]
    refine ⟨?_, fun _ => by simp [State.after]⟩
    rw [depthAfter_snoc, ← h.depth]
    rfl

/-! ### All tokens -/

/-- The state that the pass is in after some tokens. -/
def stateAfter (before : List Token) : State := before.foldl State.next .initial

theorem stateAfter_snoc (before : List Token) (t : Token) :
    stateAfter (before ++ [t]) = (stateAfter before).next t := List.foldl_append

/-- The state after some tokens knows them. -/
theorem knows_stateAfter (before : List Token) : Knows before (stateAfter before) := by
  induction before using List.reverseRecOn with
  | nil => exact knows_initial
  | append_singleton before t ih =>
    rw [stateAfter_snoc]
    exact ih.next t

theorem insert_append (before after : List Token) :
    insert (before ++ after) = insert before ++ insertFrom (stateAfter before) after :=
  insertFrom_append ..

/-- One more token adds its own piece at the end. -/
theorem insert_snoc (before : List Token) (t : Token) :
    insert (before ++ [t]) = insert before ++ piece before t := by
  rw [insert_append, insertFrom_cons, (knows_stateAfter before).emit, insertFrom, List.append_nil]

/-- The pieces of all tokens, each after those before it. -/
def pieces (ts : List Token) : List (List Token) :=
  ts.zipIdx.map fun (t, n) => piece (ts.take n) t

theorem pieces_snoc (ts : List Token) (t : Token) :
    pieces (ts ++ [t]) = pieces ts ++ [piece ts t] := by
  have hbefore : ∀ p ∈ ts.zipIdx, piece ((ts ++ [t]).take p.2) p.1 = piece (ts.take p.2) p.1 := by
    intro p hp
    rw [List.take_append_of_le_length (List.snd_lt_of_mem_zipIdx hp).le]
  rw [pieces, List.zipIdx_append, List.map_append, List.map_congr_left hbefore]
  simp [pieces]

/-- **The pass makes of each token its piece.** -/
theorem insert_eq_pieces (ts : List Token) : insert ts = (pieces ts).flatten := by
  induction ts using List.reverseRecOn with
  | nil => rfl
  | append_singleton ts t ih => rw [insert_snoc, pieces_snoc, List.flatten_concat, ih]

/-- What stays of a token once the terminators are gone is the token, if it is none of those that
become one. -/
theorem filter_piece (before : List Token) (h : t.kind ≠ .terminator) :
    (piece before t).filter (·.kind ≠ .terminator) =
      [t].filter fun t => t.kind ≠ .newline ∧ t.kind ≠ .semi := by
  have hgone : [terminate t].filter (·.kind ≠ .terminator) = [] := rfl
  -- The two kinds that are filtered away are the ones that make terminators.
  rcases kind_cases t with ht | ht | ht
  · simp only [piece, ht]
    split
    · rw [hgone]; simp [ht]
    · simp [ht]
  · simp only [piece, ht, hgone]
    simp [ht]
  · have hpiece : piece before t = [t] := by
      rw [piece]
      split
      · next hkind => exact absurd hkind ht.1
      · next hkind => exact absurd hkind ht.2
      · rfl
    rw [hpiece]
    simp [h, ht.1, ht.2]

/-- Nothing but newlines and semicolons changes. -/
theorem filter_insert (h : ∀ t ∈ ts, t.kind ≠ .terminator) :
    (insert ts).filter (·.kind ≠ .terminator) =
      ts.filter fun t => t.kind ≠ .newline ∧ t.kind ≠ .semi := by
  induction ts using List.reverseRecOn with
  | nil => rfl
  | append_singleton ts t ih =>
    rw [insert_snoc, List.filter_append, List.filter_append,
      ih fun u hu => h u (List.mem_append_left _ hu), filter_piece ts (h t (by simp))]

/-- Newlines where no statement ends are not seen. -/
theorem insertFrom_newlines (h : (s.depth = 0 && s.ready) = false)
    (hnews : ∀ t ∈ news, t.kind = .newline) (after : List Token) :
    insertFrom s (news ++ after) = insertFrom s after := by
  induction news with
  | nil => rfl
  | cons t news ih =>
    rw [List.cons_append, insertFrom_newline (hnews t (.head _)), h, if_neg Bool.false_ne_true]
    exact ih fun u hu => hnews u (.tail _ hu)

/-- Does a newline after these tokens make no difference? -/
def Idle (before : List Token) : Prop :=
  before = [] ∨
  (∃ first t, before = first ++ [t] ∧
    (t.kind = .newline ∨ t.kind = .semi ∨ canEnd t.kind = false)) ∨
  Inside before

/-- Where no statement can end a newline is idle. -/
theorem Idle.not_ends (h : Idle before) : ¬ Ends before := by
  rintro ⟨hdepth, t, hlast, hready⟩
  rcases h with rfl | ⟨first, u, rfl, hu⟩ | hinside
  · cases hlast
  · obtain rfl : u = t := by simpa using hlast
    rcases hu with hu | hu | hu
    · rw [hu] at hready; cases hready
    · rw [hu] at hready; cases hready
    · rw [hu] at hready; cases hready
  · exact inside_iff.mp hinside hdepth

/-- **What the pass makes of a program's tokens.** With its terminators taken out, it is the tokens
without newlines and semicolons. Each token is replaced in place: a semicolon by a terminator, a
newline by a terminator if it stands outside parentheses right after a token that can be the last
one of a statement, and by nothing otherwise. So newlines at the beginning, after a newline, a
semicolon or a token that ends no statement, or inside parentheses, make no difference. -/
theorem insert_exact (ts : List Token) :
    ((∀ t ∈ ts, t.kind ≠ .terminator) →
      (insert ts).filter (·.kind ≠ .terminator) =
        ts.filter fun t => t.kind ≠ .newline ∧ t.kind ≠ .semi) ∧
      insert ts = (pieces ts).flatten ∧
      ∀ before after news, ts = before ++ after → Idle before →
        (∀ t ∈ news, t.kind = .newline) → insert (before ++ news ++ after) = insert ts := by
  refine ⟨filter_insert, insert_eq_pieces ts, ?_⟩
  rintro before after news rfl hidle hnews
  -- Where a statement cannot end, a newline leaves the state as it is.
  have hquiet : ((stateAfter before).depth = 0 && (stateAfter before).ready) = false := by
    rw [← Bool.not_eq_true, (knows_stateAfter before).ends]
    exact hidle.not_ends
  rw [List.append_assoc, insert_append, insert_append, insertFrom_newlines hquiet hnews]

namespace Sample

/-- A call over several lines, with a newline after it that ends the statement and one that does
not. -/
def spread : List Token :=
  [⟨.name, "f", ⟨1, 1⟩⟩, ⟨.lpar, "(", ⟨1, 2⟩⟩, ⟨.newline, "\n", ⟨1, 3⟩⟩, ⟨.int, "1", ⟨2, 1⟩⟩,
    ⟨.newline, "\n", ⟨2, 2⟩⟩, ⟨.rpar, ")", ⟨3, 1⟩⟩, ⟨.newline, "\n", ⟨3, 2⟩⟩,
    ⟨.newline, "\n", ⟨4, 1⟩⟩, ⟨.name, "x", ⟨5, 1⟩⟩]

/-- One more newline. -/
def blank : Token := ⟨.newline, "\n", ⟨1, 2⟩⟩

end Sample

/-- In the sample only the newline right after the call is left, and one more at the beginning
or inside the parentheses is not seen. -/
theorem insert_exact_spread :
    (∀ t ∈ Sample.spread, t.kind ≠ .terminator) ∧
      ((insert Sample.spread).filter (·.kind ≠ .terminator) =
        Sample.spread.filter fun t => t.kind ≠ .newline ∧ t.kind ≠ .semi) ∧
      insert Sample.spread = (pieces Sample.spread).flatten ∧
      ∀ n ∈ [0, 2, 3, 4],
        insert (Sample.spread.take n ++ [Sample.blank] ++ Sample.spread.drop n) =
          insert Sample.spread := by
  obtain ⟨hfilter, hpieces, hblank⟩ := insert_exact Sample.spread
  have hraw : ∀ t ∈ Sample.spread, t.kind ≠ .terminator := by decide
  -- The places are the start of the source and three inside parentheses.
  have hidle : ∀ n ∈ [0, 2, 3, 4], Idle (Sample.spread.take n) := by
    intro n hn
    by_cases hzero : n = 0
    · exact .inl (by rw [hzero, List.take_zero])
    · refine .inr (.inr (inside_iff.mpr ?_))
      revert hn hzero
      revert n
      decide
  exact ⟨hraw, hfilter hraw, hpieces, fun n hn =>
    hblank _ _ _ (List.take_append_drop n _).symm (hidle n hn) (by simp [Sample.blank])⟩

end Rubylet.Terminator
