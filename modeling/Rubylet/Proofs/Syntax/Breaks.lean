import Rubylet.Proofs.Syntax.Accepted

/-!
# Line breaks and parentheses

The lexer keeps newlines and semicolons apart; the pass before the parser makes terminators of
semicolons, and of some newlines. Inside parentheses it drops all newlines (`insertFrom_inside`).
So what it makes of some tokens inside parentheses is what it makes of them once their newlines have
been taken out (`insertFrom_noNewlines`), or what it makes of them without its line breaks
(`unbroken_insertFrom`).

`Token.Raw` says what tokens are like before the pass, `nested?` how deep in parentheses some tokens
go. What is derived closes the parentheses that it opens (`nested_of_derives`).
-/

namespace Rubylet

/-! ### Tokens before and after the pass -/

/-- Can the token come from the lexer? There are no terminators yet, and newlines are told from
semicolons. -/
def Token.Raw (t : Token) : Prop :=
  t.kind ≠ .terminator ∧ (t.kind = .semi → t.text = ";") ∧ (t.kind = .newline → t.text ≠ ";")

instance (t : Token) : Decidable t.Raw := inferInstanceAs (Decidable (_ ∧ _ ∧ _))

/-- Is the token a newline that ends a statement? -/
def Token.isBreak (t : Token) : Bool := t.kind = .terminator && t.text ≠ ";"

/-- Some tokens without the newlines that end statements. -/
def unbroken (ts : List Token) : List Token := ts.filter fun t => !t.isBreak

theorem unbroken_append (ts us : List Token) : unbroken (ts ++ us) = unbroken ts ++ unbroken us :=
  List.filter_append ..

theorem unbroken_cons_of_isBreak {t : Token} {ts : List Token} (h : t.isBreak) :
    unbroken (t :: ts) = unbroken ts :=
  List.filter_cons_of_neg (by simpa using h)

theorem unbroken_cons_of_not_isBreak {t : Token} {ts : List Token} (h : ¬ t.isBreak) :
    unbroken (t :: ts) = t :: unbroken ts :=
  List.filter_cons_of_pos (by simpa using h)

namespace Lexer

/-- A word is no terminator, no semicolon and no newline. -/
theorem wordKind_raw (word : List Char) : wordKind word ≠ .terminator ∧ wordKind word ≠ .semi ∧
    wordKind word ≠ .newline := by
  unfold wordKind
  split <;> decide

/-- A character that is a token by itself can come from the lexer. -/
theorem punctuation_raw {c : Char} {kind : TokenKind} {pos : Pos} (h : punctuation? c = some kind) :
    (⟨kind, String.ofList [c], pos⟩ : Token).Raw := by
  unfold punctuation? at h
  split at h <;> cases h <;> simp [Token.Raw]

/-- A newline can come from the lexer: its text is no semicolon. -/
theorem newline_raw {cs s : List Char} {pos : Pos} (h : newline? cs = some s) :
    (⟨.newline, String.ofList s, pos⟩ : Token).Raw := by
  unfold newline? at h
  split at h <;> cases h <;> simp [Token.Raw]

/-- What the scanner makes of a lexeme is a raw token. -/
theorem raw_of_lexeme {c : Char} {rest chars : List Char} {kind : TokenKind} (pos : Pos)
    (h : lexeme? c rest = some ⟨some kind, chars⟩) :
    (⟨kind, String.ofList chars, pos⟩ : Token).Raw := by
  -- Words and line ends have to be looked at; every other kind of lexeme has a kind of its own.
  unfold lexeme? at h
  split at h
  · obtain ⟨hkind, -⟩ := Lexeme.mk.inj (Option.some.inj h)
    obtain rfl := Option.some.inj hkind
    obtain ⟨hterminator, hsemi, hnewline⟩ := wordKind_raw (c :: rest.takeWhile isWordChar)
    exact ⟨hterminator, fun h => absurd h hsemi, fun h => absurd h hnewline⟩
  split at h
  · cases h; exact ⟨nofun, nofun, nofun⟩
  split at h
  · cases h; exact ⟨nofun, nofun, nofun⟩
  split at h
  · obtain ⟨s, -, heq⟩ := Option.map_eq_some_iff.mp h
    cases heq; exact ⟨nofun, nofun, nofun⟩
  split at h
  · cases h
  split at h
  · cases h
  split at h
  · obtain ⟨s, -, heq⟩ := Option.map_eq_some_iff.mp h
    cases heq
  split at h
  · obtain ⟨s, hs, heq⟩ := Option.map_eq_some_iff.mp h
    cases heq
    exact newline_raw hs
  · obtain ⟨kind, hkind, heq⟩ := Option.map_eq_some_iff.mp h
    cases heq
    exact punctuation_raw hkind

/-- The lexer makes no terminators, and tells newlines from semicolons. -/
theorem raw_of_mem_tokens {source : String} {t : Token} (h : t ∈ (tokens source).tokens) : t.Raw := by
  obtain ⟨c, rest, chars, hlexeme, htext⟩ := exists_lexeme_of_mem_scan _ h
  have hraw := raw_of_lexeme t.pos hlexeme
  rwa [← htext] at hraw

end Lexer

/-! ### Depths -/

/-- How deep a symbol leads where tokens lead as deep as `f` says. A phrase leads nowhere. -/
def Symbol.depth? (f : TokenKind → Nat → Option Nat) : Symbol → Nat → Option Nat
  | .token kind, depth => f kind depth
  | .phrase _, depth => some depth

namespace Tree

/-- No rule leads anywhere. -/
def Balanced (f : TokenKind → Nat → Option Nat) : Prop :=
  ∀ (r : Rule) (depth : Nat), r.symbols.foldlM (fun depth s => s.depth? f depth) depth = some depth

variable {f : TokenKind → Nat → Option Nat}

mutual

/-- **What is derived leads nowhere** if no rule does. -/
theorem depth_of_derives (hf : Balanced f) {s : Symbol} {t : Tree} (h : Derives s t) (depth : Nat) :
    t.tokens.foldlM (fun depth u => f u.kind depth) depth = s.depth? f depth :=
  match h with
  | .leaf token => by
    rw [Tree.tokens, List.foldlM_cons, Symbol.depth?]
    cases f token.kind depth <;> rfl
  | .node r _ hts => (depth_of_derivesAll hf hts depth).trans (hf r depth)

/-- A list of trees leaves the depth that its symbols leave. -/
theorem depth_of_derivesAll (hf : Balanced f) {ss : List Symbol} {ts : List Tree}
    (h : DerivesAll ss ts) (depth : Nat) :
    (allTokens ts).foldlM (fun depth u => f u.kind depth) depth =
      ss.foldlM (fun depth s => s.depth? f depth) depth :=
  match h with
  | .nil => rfl
  | .cons ht hts => by
    rw [allTokens, List.foldlM_append, depth_of_derives hf ht, List.foldlM_cons]
    exact congrArg _ (funext fun depth => depth_of_derivesAll hf hts depth)

end

end Tree

/-! ### Parentheses -/

/-- How deep in parentheses a token of some kind leads, if it closes none that is not open. -/
def TokenKind.nested? : TokenKind → Nat → Option Nat
  | .lpar, depth => some (depth + 1)
  | .rpar, 0 => none
  | .rpar, depth + 1 => some depth
  | _, depth => some depth

/-- How deep in parentheses some tokens lead, if they close none that is not open. -/
def nested? (ts : List Token) (depth : Nat) : Option Nat :=
  ts.foldlM (fun depth t => t.kind.nested? depth) depth

theorem nested_cons (t : Token) (ts : List Token) (depth : Nat) :
    nested? (t :: ts) depth = (t.kind.nested? depth).bind (nested? ts) :=
  List.foldlM_cons

/-- A phrase leads nowhere. -/
def Symbol.nested? : Symbol → Nat → Option Nat
  | .token kind, depth => kind.nested? depth
  | .phrase _, depth => some depth

theorem Symbol.depth?_nested (s : Symbol) (depth : Nat) :
    s.depth? TokenKind.nested? depth = s.nested? depth := by
  cases s <;> rfl

/-- Every rule closes the parentheses it opens. -/
theorem Rule.nested_symbols (r : Rule) (depth : Nat) :
    r.symbols.foldlM (fun depth s => s.nested? depth) depth = some depth := by
  cases r with
  | body a b c => cases a <;> cases b <;> cases c <;> rfl
  | conditional a b | elsifClause a b => cases a <;> cases b <;> rfl
  | methodDef a | params a | message a | name a | args a => cases a <;> rfl
  | _ => rfl

/-- Whatever a tree spans closes the parentheses it opens. -/
theorem Tree.balanced_nested : Balanced TokenKind.nested? := fun r depth => by
  simpa only [Symbol.depth?_nested] using r.nested_symbols depth

/-- **What is derived closes the parentheses that it opens.** -/
theorem Tree.nested_of_derives {s : Symbol} {t : Tree} (h : Derives s t) (depth : Nat) :
    nested? t.tokens depth = s.nested? depth := by
  rw [← s.depth?_nested]
  exact depth_of_derives balanced_nested h depth

/-! ### The pass inside parentheses -/

namespace Terminator

/-- Some tokens as they are inside parentheses: only semicolons end statements. -/
def joined : List Token → List Token
  | [] => []
  | t :: ts =>
    match t.kind with
    | .newline => joined ts
    | .semi => terminate t :: joined ts
    | _ => t :: joined ts

variable {t : Token} {ts : List Token} {s : State}

/-- A token is a newline, a semicolon, or neither. -/
theorem kind_cases (t : Token) :
    t.kind = .newline ∨ t.kind = .semi ∨ t.kind ≠ .newline ∧ t.kind ≠ .semi := by
  cases t.kind <;> decide

/-- A newline becomes a terminator where a statement can end, and is dropped elsewhere. -/
theorem insertFrom_newline (h : t.kind = .newline) : insertFrom s (t :: ts) =
    if s.depth = 0 && s.ready then terminate t :: insertFrom s.closed ts else insertFrom s ts := by
  rw [insertFrom, h]

/-- A semicolon becomes a terminator. -/
theorem insertFrom_semi (h : t.kind = .semi) :
    insertFrom s (t :: ts) = terminate t :: insertFrom s.closed ts := by
  rw [insertFrom, h]

theorem insertFrom_other (h : t.kind ≠ .newline ∧ t.kind ≠ .semi) :
    insertFrom s (t :: ts) = t :: insertFrom (s.after t.kind) ts := by
  rw [insertFrom]
  split
  · next hkind => exact absurd hkind h.1
  · next hkind => exact absurd hkind h.2
  · rfl

theorem joined_newline (h : t.kind = .newline) : joined (t :: ts) = joined ts := by
  rw [joined, h]

theorem joined_semi (h : t.kind = .semi) : joined (t :: ts) = terminate t :: joined ts := by
  rw [joined, h]

theorem joined_other (h : t.kind ≠ .newline ∧ t.kind ≠ .semi) :
    joined (t :: ts) = t :: joined ts := by
  rw [joined]
  split
  · next hkind => exact absurd hkind h.1
  · next hkind => exact absurd hkind h.2
  · rfl

/-- A token that ends no statement is left where it is, first or last. -/
theorem head_insertFrom (h : ∀ u ∈ ts.head?, u.kind ≠ .newline ∧ u.kind ≠ .semi) (s : State) :
    (insertFrom s ts).head? = ts.head? := by
  cases ts with
  | nil => rfl
  | cons t ts => rw [insertFrom_other (h t rfl), List.head?_cons, List.head?_cons]

/-- A token that is neither stays last. -/
theorem getLast_insertFrom (h : ∀ u ∈ ts.getLast?, u.kind ≠ .newline ∧ u.kind ≠ .semi)
    (s : State) : (insertFrom s ts).getLast? = ts.getLast? := by
  rcases List.eq_nil_or_concat ts with rfl | ⟨ts, t, rfl⟩
  · rfl
  · have ht := h t (by simp)
    -- Stated with the last token split off, it goes by induction on the tokens before it.
    suffices hsnoc : ∃ us, insertFrom s (ts ++ [t]) = us ++ [t] by
      obtain ⟨us, hus⟩ := hsnoc
      simp [hus]
    clear h
    induction ts generalizing s with
    | nil => exact ⟨[], insertFrom_other ht⟩
    | cons u us ih =>
      obtain ⟨vs, hvs⟩ := ih (s.after u.kind)
      obtain ⟨ws, hws⟩ := ih s.closed
      rw [List.cons_append]
      rcases kind_cases u with hu | hu | hu
      · rw [insertFrom_newline hu]
        split
        · exact ⟨terminate u :: ws, by rw [hws, List.cons_append]⟩
        · exact ih s
      · exact ⟨terminate u :: ws, by rw [insertFrom_semi hu, hws, List.cons_append]⟩
      · exact ⟨u :: vs, by rw [insertFrom_other hu, hvs, List.cons_append]⟩

/-- The pass leaves parentheses as they are. -/
theorem nested_insertFrom (s : State) (ts : List Token) (depth : Nat) :
    nested? (insertFrom s ts) depth = nested? ts depth := by
  induction ts generalizing s depth with
  | nil => rfl
  | cons t ts ih =>
    -- A terminator opens and closes nothing.
    have hterminate (s : State) :
        nested? (terminate t :: insertFrom s ts) depth = nested? ts depth := ih s depth
    rcases kind_cases t with h | h | h
    · have hskip : nested? (t :: ts) depth = nested? ts depth := by
        rw [nested_cons, h]
        rfl
      rw [insertFrom_newline h, hskip]
      split <;> [exact hterminate _; exact ih _ _]
    · rw [insertFrom_semi h, hterminate, nested_cons, h]
      rfl
    · rw [insertFrom_other h, nested_cons, nested_cons]
      exact congrArg _ (funext fun _ => ih _ _)

/-- Inside parentheses the pass counts them as the tree does. -/
theorem after_depth {s : State} {kind : TokenKind} {depth depth' : Nat} (hs : s.depth = depth + 1)
    (h : kind.nested? depth = some depth') : (s.after kind).depth = depth' + 1 := by
  cases kind
  case rpar =>
    cases depth with
    | zero => cases h
    | succ depth => cases h; rw [State.after, hs]; rfl
  all_goals cases h; simp [State.after, hs]

/-- **Inside parentheses newlines disappear**, up to where the innermost ones close. -/
theorem insertFrom_inside (rest : List Token) {depth depth' : Nat} (hs : s.depth = depth + 1)
    (h : nested? ts depth = some depth') :
    ∃ s', s'.depth = depth' + 1 ∧
      insertFrom s (ts ++ rest) = joined ts ++ insertFrom s' rest := by
  induction ts generalizing s depth with
  | nil =>
    obtain rfl := Option.some.inj h
    exact ⟨s, hs, rfl⟩
  | cons t ts ih =>
    rw [nested_cons] at h
    obtain ⟨depth₁, hkind, hrest⟩ := Option.bind_eq_some_iff.mp h
    rw [List.cons_append]
    -- A newline is dropped since the depth is positive; the other tokens are passed on.
    rcases kind_cases t with ht | ht | ht
    · obtain rfl : depth = depth₁ := Option.some.inj (by rwa [ht] at hkind)
      rw [insertFrom_newline ht, joined_newline ht, if_neg (by simp [hs])]
      exact ih hs hrest
    · obtain rfl : depth = depth₁ := Option.some.inj (by rwa [ht] at hkind)
      obtain ⟨s', hs', heq⟩ := ih (s := s.closed) hs hrest
      exact ⟨s', hs', by rw [insertFrom_semi ht, joined_semi ht, heq, List.cons_append]⟩
    · obtain ⟨s', hs', heq⟩ := ih (after_depth hs hkind) hrest
      exact ⟨s', hs', by rw [insertFrom_other ht, joined_other ht, heq, List.cons_append]⟩

/-- Without newlines, only semicolons end statements. -/
theorem insertFrom_noNewlines (s : State) (ts : List Token) :
    insertFrom s (ts.filter (·.kind ≠ .newline)) = joined ts := by
  induction ts generalizing s with
  | nil => rfl
  | cons t ts ih =>
    rcases kind_cases t with h | h | h
    · rw [List.filter_cons_of_neg (by simp [h]), joined_newline h, ih]
    · rw [List.filter_cons_of_pos (by simp [h]), insertFrom_semi h, joined_semi h, ih]
    · rw [List.filter_cons_of_pos (by simp [h.1]), insertFrom_other h, joined_other h, ih]

/-- **All that the pass makes of newlines are line breaks.** -/
theorem unbroken_insertFrom (h : ∀ t ∈ ts, t.Raw) (s : State) :
    unbroken (insertFrom s ts) = joined ts := by
  induction ts generalizing s with
  | nil => rfl
  | cons t ts ih =>
    obtain ⟨hterminator, hsemi, hnewline⟩ := h t (.head _)
    have ih := ih fun u hu => h u (.tail _ hu)
    -- A newline disappears, a semicolon stays, any other token is itself.
    rcases kind_cases t with ht | ht | ht
    · rw [insertFrom_newline ht, joined_newline ht]
      split
      · rw [unbroken_cons_of_isBreak (by simp [Token.isBreak, terminate, hnewline ht]), ih]
      · exact ih s
    · rw [insertFrom_semi ht, joined_semi ht, unbroken_cons_of_not_isBreak, ih]
      simp [Token.isBreak, terminate, hsemi ht]
    · rw [insertFrom_other ht, joined_other ht, unbroken_cons_of_not_isBreak, ih]
      simp [Token.isBreak, hterminator]

/-- Where the pass makes a line break, there is a newline. -/
theorem exists_newline_of_isBreak (h : ∀ t ∈ ts, t.Raw) {u : Token} (hu : u ∈ insertFrom s ts)
    (hbreak : u.isBreak) : ∃ t ∈ ts, t.kind = .newline ∧ t.pos = u.pos := by
  induction ts generalizing s with
  | nil => cases hu
  | cons t ts ih =>
    obtain ⟨hterminator, hsemi, -⟩ := h t (.head _)
    have ih {s : State} (hu : u ∈ insertFrom s ts) :
        ∃ t' ∈ t :: ts, t'.kind = .newline ∧ t'.pos = u.pos := by
      obtain ⟨t', ht', hnewline⟩ := ih (fun u hu => h u (.tail _ hu)) hu
      exact ⟨t', .tail _ ht', hnewline⟩
    -- Only a newline makes a break, at its own place.
    rcases kind_cases t with ht | ht | ht
    · rw [insertFrom_newline ht] at hu
      split at hu
      · rcases List.mem_cons.mp hu with rfl | hu
        · exact ⟨t, .head _, ht, rfl⟩
        · exact ih hu
      · exact ih hu
    · rw [insertFrom_semi ht] at hu
      rcases List.mem_cons.mp hu with rfl | hu
      · simp [Token.isBreak, terminate, hsemi ht] at hbreak
      · exact ih hu
    · rw [insertFrom_other ht] at hu
      rcases List.mem_cons.mp hu with rfl | hu
      · simp [Token.isBreak, hterminator] at hbreak
      · exact ih hu

end Terminator

end Rubylet
