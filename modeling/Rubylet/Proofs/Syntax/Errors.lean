import Rubylet.Proofs.Grammar.Completion
import Rubylet.Proofs.Syntax.Breaks

/-!
# Where syntax errors are reported

A syntax error is found at a token, or at the end of the input. The tables of the automaton are
merged, so some rules may have been reduced on the wrong token before it is found out; and the tokens
that the error lists are tried on what is left of the stack.

Neither does any harm. Reductions keep what the stack spans, and every stack can be completed
(`Path.exists_completes`). So the tokens before the error begin some program; and so do these tokens
and any that is listed, for a token that can be shifted makes a stack as well (`Path.allows`). That
the tokens up to the wrong one begin no program holds because the parser would have gone on.

* `syntaxError_earliest`: all of this, for any tokens that are no program.
-/

namespace Rubylet

open Rubylet.Tree

namespace Phrase

/-- Tokens of some kinds begin a program. -/
def Begins (kinds : List TokenKind) : Prop := ∃ rest, kinds ++ rest ∈ program.language

/-- After tokens of some kinds, which begin a program, one of a kind can come, or the end. -/
def Allows (kinds : List TokenKind) : Lookahead → Prop
  | none => kinds ∈ program.language
  | some kind => Begins (kinds ++ [kind])

end Phrase

namespace Parse

open Automaton

attribute [local irreducible] states

variable {stack stack' : Stack} {ts : List Token} {t : Token} {l : Lookahead} {e : SyntaxError}
  {last : Option Token}

/-! ### Stacks and what can come after them -/

theorem Path.begins (h : Path stack) : Phrase.Begins ((spanned stack).map Token.kind) := by
  obtain ⟨ts, t, ht⟩ := h.exists_completes
  refine ⟨ts.map Token.kind, ?_⟩
  rw [← List.map_append, ← derives_iff_mem_language]
  exact ⟨t, h.answer (ht none)⟩

/-- **What is accepted next can come next.** -/
theorem Path.allows (h : Path stack) (ha : accepts stack l) :
    Phrase.Allows ((spanned stack).map Token.kind) l := by
  have hfits := h.settle l
  unfold accepts at ha
  cases hs : Parse.settle l stack with
  | error stack' => rw [hs] at ha; cases ha
  | accept t =>
    rw [hs] at hfits
    obtain ⟨ht, htokens, rfl⟩ := hfits
    exact (derives_iff_mem_language _ _).mp ⟨t, ht, htokens⟩
  | shift m stack' =>
    rw [hs] at hfits
    obtain ⟨hpath, hspanned, haction⟩ := hfits
    cases l with
    | none => rw [action_eq, prefer_eq_shift_iff] at haction; cases haction
    | some kind =>
      -- A token that can be shifted gives a longer path, and this can be completed like any other.
      have hpath' : Path (⟨m, .leaf ⟨kind, "", .start⟩⟩ :: stack') :=
        .cons hpath (.leaf _) (action_eq_shift_iff.mp haction)
      have hbegins := hpath'.begins
      rwa [spanned_cons, List.map_append, hspanned] at hbegins

/-- What is expected is what the stack accepts. -/
theorem mem_expected : l ∈ expected stack ↔ accepts stack l := by
  rw [expected, List.mem_filter]
  refine and_iff_right ?_
  cases l with
  | none => exact .head _
  | some kind => exact .tail _ (List.mem_map_of_mem (TokenKind.mem_all kind))

/-- Something can always come next. -/
theorem Path.expected_ne_nil (h : Path stack) : expected stack ≠ [] := by
  obtain ⟨ts, t, ht⟩ := h.exists_completes
  -- What completes the stack begins with a lookahead that is accepted.
  refine List.ne_nil_of_mem (a := lookahead ts) (mem_expected.mpr ?_)
  have hanswer := ht none
  unfold accepts
  cases hs : Parse.settle (lookahead ts) stack with
  | shift m stack' => rfl
  | accept t => rfl
  | error stack' =>
    cases ts with
    | nil =>
      rw [answer_nil, finish, show Parse.settle none stack = _ from hs] at hanswer
      cases hanswer
    | cons token ts =>
      rw [answer_cons, Parse.shift, show Parse.settle (some token.kind) stack = _ from hs] at hanswer
      cases hanswer

/-! ### Errors -/

theorem ok_bind {ε α β : Type} (a : α) (f : α → Except ε β) : (Except.ok a >>= f) = f a := rfl

theorem error_bind {ε α β : Type} (e : ε) (f : α → Except ε β) :
    (Except.error e >>= f) = .error e := rfl

/-- Where a token cannot be shifted, the stack spans what it spanned. -/
theorem Path.of_shift_error (h : Path stack) (he : Parse.shift stack t = .error e) :
    ∃ stack', Path stack' ∧ spanned stack' = spanned stack ∧
      e = ⟨some t, t.pos, expected stack'⟩ := by
  have hfits := h.settle (some t.kind)
  unfold Parse.shift at he
  cases hs : Parse.settle (some t.kind) stack with
  | shift m stack' => rw [hs] at he; cases he
  | accept t => rw [hs] at hfits; cases hfits.2.2
  | error stack' =>
    rw [hs] at he hfits
    exact ⟨stack', hfits.1, hfits.2, (Except.error.inj he).symm⟩

/-- Where the input cannot end, the stack spans what it spanned. -/
theorem Path.of_finish_error (h : Path stack) (he : finish last stack = .error e) :
    ∃ stack', Path stack' ∧ spanned stack' = spanned stack ∧
      e = ⟨none, (last.map Token.pos).getD .start, expected stack'⟩ := by
  have hfits := h.settle none
  unfold finish at he
  -- At the end of the source there is nothing to shift.
  cases hs : Parse.settle none stack with
  | shift m stack' =>
    rw [hs] at hfits
    have haction := hfits.2.2
    rw [action_eq, prefer_eq_shift_iff] at haction
    cases haction
  | accept t => rw [hs] at he; cases he
  | error stack' =>
    rw [hs] at he hfits
    exact ⟨stack', hfits.1, hfits.2, (Except.error.inj he).symm⟩

theorem shiftAll_append (ts us : List Token) :
    shiftAll stack (ts ++ us) = shiftAll stack ts >>= fun stack => shiftAll stack us :=
  List.foldlM_append

theorem shiftAll_cons (t : Token) (ts : List Token) :
    shiftAll stack (t :: ts) = shift stack t >>= fun stack => shiftAll stack ts :=
  List.foldlM_cons

/-- The parser fails at one token, the ones before it having been shifted. -/
theorem exists_of_shiftAll_error (h : shiftAll stack ts = .error e) :
    ∃ before t after stack', ts = before ++ t :: after ∧ shiftAll stack before = .ok stack' ∧
      shift stack' t = .error e := by
  induction ts generalizing stack with
  | nil => cases h
  | cons t ts ih =>
    rw [shiftAll_cons] at h
    -- The parser fails at this token, or at one behind it.
    cases hs : shift stack t with
    | error e' =>
      rw [hs] at h
      exact ⟨[], t, ts, stack, rfl, rfl, hs.trans h⟩
    | ok middle =>
      rw [hs] at h
      obtain ⟨before, u, after, stack', rfl, hbefore, hu⟩ := ih h
      refine ⟨t :: before, u, after, stack', rfl, ?_, hu⟩
      rw [shiftAll_cons, hs]
      exact hbefore

/-- What begins a program is shifted. -/
theorem not_begins_of_shift_error {before : List Token} (hs : shiftAll [] before = .ok stack)
    (he : shift stack t = .error e) : ¬ Phrase.Begins (before.map Token.kind ++ [t.kind]) := by
  rintro ⟨rest, hrest⟩
  -- The tokens after the wrong one are made up; nothing but their kinds matters.
  have hkinds : (before ++ t :: rest.map fun kind => ⟨kind, "", .start⟩).map Token.kind =
      before.map Token.kind ++ [t.kind] ++ rest := by
    rw [List.map_append, List.map_cons, List.map_map, List.append_assoc]
    exact congrArg (fun kinds => _ ++ t.kind :: kinds) (List.map_id rest)
  rw [← hkinds, ← derives_iff_mem_language] at hrest
  obtain ⟨tree, htree, htokens⟩ := hrest
  have hparsed := tree_of_derives htree
  rw [htokens, Parse.tree, shiftAll_append, hs, ok_bind, shiftAll_cons, he, error_bind,
    error_bind] at hparsed
  cases hparsed

/-- **An error is found as early as it can be**, and what it expects can come. -/
theorem tree_error (h : tree ts = .error e) : ∃ before after, ts = before ++ after ∧
    e.found = after.head? ∧ e.pos = ((after.head?.or ts.getLast?).map Token.pos).getD .start ∧
    Phrase.Begins (before.map Token.kind) ∧
    ¬ Phrase.Allows (before.map Token.kind) (e.found.map Token.kind) ∧ e.expected ≠ [] ∧
    ∀ l ∈ e.expected, Phrase.Allows (before.map Token.kind) l := by
  cases hs : shiftAll [] ts with
  -- The error is at a token.
  | error e' =>
    rw [tree, hs, error_bind] at h
    obtain rfl := Except.error.inj h
    obtain ⟨before, t, after, stack, rfl, hbefore, hshift⟩ := exists_of_shiftAll_error hs
    obtain ⟨hpath, hspanned⟩ := Path.nil.shiftAll hbefore
    obtain ⟨stack', hpath', hspanned', rfl⟩ := hpath.of_shift_error hshift
    have heq : spanned stack' = before := hspanned'.trans hspanned
    refine ⟨before, t :: after, rfl, rfl, rfl, heq ▸ hpath'.begins,
      not_begins_of_shift_error hbefore hshift, hpath'.expected_ne_nil, fun l hl => ?_⟩
    exact heq ▸ hpath'.allows (mem_expected.mp hl)
  -- All tokens have been shifted, so the error is at the end.
  | ok stack =>
    have hfinish := h
    rw [tree, hs, ok_bind] at hfinish
    obtain ⟨hpath, hspanned⟩ := Path.nil.shiftAll hs
    obtain ⟨stack', hpath', hspanned', rfl⟩ := hpath.of_finish_error hfinish
    have heq : spanned stack' = ts := hspanned'.trans hspanned
    refine ⟨ts, [], (List.append_nil ts).symm, rfl, rfl, heq ▸ hpath'.begins, fun hmem => ?_,
      hpath'.expected_ne_nil, fun l hl => heq ▸ hpath'.allows (mem_expected.mp hl)⟩
    obtain ⟨t, ht, htokens⟩ := (derives_iff_mem_language _ _).mpr hmem
    rw [← htokens, tree_of_derives ht] at h
    cases h

end Parse

namespace Syntax

/-- **A syntax error is reported at the earliest token.** Of tokens that are no program, those before
the reported one begin a program, and those up to it begin none; if it is the end of the input that
is reported, they are no program yet. The error lists at least one lookahead, and each of them can
come where the error is: with a token of this kind the tokens before still begin a program, and with
the end of the input they are one. -/
theorem syntaxError_earliest {tokens : List Token} {err : CompileError}
    (h : treeOf ⟨tokens, none⟩ = .error err) :
    ∃ before after e, tokens = before ++ after ∧ err = syntaxError e ∧ e.found = after.head? ∧
      e.pos = ((after.head?.or tokens.getLast?).map Token.pos).getD .start ∧
      Phrase.Begins (before.map Token.kind) ∧
      ¬ Phrase.Allows (before.map Token.kind) (e.found.map Token.kind) ∧ e.expected ≠ [] ∧
      ∀ l ∈ e.expected, Phrase.Allows (before.map Token.kind) l := by
  rw [treeOf_eq] at h
  cases he : Parse.tree tokens with
  | ok t => rw [he] at h; cases h
  | error e =>
    rw [he] at h
    -- What the automaton reports about its own failure.
    obtain ⟨before, after, htokens, hrest⟩ := Parse.tree_error he
    exact ⟨before, after, e, htokens, (Except.error.inj h).symm, hrest⟩

open Automaton.Sample

theorem treeOf_unclosed : treeOf ⟨unclosed, none⟩ = .error (syntaxError unclosedError) := by
  have herror := Automaton.computed.2
  rw [treeOf_eq]
  cases he : Parse.tree unclosed with
  | ok t => rw [he] at herror; cases herror
  | error e =>
    rw [he] at herror
    rw [Option.some.inj herror]
    rfl

/-- Lookaheads are told apart by their labels. -/
theorem lookaheadLabel_injective : Function.Injective Parse.lookaheadLabel := by
  have hlabels : ∀ l ∈ none :: TokenKind.all.map some, ∀ l' ∈ none :: TokenKind.all.map some,
      Parse.lookaheadLabel l = Parse.lookaheadLabel l' → l = l' := by
    decide +kernel
  have hmem : ∀ l : Lookahead, l ∈ none :: TokenKind.all.map some := by
    rintro (_ | kind)
    · exact .head _
    · exact .tail _ (List.mem_map_of_mem (TokenKind.mem_all kind))
  exact fun l l' h => hlabels l (hmem l) l' (hmem l') h

/-- Behind `f(1` no `end` can come. A comma and a closing parenthesis are listed, and can come. -/
theorem syntaxError_earliest_unclosed :
    treeOf ⟨unclosed, none⟩ = .error (syntaxError unclosedError) ∧
      Phrase.Begins [.name, .lpar, .int] ∧ ¬ Phrase.Begins [.name, .lpar, .int, .kwEnd] ∧
      ∀ kind ∈ [TokenKind.comma, .rpar], Phrase.Begins [.name, .lpar, .int, kind] := by
  obtain ⟨before, after, e, htokens, herr, hfound, -, hbegins, hnot, -, hlisted⟩ :=
    syntaxError_earliest treeOf_unclosed
  -- The compile error tells which token was found and what is listed.
  simp only [syntaxError, CompileError.atPos, CompileError.mk.injEq, Cause.unexpectedToken.injEq]
    at herr
  obtain ⟨⟨hunexpected, hlabels⟩, -⟩ := herr
  have hexpected := List.map_injective_iff.mpr lookaheadLabel_injective hlabels
  obtain ⟨n, hn, rfl, rfl⟩ : ∃ n ≤ 4, before = unclosed.take n ∧ after = unclosed.drop n := by
    refine ⟨before.length, ?_, by rw [htokens, List.take_left], by rw [htokens, List.drop_left]⟩
    have hlength : 4 = before.length + after.length :=
      (congrArg List.length htokens).trans List.length_append
    omega
  have hfourth : ∀ n ≤ 4, unexpected unclosedError.found = unexpected (unclosed.drop n).head? →
      n = 3 := by
    decide
  obtain rfl := hfourth n hn (hfound ▸ hunexpected)
  rw [hfound] at hnot
  refine ⟨treeOf_unclosed, hbegins, hnot, fun kind hkind => hlisted (some kind) ?_⟩
  exact hexpected ▸ List.mem_map_of_mem hkind

end Syntax

end Rubylet
