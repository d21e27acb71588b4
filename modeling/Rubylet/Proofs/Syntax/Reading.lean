import Rubylet.Proofs.Syntax.Prescribed

/-!
# Reading follows the derivation

* Reading a derivation answers what it prescribes, unless something is wrong with it; then it fails
  on what is wrong first, in the order of the text (`ofTree_of_derives`).
* All that can be wrong (`faults`) is a parameter named like one before it in the same definition,
  an escape that is not supported between double quotes, and an integer of too many digits.
* A program text without a lexical error is read from the derivation of its tokens
  (`read_of_derives`).
-/

namespace Rubylet

namespace Syntax

open Rubylet.Tree

/-! ### What can be wrong -/

/-- The names that have been used before. -/
def repeated (seen : List String) : List Token → List StageError
  | [] => []
  | t :: rest =>
    if t.text ∈ seen then
      .compile (.atPos t.pos (.duplicateParameter t.text)) :: repeated (t.text :: seen) rest
    else repeated (t.text :: seen) rest

/-- What is wrong with the parameters of a definition. -/
def parameterFaults : Rule → List Tree → List StageError
  | .methodDef true, _ :: _ :: list :: _ => repeated [] (nameTokens [list])
  | _, _ => []

/-- What is wrong with a literal. -/
def literalFaults (t : Token) : List StageError :=
  match t.kind with
  | .int => if maxDigits < digitCount t.text.toList then [.fault .tooManyDigits] else []
  | .string =>
    match decodeLiteral t.text.toList with
    | .ok _ => []
    | .error c => [.compile (.atPos t.pos (.invalidEscape c))]
  | _ => []

mutual

/-- All that is wrong with a tree, in the order of the text. -/
def faults : Tree → List StageError
  | .leaf t => literalFaults t
  | .node r ts => parameterFaults r ts ++ allFaults ts

/-- All that is wrong with some trees. -/
def allFaults : List Tree → List StageError
  | [] => []
  | t :: rest => faults t ++ allFaults rest

end

/-- A part of a tree. -/
inductive PartOf (u : Tree) : Tree → Prop
  | refl : PartOf u u
  | child {r ts t} : t ∈ ts → PartOf u t → PartOf u (.node r ts)

theorem mem_allTokens {token : Token} {t : Tree} {ts : List Tree} (ht : t ∈ ts)
    (h : token ∈ t.tokens) : token ∈ allTokens ts := by
  induction ts with
  | nil => cases ht
  | cons u us ih =>
    rw [allTokens]
    rcases List.mem_cons.mp ht with rfl | ht
    · exact List.mem_append_left _ h
    · exact List.mem_append_right _ (ih ht)

/-- The tokens of a part are tokens of the tree. -/
theorem PartOf.mem_tokens {token : Token} {u t : Tree} (h : PartOf u t) (hu : token ∈ u.tokens) :
    token ∈ t.tokens := by
  induction h with
  | refl => exact hu
  | child ht _ ih => exact mem_allTokens ht ih

/-- The error is that a parameter of a definition is named like one before it. -/
def RepeatsParameter (t : Tree) (e : StageError) : Prop :=
  ∃ start name list rest before p after,
    PartOf (.node (.methodDef true) (start :: name :: list :: rest)) t ∧
      nameTokens [list] = before ++ p :: after ∧ p.text ∈ before.map Token.text ∧
        e = .compile (.atPos p.pos (.duplicateParameter p.text))

/-- A parameter is repeated when its name stands before it, or among those seen. -/
theorem exists_of_mem_repeated {e : StageError} : ∀ {ts : List Token} {seen : List String},
    e ∈ repeated seen ts → ∃ before p after, ts = before ++ p :: after ∧
      (p.text ∈ before.map Token.text ∨ p.text ∈ seen) ∧
        e = .compile (.atPos p.pos (.duplicateParameter p.text)) := by
  intro ts
  induction ts with
  | nil => exact fun h => nomatch h
  | cons t ts ih =>
    intro seen h
    -- Further to the right the first name counts as seen, and it stands before what is found there.
    have hrest (h : e ∈ repeated (t.text :: seen) ts) : ∃ before p after,
        t :: ts = before ++ p :: after ∧ (p.text ∈ before.map Token.text ∨ p.text ∈ seen) ∧
          e = .compile (.atPos p.pos (.duplicateParameter p.text)) := by
      obtain ⟨before, p, after, rfl, hp, rfl⟩ := ih h
      refine ⟨t :: before, p, after, rfl, ?_, rfl⟩
      rcases hp with hp | hp
      · exact .inl (.tail _ hp)
      · rcases List.mem_cons.mp hp with hp | hp
        · exact .inl (hp ▸ .head _)
        · exact .inr hp
    rw [repeated] at h
    split at h
    · next hseen =>
      rcases List.mem_cons.mp h with rfl | h
      · exact ⟨[], t, ts, rfl, .inr hseen, rfl⟩
      · exact hrest h
    · exact hrest h

/-- Decoding fails at a backslash that escapes nothing. -/
theorem exists_of_decodeDouble {c : Char} : ∀ {cs : List Char}, decodeDouble cs = .error c →
    ∃ before after, cs = before ++ '\\' :: c :: after ∧ isUnsupportedEscape c := by
  intro cs
  -- An escape takes two characters at once, so the induction follows the decoding.
  induction cs using decodeDouble.induct with
  | case1 =>
    intro hd
    cases hd
  | case2 d rest h =>
    intro hd
    rw [decodeDouble, if_pos h] at hd
    obtain rfl := Except.error.inj hd
    exact ⟨[], rest, rfl, h⟩
  | case3 d rest h ih =>
    intro hd
    rw [decodeDouble, if_neg h] at hd
    cases hrest : decodeDouble rest with
    | ok value => rw [hrest] at hd; cases hd
    | error c' =>
      rw [hrest] at hd
      obtain rfl := Except.error.inj hd
      obtain ⟨before, after, rfl, hc⟩ := ih hrest
      exact ⟨'\\' :: d :: before, after, rfl, hc⟩
  | case4 d rest h ih =>
    intro hd
    rw [decodeDouble] at hd
    · cases hrest : decodeDouble rest with
      | ok value => rw [hrest] at hd; cases hd
      | error c' =>
        rw [hrest] at hd
        obtain rfl := Except.error.inj hd
        obtain ⟨before, after, rfl, hc⟩ := ih hrest
        exact ⟨d :: before, after, rfl, hc⟩
    · exact h

/-- Decoding a literal fails only between double quotes, at an escape that is not supported. -/
theorem exists_of_decodeLiteral {cs : List Char} {c : Char} (h : decodeLiteral cs = .error c) :
    cs.head? ≠ some '\x27' ∧ ∃ before after, cs.tail.dropLast = before ++ '\\' :: c :: after ∧
      isUnsupportedEscape c := by
  rw [decodeLiteral] at h
  split at h
  · cases h
  · next hhead => exact ⟨hhead, exists_of_decodeDouble h⟩

/-- What is repeated in a child is repeated in the node. -/
theorem RepeatsParameter.child {r : Rule} {t : Tree} {ts : List Tree} {e : StageError}
    (ht : t ∈ ts) (h : RepeatsParameter t e) : RepeatsParameter (.node r ts) e := by
  obtain ⟨start, name, list, rest, before, p, after, hpart, hp⟩ := h
  exact ⟨start, name, list, rest, before, p, after, .child ht hpart, hp⟩

/-- A fault among the parameters of a node is a name that is repeated. -/
theorem repeatsParameter_of_mem {r : Rule} {ts : List Tree} {e : StageError}
    (h : e ∈ parameterFaults r ts) : RepeatsParameter (.node r ts) e := by
  unfold parameterFaults at h
  split at h
  · next start name list rest =>
    obtain ⟨before, p, after, heq, hp, rfl⟩ := exists_of_mem_repeated h
    exact ⟨start, name, list, rest, before, p, after, .refl, heq, hp.resolve_right nofun, rfl⟩
  · cases h

mutual

/-- **Only a repeated parameter or a literal can be wrong.** -/
theorem of_mem_faults {e : StageError} : ∀ (t : Tree), e ∈ faults t →
    RepeatsParameter t e ∨ ∃ s ∈ t.tokens, e ∈ literalFaults s
  | .leaf token, h => .inr ⟨token, .head _, h⟩
  | .node r ts, h => by
    rw [faults] at h
    rcases List.mem_append.mp h with h | h
    · exact .inl (repeatsParameter_of_mem h)
    · obtain ⟨t, ht, h | ⟨s, hs, h⟩⟩ := exists_of_mem_allFaults ts h
      · exact .inl (h.child ht)
      · exact .inr ⟨s, mem_allTokens ht hs, h⟩

/-- The faults of trees are those of one of them. -/
theorem exists_of_mem_allFaults {e : StageError} : ∀ (ts : List Tree), e ∈ allFaults ts →
    ∃ t ∈ ts, RepeatsParameter t e ∨ ∃ s ∈ t.tokens, e ∈ literalFaults s
  | [], h => nomatch h
  | t :: ts, h => by
    rw [allFaults] at h
    rcases List.mem_append.mp h with h | h
    · exact ⟨t, .head _, of_mem_faults t h⟩
    · obtain ⟨u, hu, h⟩ := exists_of_mem_allFaults ts h
      exact ⟨u, .tail _ hu, h⟩

end

/-- Reading answers something, or fails on what is wrong first. -/
def Answers {α : Type} (scope : Scope) (x : Reading α) (wrong : List StageError)
    (P : α → Scope → Prop) : Prop :=
  match wrong with
  | [] => ∃ a scope', x.run scope = .ok (a, scope') ∧ P a scope'
  | e :: _ => x.run scope = .error e

section Answers

variable {α β : Type} {scope : Scope} {x : Reading α} {f : α → Reading β}
  {es es' : List StageError} {P P' : α → Scope → Prop} {Q : β → Scope → Prop}

theorem Answers.pure {a : α} (h : P a scope) : Answers scope (Pure.pure a) [] P :=
  ⟨a, scope, rfl, h⟩

/-- Two readings in turn answer with the faults of both, and fail at the first. -/
theorem Answers.bind (hx : Answers scope x es P)
    (hf : ∀ a scope', P a scope' → Answers scope' (f a) es' Q) :
    Answers scope (x >>= f) (es ++ es') Q := by
  -- What is wrong with the first part is reported first, and the rest is not read.
  cases es with
  | cons e es =>
    show (x >>= f).run scope = .error e
    rw [StateT.run_bind, show x.run scope = .error e from hx]
    rfl
  | nil =>
    obtain ⟨a, scope', hrun, ha⟩ := hx
    have hfa := hf a scope' ha
    rw [List.nil_append]
    have hbind : (x >>= f).run scope = (f a).run scope' := by
      rw [StateT.run_bind, hrun]
      rfl
    cases es' with
    | nil =>
      obtain ⟨b, scope'', hb, hQ⟩ := hfa
      exact ⟨b, scope'', hbind.trans hb, hQ⟩
    | cons e es' => exact hbind.trans hfa

/-- What is true of the answer may be weakened. -/
theorem Answers.mono (hx : Answers scope x es P) (h : ∀ a scope', P a scope' → P' a scope') :
    Answers scope x es P' := by
  cases es with
  | cons e es => exact hx
  | nil =>
    obtain ⟨a, scope', hrun, ha⟩ := hx
    exact ⟨a, scope', hrun, h a scope' ha⟩

theorem Answers.of_eq (h : es = es') (hx : Answers scope x es' P) : Answers scope x es P := h ▸ hx

theorem Answers.modify {f : Unit → Reading β} (g : Scope → Scope)
    (hf : Answers (g scope) (f ()) es Q) :
    Answers scope ((modify g : Reading Unit) >>= f) es Q := hf

theorem run_inScope (locals : Scope) : (Syntax.inScope locals x).run scope =
    (x.run locals).bind fun r => .ok (r.1, scope) := rfl

/-- A body answers in its own scope, and the reading goes on in the scope around it. -/
theorem Answers.inScope {locals : Scope} (hx : Answers locals x es P)
    (hf : ∀ a inner, P a inner → Answers scope (f a) es' Q) :
    Answers scope (Syntax.inScope locals x >>= f) (es ++ es') Q := by
  -- The locals within are forgotten behind: the scope is the outer one again.
  refine (show Answers scope (Syntax.inScope locals x) es fun a scope' =>
    scope' = scope ∧ ∃ inner, P a inner from ?_).bind ?_
  · cases es with
    | cons e es =>
      show (Syntax.inScope locals x).run scope = .error e
      rw [run_inScope, show x.run locals = .error e from hx]
      rfl
    | nil =>
      obtain ⟨a, inner, hrun, ha⟩ := hx
      refine ⟨a, scope, ?_, rfl, inner, ha⟩
      rw [run_inScope, hrun]
      rfl
  · rintro a _ ⟨rfl, inner, ha⟩
    exact hf a inner ha

end Answers

/-! ### Reading answers what is prescribed -/

/-- Parameters are named by their tokens, in order. -/
theorem map_name_parameters : ∀ (ts : List Token) (index : Nat),
    (parameters index ts).map Param.name = ts.map Token.text
  | [], _ => rfl
  | t :: rest, index => by rw [parameters, List.map_cons, List.map_cons, map_name_parameters rest]

/-- Parameters are read until a name repeats. -/
theorem answers_readParams (scope : Scope) : ∀ (ts : List Token) (seen : List String) (index : Nat),
    Answers scope (readParams seen index ts) (repeated seen ts) fun params scope' =>
      params = parameters index ts ∧ scope' = scope ∧ (ts.map Token.text).Nodup ∧
        ∀ t ∈ ts, t.text ∉ seen := by
  intro ts
  induction ts with
  | nil => exact fun seen index => .pure ⟨rfl, rfl, List.nodup_nil, nofun⟩
  | cons t ts ih =>
    intro seen index
    rw [readParams, repeated]
    -- A name that was seen is reported at once; a new one counts as seen for those behind it.
    by_cases h : t.text ∈ seen
    · rw [if_pos h, if_pos (List.contains_iff_mem.mpr h)]
      rfl
    · rw [if_neg h, if_neg fun hc => h (List.contains_iff_mem.mp hc)]
      refine .of_eq (List.append_nil _).symm ((ih (t.text :: seen) (index + 1)).bind ?_)
      rintro others _ ⟨rfl, rfl, hnodup, hfresh⟩
      refine .pure ⟨rfl, rfl, List.nodup_cons.mpr ⟨?_, hnodup⟩, ?_⟩
      · intro hmem
        obtain ⟨u, hu, heq⟩ := List.mem_map.mp hmem
        exact hfresh u hu (heq ▸ .head _)
      · rintro u (_ | ⟨_, hu⟩)
        · exact h
        · exact fun hseen => hfresh u hu (.tail _ hseen)

/-- Parameters answer with the first name that is repeated, or with their list. -/
theorem Answers.readParams {β : Type} {scope : Scope} {ts : List Token} {f : List Param → Reading β}
    {es : List StageError} {Q : β → Scope → Prop}
    (hf : (ts.map Token.text).Nodup → Answers scope (f (parameters 0 ts)) es Q) :
    Answers scope (Syntax.readParams [] 0 ts >>= f) (repeated [] ts ++ es) Q := by
  refine (answers_readParams scope ts [] 0).bind ?_
  rintro params _ ⟨rfl, rfl, hnodup, -⟩
  exact hf hnodup

section Leaves

variable {token : Token} {t : Tree} {ts us : List Tree}

theorem allFaults_singleton : allFaults [t] = faults t := List.append_nil _

/-- Terminators stand for nothing, and nothing is wrong with them. -/
theorem reads_terminators (h : Derives (.phrase .terminators) t) (scope : Scope) :
    Reads scope t [] scope ∧ faults t = [] := by
  -- On the tree: a run of terminators reads as nothing.
  induction t using Tree.induction_parts with
  | leaf token => exact absurd h not_derives_leaf
  | node r ts ih =>
    obtain ⟨hr, hts⟩ := derives_node_iff.mp h
    cases r <;> cases hr <;>
      simp only [Rule.symbols, derivesAll_cons_iff, derivesAll_nil_iff, derives_token_iff] at hts
    case oneTerminator.refl =>
      obtain ⟨_, _, rfl, ⟨token, rfl, hkind⟩, rfl⟩ := hts
      refine ⟨.pass rfl (.cons (.token _ _) (.nil _)), ?_⟩
      simp [faults, allFaults, parameterFaults, literalFaults, hkind]
    case anotherTerminator.refl =>
      obtain ⟨more, _, rfl, hmore, _, _, rfl, ⟨token, rfl, hkind⟩, rfl⟩ := hts
      obtain ⟨hreads, hfaults⟩ := ih more (by simp) hmore
      refine ⟨.pass rfl (.cons hreads (.cons (.token _ _) (.nil _))), ?_⟩
      simp [faults, allFaults, parameterFaults, literalFaults, hkind, hfaults]

/-- A separator reads as nothing and has no fault. -/
theorem reads_separator {t : Tree} (h : Derives (.phrase .separator) t) (scope : Scope) :
    Reads scope t [] scope ∧ faults t = [] := by
  obtain ⟨r, ts, rfl, hr, hts⟩ := h.exists_node
  cases r <;> cases hr
  simp only [Rule.symbols, derivesAll_cons_iff, derivesAll_nil_iff] at hts
  obtain ⟨more, _, rfl, hmore, rfl⟩ := hts
  obtain ⟨hreads, hfaults⟩ := reads_terminators hmore scope
  exact ⟨.pass rfl (.cons hreads (.nil _)), by simp [faults, allFaults, parameterFaults, hfaults]⟩

/-- The names of a parameter list are read in the order of the text. -/
theorem paramTokens_more (h : Derives (.phrase .moreParams) t) :
    paramTokens t = nameTokens [t] ∧ faults t = [] := by
  induction t using Tree.induction_parts with
  | leaf token => exact absurd h not_derives_leaf
  | node r ts ih =>
    obtain ⟨hr, hts⟩ := derives_node_iff.mp h
    cases r <;> cases hr <;>
      simp only [Rule.symbols, derivesAll_cons_iff, derivesAll_nil_iff, derives_token_iff] at hts
    case secondParam.refl =>
      obtain ⟨_, _, rfl, ⟨comma, rfl, hcomma⟩, _, _, rfl, ⟨name, rfl, hname⟩, rfl⟩ := hts
      simp [paramTokens, nameTokens, allTokens, Tree.tokens, faults, allFaults, parameterFaults,
        literalFaults, hcomma, hname]
    case anotherParam.refl =>
      obtain ⟨more, _, rfl, hmore, _, _, rfl, ⟨comma, rfl, hcomma⟩, _, _, rfl, ⟨name, rfl, hname⟩,
        rfl⟩ := hts
      -- The names in front, and then the one behind the comma.
      obtain ⟨hparams, hfaults⟩ := ih more (by simp) hmore
      simp [paramTokens, nameTokens, allTokens, Tree.tokens, faults, allFaults, parameterFaults,
        literalFaults, hcomma, hname, hparams, hfaults]

/-- The names of a parameter list are the names in it, and it has no fault of its own. -/
theorem paramTokens_list {t : Tree} (h : Derives (.phrase .paramList) t) :
    paramTokens t = nameTokens [t] ∧ faults t = [] := by
  obtain ⟨r, ts, rfl, hr, hts⟩ := h.exists_node
  -- Of the tokens of the list, the names are kept and the parentheses and commas dropped.
  cases r <;> cases hr
  case noParams =>
    simp only [Rule.symbols, derivesAll_cons_iff, derivesAll_nil_iff, derives_token_iff] at hts
    obtain ⟨_, _, rfl, ⟨lpar, rfl, hlpar⟩, _, _, rfl, ⟨rpar, rfl, hrpar⟩, rfl⟩ := hts
    simp [paramTokens, nameTokens, allTokens, Tree.tokens, faults, allFaults, parameterFaults,
      literalFaults, hlpar, hrpar]
  case params more =>
    cases more <;>
      simp only [Rule.symbols, Rule.opt, if_true, Bool.false_eq_true, if_false,
        List.cons_append, List.nil_append, derivesAll_cons_iff, derivesAll_nil_iff,
        derives_token_iff] at hts
    · obtain ⟨_, _, rfl, ⟨lpar, rfl, hlpar⟩, _, _, rfl, ⟨name, rfl, hname⟩, _, _, rfl,
        ⟨rpar, rfl, hrpar⟩, rfl⟩ := hts
      simp [paramTokens, nameTokens, allTokens, Tree.tokens, faults, allFaults, parameterFaults,
        literalFaults, hlpar, hname, hrpar]
    · obtain ⟨_, _, rfl, ⟨lpar, rfl, hlpar⟩, _, _, rfl, ⟨name, rfl, hname⟩, more, _, rfl, hmore,
        _, _, rfl, ⟨rpar, rfl, hrpar⟩, rfl⟩ := hts
      obtain ⟨hparams, hfaults⟩ := paramTokens_more hmore
      simp [paramTokens, nameTokens, allTokens, Tree.tokens, faults, allFaults, parameterFaults,
        literalFaults, hlpar, hname, hrpar, hparams, hfaults]

/-- Is it a phrase that stands for one statement? -/
def isStatement : Phrase → Bool
  | .statement | .methodDef | .classDef | .assign => true
  | _ => false

/-- Is it a phrase that stands for one expression? -/
def isExpr : Phrase → Bool
  | .expr | .sum | .term | .chain | .primary | .conditional => true
  | _ => false

/-- Is it a phrase that stands for arguments? -/
def isArgs : Phrase → Bool
  | .callArgs | .moreArgs => true
  | _ => false

/-- Trees of two lists of symbols are trees of each, side by side. -/
theorem derivesAll_append_iff {xs ys : List Symbol} {ts : List Tree} :
    DerivesAll (xs ++ ys) ts ↔ ∃ us vs, ts = us ++ vs ∧ DerivesAll xs us ∧ DerivesAll ys vs := by
  constructor
  · intro h
    -- On the first list, tree by tree.
    induction xs generalizing ts with
    | nil => exact ⟨[], ts, rfl, .nil, h⟩
    | cons x xs ih =>
      cases h with
      | cons ht hts =>
        obtain ⟨us, vs, rfl, hus, hvs⟩ := ih hts
        exact ⟨_ :: us, vs, rfl, .cons ht hus, hvs⟩
  · rintro ⟨us, vs, rfl, hus, hvs⟩
    exact hus.append hvs

/-- A body is a statement with others behind it, and separators around. -/
theorem exists_of_body {leading more trailing : Bool} {ts : List Tree}
    (h : DerivesAll (Rule.body leading more trailing).symbols ts) :
    ∃ front x middle back, ts = front ++ x :: (middle ++ back) ∧
      DerivesAll (Rule.opt leading (.phrase .separator)) front ∧ Derives (.phrase .statement) x ∧
      DerivesAll (Rule.opt more (.phrase .moreStatements)) middle ∧
      DerivesAll (Rule.opt trailing (.phrase .separator)) back := by
  simp only [Rule.symbols, derivesAll_append_iff, derivesAll_cons_iff, derivesAll_nil_iff] at h
  obtain ⟨_, back, rfl, ⟨_, middle, rfl, ⟨front, _, rfl, hfront, x, _, rfl, hx, rfl⟩, hmiddle⟩,
    hback⟩ := h
  exact ⟨front, x, middle, back, by simp, hfront, hx, hmiddle, hback⟩

/-- Nor has a separator that may be missing. -/
theorem reads_opt_separator {b : Bool} {ts : List Tree}
    (h : DerivesAll (Rule.opt b (.phrase .separator)) ts) :
    (∀ scope, ReadsAll scope ts [] scope) ∧ allFaults ts = [] := by
  cases b with
  | false =>
    obtain rfl := derivesAll_nil_iff.mp h
    exact ⟨fun scope => .nil scope, rfl⟩
  | true =>
    obtain ⟨t, rfl, ht⟩ := derivesAll_singleton_iff.mp h
    refine ⟨fun scope => .cons (reads_separator ht scope).1 (.nil scope), ?_⟩
    rw [allFaults_singleton, (reads_separator ht []).2]

/-- A name is read as a local or as a call, and has no fault. -/
theorem answers_readName (t : Token) (scope : Scope) : Answers scope (readName t) []
    fun x scope' => Reads scope (.node (.name false) [.leaf t]) [x] scope' := by
  by_cases h : t.text ∈ scope
  · refine ⟨.localRead t.pos t.text, scope, ?_, .known h⟩
    simp [readName, h]
    rfl
  · refine ⟨.call t.pos none t.text [], scope, ?_, .unknown h⟩
    simp [readName, h]
    rfl

/-- Reading a tree as the phrase that it is answers what it prescribes. -/
structure Answered (t : Tree) : Prop where
  body : Derives (.phrase .body) t → ∀ scope,
    Answers scope (readBody t) (faults t) fun xs scope' => Reads scope t xs scope'
  more : Derives (.phrase .moreStatements) t → ∀ scope,
    Answers scope (readMore t) (faults t) fun xs scope' => Reads scope t xs scope'
  statement : ∀ {p : Phrase}, Derives (.phrase p) t → isStatement p → ∀ scope,
    Answers scope (readStatement t) (faults t) fun x scope' => Reads scope t [x] scope'
  expr : ∀ {p : Phrase}, Derives (.phrase p) t → isExpr p → ∀ scope,
    Answers scope (readExpr t) (faults t) fun x scope' => Reads scope t [x] scope'
  other : Derives (.phrase .elseClause) t → ∀ scope,
    Answers scope (readElse t) (faults t) fun x scope' => Reads scope t [x] scope'
  args : ∀ {p : Phrase}, Derives (.phrase p) t → isArgs p → ∀ scope,
    Answers scope (readArgs t) (faults t) fun xs scope' => Reads scope t xs scope'

variable {r : Rule} {p : Phrase}

/-- A body answers as its statements do. -/
theorem answers_readBody (ih : ∀ u ∈ ts, Answered u) (hr : r.phrase = .body)
    (hts : DerivesAll r.symbols ts) (scope : Scope) :
    Answers scope (readBody (.node r ts)) (faults (.node r ts))
      fun xs scope' => Reads scope (.node r ts) xs scope' := by
  cases r <;> cases hr
  case emptyBody =>
    obtain rfl := derivesAll_nil_iff.mp hts
    exact .pure (.pass rfl (.nil _))
  case blankBody =>
    simp only [Rule.symbols, derivesAll_cons_iff, derivesAll_nil_iff] at hts
    obtain ⟨separator, _, rfl, hseparator, rfl⟩ := hts
    obtain ⟨hreads, hfaults⟩ := reads_separator hseparator scope
    rw [readBody]
    refine .of_eq ?_ (.pure (.pass rfl (.cons hreads (.nil _))))
    simp [faults, allFaults, parameterFaults, hfaults]
  case body leading more trailing =>
    obtain ⟨front, x, middle, back, rfl, hfront, hx, hmiddle, hback⟩ := exists_of_body hts
    obtain ⟨hreads, hfaults⟩ := reads_opt_separator hback
    -- Terminators in front and behind stand for nothing; what is read are the statements.
    cases leading <;> cases more
    case false.false =>
      obtain rfl := derivesAll_nil_iff.mp hfront
      obtain rfl := derivesAll_nil_iff.mp hmiddle
      refine .of_eq ?_ (((ih x (by simp)).statement hx rfl scope).bind fun x _ hx =>
        .pure (.pass rfl (.single hx (hreads _))))
      simp [faults, allFaults, parameterFaults, hfaults]
    case false.true =>
      obtain rfl := derivesAll_nil_iff.mp hfront
      obtain ⟨more, rfl, hmore⟩ := derivesAll_singleton_iff.mp hmiddle
      refine .of_eq ?_ (((ih x (by simp)).statement hx rfl scope).bind fun x scope₁ hx =>
        ((ih more (by simp)).more hmore scope₁).bind fun xs _ hxs =>
          .pure (.pass rfl (.cons hx (.single hxs (hreads _)))))
      simp [faults, allFaults, parameterFaults, hfaults]
    case true.false =>
      obtain ⟨separator, rfl, hseparator⟩ := derivesAll_singleton_iff.mp hfront
      obtain rfl := derivesAll_nil_iff.mp hmiddle
      refine .of_eq ?_ (((ih x (by simp)).statement hx rfl scope).bind fun x _ hx =>
        .pure (.pass rfl (.cons (reads_separator hseparator _).1 (.single hx (hreads _)))))
      simp [faults, allFaults, parameterFaults, hfaults, (reads_separator hseparator []).2]
    case true.true =>
      obtain ⟨separator, rfl, hseparator⟩ := derivesAll_singleton_iff.mp hfront
      obtain ⟨more, rfl, hmore⟩ := derivesAll_singleton_iff.mp hmiddle
      refine .of_eq ?_ (((ih x (by simp)).statement hx rfl scope).bind fun x scope₁ hx =>
        ((ih more (by simp)).more hmore scope₁).bind fun xs _ hxs =>
          .pure (.pass rfl (.cons (reads_separator hseparator _).1
            (.cons hx (.single hxs (hreads _))))))
      simp [faults, allFaults, parameterFaults, hfaults, (reads_separator hseparator []).2]

/-- The statements that follow answer in their order. -/
theorem answers_readMore (ih : ∀ u ∈ ts, Answered u) (hr : r.phrase = .moreStatements)
    (hts : DerivesAll r.symbols ts) (scope : Scope) :
    Answers scope (readMore (.node r ts)) (faults (.node r ts))
      fun xs scope' => Reads scope (.node r ts) xs scope' := by
  cases r <;> cases hr <;>
    simp only [Rule.symbols, derivesAll_cons_iff, derivesAll_nil_iff] at hts
  case secondStatement =>
    obtain ⟨separator, _, rfl, hseparator, x, _, rfl, hx, rfl⟩ := hts
    obtain ⟨hreads, hfaults⟩ := reads_separator hseparator scope
    rw [readMore]
    refine .of_eq ?_ (((ih x (by simp)).statement hx rfl scope).bind fun x _ hx =>
      .pure (.pass rfl (.cons hreads (.single hx (.nil _)))))
    simp [faults, allFaults, parameterFaults, hfaults]
  case anotherStatement =>
    obtain ⟨more, _, rfl, hmore, separator, _, rfl, hseparator, x, _, rfl, hx, rfl⟩ := hts
    rw [readMore]
    -- The statements in front are read in the scope given, and the last one in the scope they
    -- leave.
    refine .of_eq ?_ (((ih more (by simp)).more hmore scope).bind fun xs scope₁ hxs =>
      ((ih x (by simp)).statement hx rfl scope₁).bind fun x _ hx =>
        .pure (.pass rfl (.cons hxs (.cons (reads_separator hseparator scope₁).1
          (.single hx (.nil _))))))
    simp [faults, allFaults, parameterFaults, (reads_separator hseparator scope).2]

/-- A statement answers as the rule it is derived by. -/
theorem answers_readStatement (ih : ∀ u ∈ ts, Answered u) (hp : isStatement r.phrase)
    (hts : DerivesAll r.symbols ts) (scope : Scope) :
    Answers scope (readStatement (.node r ts)) (faults (.node r ts))
      fun x scope' => Reads scope (.node r ts) [x] scope' := by
  cases r <;> cases hp
  case methodStatement | classStatement | assignStatement =>
    obtain ⟨u, rfl, hu⟩ := derivesAll_singleton_iff.mp hts
    rw [readStatement]
    refine .of_eq ?_ (((ih u (by simp)).statement hu rfl scope).mono fun x _ hx =>
      .pass rfl (.single hx (.nil _)))
    simp [faults, allFaults, parameterFaults]
  case exprStatement =>
    obtain ⟨u, rfl, hu⟩ := derivesAll_singleton_iff.mp hts
    rw [readStatement]
    refine .of_eq ?_ (((ih u (by simp)).expr hu rfl scope).mono fun x _ hx =>
      .pass rfl (.single hx (.nil _)))
    simp [faults, allFaults, parameterFaults]
  case methodDef hasParams =>
    cases hasParams <;>
      simp only [Rule.symbols, Rule.opt, if_true, Bool.false_eq_true, if_false, List.cons_append,
        List.nil_append, derivesAll_cons_iff, derivesAll_nil_iff, derives_token_iff] at hts
    -- Without a list there are no parameters that could be named twice.
    · obtain ⟨_, _, rfl, ⟨start, rfl, hstart⟩, _, _, rfl, ⟨name, rfl, hname⟩, body, _, rfl, hbody, _,
        _, rfl, ⟨fin, rfl, hfin⟩, rfl⟩ := hts
      rw [readStatement]
      refine .of_eq ?_ (((ih body (by simp)).body hbody []).inScope fun xs _ hxs =>
        .pure (.methodDef [] rfl rfl List.nodup_nil hxs))
      simp [faults, allFaults, parameterFaults, literalFaults, hstart, hname, hfin]
    -- The parameters are read before the body, so a name given twice is reported first.
    · obtain ⟨_, _, rfl, ⟨start, rfl, hstart⟩, _, _, rfl, ⟨name, rfl, hname⟩, list, _, rfl, hlist,
        body, _, rfl, hbody, _, _, rfl, ⟨fin, rfl, hfin⟩, rfl⟩ := hts
      obtain ⟨hparams, hfaults⟩ := paramTokens_list hlist
      rw [readStatement, hparams]
      refine .of_eq ?_ (.readParams fun hnodup => ((ih body (by simp)).body hbody _).inScope
        fun xs _ hxs => .pure (.methodDef [list] rfl rfl hnodup (map_name_parameters _ _ ▸ hxs)))
      simp [faults, allFaults, parameterFaults, literalFaults, hstart, hname, hfin, hfaults]
  case classDef =>
    simp only [Rule.symbols, derivesAll_cons_iff, derivesAll_nil_iff, derives_token_iff] at hts
    obtain ⟨_, _, rfl, ⟨start, rfl, hstart⟩, _, _, rfl, ⟨name, rfl, hname⟩, body, _, rfl, hbody, _,
      _, rfl, ⟨fin, rfl, hfin⟩, rfl⟩ := hts
    rw [readStatement]
    refine .of_eq ?_ (((ih body (by simp)).body hbody []).inScope fun xs _ hxs => .pure (.classDef hxs))
    simp [faults, allFaults, parameterFaults, literalFaults, hstart, hname, hfin]
  case assign =>
    simp only [Rule.symbols, derivesAll_cons_iff, derivesAll_nil_iff, derives_token_iff] at hts
    obtain ⟨_, _, rfl, ⟨name, rfl, hname⟩, _, _, rfl, ⟨equal, rfl, hequal⟩, value, _, rfl, hvalue,
      rfl⟩ := hts
    rw [readStatement]
    refine .of_eq ?_ (((ih value (by simp)).expr hvalue rfl scope).bind fun x scope' hx =>
      .modify _ (.pure (.assign hx)))
    simp [faults, allFaults, parameterFaults, literalFaults, hname, hequal]

/-- An expression answers as the rule it is derived by. -/
theorem answers_readExpr (ih : ∀ u ∈ ts, Answered u) (hp : isExpr r.phrase)
    (hts : DerivesAll r.symbols ts) (scope : Scope) :
    Answers scope (readExpr (.node r ts)) (faults (.node r ts))
      fun x scope' => Reads scope (.node r ts) [x] scope' := by
  cases r <;> cases hp
  case expr | singleTerm | singleChain | singlePrimary | primaryConditional =>
    obtain ⟨u, rfl, hu⟩ := derivesAll_singleton_iff.mp hts
    rw [readExpr]
    refine .of_eq ?_ (((ih u (by simp)).expr hu rfl scope).mono fun x _ hx =>
      .pass rfl (.single hx (.nil _)))
    simp [faults, allFaults, parameterFaults]
  case plus | minus | times | divide =>
    simp only [Rule.symbols, derivesAll_cons_iff, derivesAll_nil_iff, derives_token_iff] at hts
    obtain ⟨left, _, rfl, hleft, _, _, rfl, ⟨op, rfl, hop⟩, right, _, rfl, hright, rfl⟩ := hts
    rw [readExpr]
    refine .of_eq ?_ (((ih left (by simp)).expr hleft rfl scope).bind fun x scope₁ hx =>
      ((ih right (by simp)).expr hright rfl scope₁).bind fun y _ hy => .pure (.binary rfl hx hy))
    simp [faults, allFaults, parameterFaults, literalFaults, hop]
  case message hasArgs =>
    cases hasArgs <;>
      simp only [Rule.symbols, Rule.opt, if_true, Bool.false_eq_true, if_false, List.cons_append,
        List.nil_append, derivesAll_cons_iff, derivesAll_nil_iff, derives_token_iff] at hts
    · obtain ⟨receiver, _, rfl, hreceiver, _, _, rfl, ⟨dot, rfl, hdot⟩, _, _, rfl,
        ⟨name, rfl, hname⟩, rfl⟩ := hts
      rw [readExpr]
      refine .of_eq ?_ (((ih receiver (by simp)).expr hreceiver rfl scope).bind fun x _ hx =>
        .pure (.message hx (.nil _)))
      simp [faults, allFaults, parameterFaults, literalFaults, hdot, hname]
    · obtain ⟨receiver, _, rfl, hreceiver, _, _, rfl, ⟨dot, rfl, hdot⟩, _, _, rfl,
        ⟨name, rfl, hname⟩, args, _, rfl, hargs, rfl⟩ := hts
      rw [readExpr]
      refine .of_eq ?_ (((ih receiver (by simp)).expr hreceiver rfl scope).bind fun x scope₁ hx =>
        ((ih args (by simp)).args hargs rfl scope₁).bind fun xs _ hxs =>
          .pure (.message hx (.single hxs (.nil _))))
      simp [faults, allFaults, parameterFaults, literalFaults, hdot, hname]
  -- The only expressions that can be wrong by themselves are literals.
  case integer =>
    obtain ⟨_, rfl, hleaf⟩ := derivesAll_singleton_iff.mp hts
    obtain ⟨token, rfl, hkind⟩ := hleaf.exists_leaf
    rw [readExpr, readInteger]
    by_cases hcount : maxDigits < digitCount token.text.toList
    · simp [faults, allFaults, parameterFaults, literalFaults, hkind, hcount]
      rfl
    · rw [if_neg hcount]
      refine .of_eq ?_ (.pure (.integer scope (Nat.not_lt.mp hcount)))
      simp [faults, allFaults, parameterFaults, literalFaults, hkind, hcount]
  case nil =>
    obtain ⟨_, rfl, hleaf⟩ := derivesAll_singleton_iff.mp hts
    obtain ⟨token, rfl, hkind⟩ := hleaf.exists_leaf
    refine .of_eq ?_ (.pure (.nil scope token))
    simp [faults, allFaults, parameterFaults, literalFaults, hkind]
  case constant =>
    obtain ⟨_, rfl, hleaf⟩ := derivesAll_singleton_iff.mp hts
    obtain ⟨token, rfl, hkind⟩ := hleaf.exists_leaf
    refine .of_eq ?_ (.pure (.constant scope token))
    simp [faults, allFaults, parameterFaults, literalFaults, hkind]
  case text =>
    obtain ⟨_, rfl, hleaf⟩ := derivesAll_singleton_iff.mp hts
    obtain ⟨token, rfl, hkind⟩ := hleaf.exists_leaf
    rw [readExpr, readString]
    cases hvalue : decodeLiteral token.text.toList with
    | ok value =>
      refine .of_eq ?_ (.pure (.text scope (decodeLiteral_eq_ok_iff.mp hvalue)))
      simp [faults, allFaults, parameterFaults, literalFaults, hkind, hvalue]
    | error c =>
      simp [faults, allFaults, parameterFaults, literalFaults, hkind, hvalue]
      rfl
  case name hasArgs =>
    cases hasArgs
    · obtain ⟨_, rfl, hleaf⟩ := derivesAll_singleton_iff.mp hts
      obtain ⟨token, rfl, hkind⟩ := hleaf.exists_leaf
      rw [readExpr]
      refine .of_eq ?_ (answers_readName token scope)
      simp [faults, allFaults, parameterFaults, literalFaults, hkind]
    · simp only [Rule.symbols, Rule.opt, if_true, derivesAll_cons_iff, derivesAll_nil_iff,
        derives_token_iff] at hts
      obtain ⟨_, _, rfl, ⟨token, rfl, hkind⟩, args, _, rfl, hargs, rfl⟩ := hts
      rw [readExpr]
      refine .of_eq ?_ (((ih args (by simp)).args hargs rfl scope).bind fun xs _ hxs =>
        .pure (.call hxs))
      simp [faults, allFaults, parameterFaults, literalFaults, hkind]
  case conditional then? else? =>
    -- The `then` stands for nothing, and another branch is read behind the first one.
    cases then? <;> cases else? <;>
      simp only [Rule.symbols, Rule.opt, if_true, Bool.false_eq_true, if_false, List.cons_append,
        List.nil_append, derivesAll_cons_iff, derivesAll_nil_iff, derives_token_iff] at hts
    case false.false =>
      obtain ⟨_, _, rfl, ⟨start, rfl, hstart⟩, condition, _, rfl, hcondition, body, _, rfl, hbody, _,
        _, rfl, ⟨fin, rfl, hfin⟩, rfl⟩ := hts
      rw [readExpr]
      refine .of_eq ?_ (((ih condition (by simp)).expr hcondition rfl scope).bind fun c scope₁ hc =>
        ((ih body (by simp)).body hbody scope₁).bind fun xs scope₂ hxs =>
          .pure (.conditional [] rfl rfl hc hxs (.single (.token _ _) (.nil _))))
      simp [faults, allFaults, parameterFaults, literalFaults, hstart, hfin]
    case true.false =>
      obtain ⟨_, _, rfl, ⟨start, rfl, hstart⟩, condition, _, rfl, hcondition, _, _, rfl,
        ⟨th, rfl, hth⟩, body, _, rfl, hbody, _, _, rfl, ⟨fin, rfl, hfin⟩, rfl⟩ := hts
      rw [readExpr]
      refine .of_eq ?_ (((ih condition (by simp)).expr hcondition rfl scope).bind fun c scope₁ hc =>
        ((ih body (by simp)).body hbody scope₁).bind fun xs scope₂ hxs =>
          .pure (.conditional [.leaf th] rfl rfl hc hxs (.single (.token _ _) (.nil _))))
      simp [faults, allFaults, parameterFaults, literalFaults, hstart, hth, hfin]
    case false.true =>
      obtain ⟨_, _, rfl, ⟨start, rfl, hstart⟩, condition, _, rfl, hcondition, body, _, rfl, hbody,
        other, _, rfl, hother, _, _, rfl, ⟨fin, rfl, hfin⟩, rfl⟩ := hts
      rw [readExpr]
      refine .of_eq ?_ (((ih condition (by simp)).expr hcondition rfl scope).bind fun c scope₁ hc =>
        ((ih body (by simp)).body hbody scope₁).bind fun xs scope₂ hxs =>
          ((ih other (by simp)).other hother scope₂).bind fun b _ hb =>
            .pure (.conditional [] rfl rfl hc hxs (.single hb (.single (.token _ _) (.nil _)))))
      simp [faults, allFaults, parameterFaults, literalFaults, hstart, hfin]
    case true.true =>
      obtain ⟨_, _, rfl, ⟨start, rfl, hstart⟩, condition, _, rfl, hcondition, _, _, rfl,
        ⟨th, rfl, hth⟩, body, _, rfl, hbody, other, _, rfl, hother, _, _, rfl, ⟨fin, rfl, hfin⟩,
        rfl⟩ := hts
      rw [readExpr]
      refine .of_eq ?_ (((ih condition (by simp)).expr hcondition rfl scope).bind fun c scope₁ hc =>
        ((ih body (by simp)).body hbody scope₁).bind fun xs scope₂ hxs =>
          ((ih other (by simp)).other hother scope₂).bind fun b _ hb =>
            .pure (.conditional [.leaf th] rfl rfl hc hxs
              (.single hb (.single (.token _ _) (.nil _)))))
      simp [faults, allFaults, parameterFaults, literalFaults, hstart, hth, hfin]

/-- An else answers as its body does, an elsif as a conditional. -/
theorem answers_readElse (ih : ∀ u ∈ ts, Answered u) (hr : r.phrase = .elseClause)
    (hts : DerivesAll r.symbols ts) (scope : Scope) :
    Answers scope (readElse (.node r ts)) (faults (.node r ts))
      fun x scope' => Reads scope (.node r ts) [x] scope' := by
  cases r <;> cases hr
  case elsifClause then? else? =>
    -- Read like a conditional, but there is no token behind the branches.
    cases then? <;> cases else? <;>
      simp only [Rule.symbols, Rule.opt, if_true, Bool.false_eq_true, if_false, List.cons_append,
        List.nil_append, List.append_nil, derivesAll_cons_iff, derivesAll_nil_iff,
        derives_token_iff] at hts
    case false.false =>
      obtain ⟨_, _, rfl, ⟨start, rfl, hstart⟩, condition, _, rfl, hcondition, body, _, rfl, hbody,
        rfl⟩ := hts
      rw [readElse]
      refine .of_eq ?_ (((ih condition (by simp)).expr hcondition rfl scope).bind fun c scope₁ hc =>
        ((ih body (by simp)).body hbody scope₁).bind fun xs scope₂ hxs =>
          .pure (.elsifClause [] rfl rfl hc hxs (.nil _)))
      simp [faults, allFaults, parameterFaults, literalFaults, hstart]
    case true.false =>
      obtain ⟨_, _, rfl, ⟨start, rfl, hstart⟩, condition, _, rfl, hcondition, _, _, rfl,
        ⟨th, rfl, hth⟩, body, _, rfl, hbody, rfl⟩ := hts
      rw [readElse]
      refine .of_eq ?_ (((ih condition (by simp)).expr hcondition rfl scope).bind fun c scope₁ hc =>
        ((ih body (by simp)).body hbody scope₁).bind fun xs scope₂ hxs =>
          .pure (.elsifClause [.leaf th] rfl rfl hc hxs (.nil _)))
      simp [faults, allFaults, parameterFaults, literalFaults, hstart, hth]
    case false.true =>
      obtain ⟨_, _, rfl, ⟨start, rfl, hstart⟩, condition, _, rfl, hcondition, body, _, rfl, hbody,
        other, _, rfl, hother, rfl⟩ := hts
      rw [readElse]
      refine .of_eq ?_ (((ih condition (by simp)).expr hcondition rfl scope).bind fun c scope₁ hc =>
        ((ih body (by simp)).body hbody scope₁).bind fun xs scope₂ hxs =>
          ((ih other (by simp)).other hother scope₂).bind fun b _ hb =>
            .pure (.elsifClause [] rfl rfl hc hxs (.single hb (.nil _))))
      simp [faults, allFaults, parameterFaults, literalFaults, hstart]
    case true.true =>
      obtain ⟨_, _, rfl, ⟨start, rfl, hstart⟩, condition, _, rfl, hcondition, _, _, rfl,
        ⟨th, rfl, hth⟩, body, _, rfl, hbody, other, _, rfl, hother, rfl⟩ := hts
      rw [readElse]
      refine .of_eq ?_ (((ih condition (by simp)).expr hcondition rfl scope).bind fun c scope₁ hc =>
        ((ih body (by simp)).body hbody scope₁).bind fun xs scope₂ hxs =>
          ((ih other (by simp)).other hother scope₂).bind fun b _ hb =>
            .pure (.elsifClause [.leaf th] rfl rfl hc hxs (.single hb (.nil _))))
      simp [faults, allFaults, parameterFaults, literalFaults, hstart, hth]
  case elseClause =>
    simp only [Rule.symbols, derivesAll_cons_iff, derivesAll_nil_iff, derives_token_iff] at hts
    obtain ⟨_, _, rfl, ⟨start, rfl, hstart⟩, body, _, rfl, hbody, rfl⟩ := hts
    rw [readElse]
    refine .of_eq ?_ (((ih body (by simp)).body hbody scope).bind fun xs _ hxs =>
      .pure (.elseClause hxs))
    simp [faults, allFaults, parameterFaults, literalFaults, hstart]

/-- Arguments answer from left to right. -/
theorem answers_readArgs (ih : ∀ u ∈ ts, Answered u) (hp : isArgs r.phrase)
    (hts : DerivesAll r.symbols ts) (scope : Scope) :
    Answers scope (readArgs (.node r ts)) (faults (.node r ts))
      fun xs scope' => Reads scope (.node r ts) xs scope' := by
  cases r <;> cases hp
  case noArgs =>
    simp only [Rule.symbols, derivesAll_cons_iff, derivesAll_nil_iff, derives_token_iff] at hts
    obtain ⟨_, _, rfl, ⟨lpar, rfl, hlpar⟩, _, _, rfl, ⟨rpar, rfl, hrpar⟩, rfl⟩ := hts
    refine .of_eq ?_ (.pure (.pass rfl (.cons (.token _ _) (.cons (.token _ _) (.nil _)))))
    simp [faults, allFaults, parameterFaults, literalFaults, hlpar, hrpar]
  case args more =>
    cases more <;>
      simp only [Rule.symbols, Rule.opt, if_true, Bool.false_eq_true, if_false, List.cons_append,
        List.nil_append, derivesAll_cons_iff, derivesAll_nil_iff, derives_token_iff] at hts
    · obtain ⟨_, _, rfl, ⟨lpar, rfl, hlpar⟩, x, _, rfl, hx, _, _, rfl, ⟨rpar, rfl, hrpar⟩, rfl⟩ := hts
      rw [readArgs]
      refine .of_eq ?_ (((ih x (by simp)).expr hx rfl scope).bind fun x _ hx =>
        .pure (.pass rfl (.cons (.token _ _) (.single hx (.single (.token _ _) (.nil _))))))
      simp [faults, allFaults, parameterFaults, literalFaults, hlpar, hrpar]
    · obtain ⟨_, _, rfl, ⟨lpar, rfl, hlpar⟩, x, _, rfl, hx, more, _, rfl, hmore, _, _, rfl,
        ⟨rpar, rfl, hrpar⟩, rfl⟩ := hts
      rw [readArgs]
      refine .of_eq ?_ (((ih x (by simp)).expr hx rfl scope).bind fun x scope₁ hx =>
        ((ih more (by simp)).args hmore rfl scope₁).bind fun xs _ hxs =>
          .pure (.pass rfl (.cons (.token _ _) (.cons hx (.single hxs
            (.single (.token _ _) (.nil _)))))))
      simp [faults, allFaults, parameterFaults, literalFaults, hlpar, hrpar]
  -- The arguments behind the first one are collected from the left.
  case secondArg =>
    simp only [Rule.symbols, derivesAll_cons_iff, derivesAll_nil_iff, derives_token_iff] at hts
    obtain ⟨_, _, rfl, ⟨comma, rfl, hcomma⟩, x, _, rfl, hx, rfl⟩ := hts
    rw [readArgs]
    refine .of_eq ?_ (((ih x (by simp)).expr hx rfl scope).bind fun x _ hx =>
      .pure (.pass rfl (.cons (.token _ _) (.single hx (.nil _)))))
    simp [faults, allFaults, parameterFaults, literalFaults, hcomma]
  case anotherArg =>
    simp only [Rule.symbols, derivesAll_cons_iff, derivesAll_nil_iff, derives_token_iff] at hts
    obtain ⟨more, _, rfl, hmore, _, _, rfl, ⟨comma, rfl, hcomma⟩, x, _, rfl, hx, rfl⟩ := hts
    rw [readArgs]
    refine .of_eq ?_ (((ih more (by simp)).args hmore rfl scope).bind fun xs scope₁ hxs =>
      ((ih x (by simp)).expr hx rfl scope₁).bind fun x _ hx =>
        .pure (.pass rfl (.cons hxs (.cons (.token _ _) (.single hx (.nil _))))))
    simp [faults, allFaults, parameterFaults, literalFaults, hcomma]

/-- **Reading follows the derivation**, tree by tree. -/
theorem answered (t : Tree) : Answered t := by
  -- A tree follows the rule at its root, which settles what phrase it can be read as.
  induction t using Tree.induction_parts with
  | leaf token =>
    exact ⟨fun h => absurd h not_derives_leaf, fun h => absurd h not_derives_leaf,
      fun h => absurd h not_derives_leaf, fun h => absurd h not_derives_leaf,
      fun h => absurd h not_derives_leaf, fun h => absurd h not_derives_leaf⟩
  | node r ts ih =>
    have hphrase : ∀ {p}, Derives (.phrase p) (.node r ts) → p = r.phrase :=
      fun h => Symbol.phrase.inj (derives_node_iff.mp h).1
    exact {
      body := fun h => answers_readBody ih (hphrase h).symm (derives_node_iff.mp h).2
      more := fun h => answers_readMore ih (hphrase h).symm (derives_node_iff.mp h).2
      statement := fun h hp =>
        answers_readStatement ih (hphrase h ▸ hp) (derives_node_iff.mp h).2
      expr := fun h hp => answers_readExpr ih (hphrase h ▸ hp) (derives_node_iff.mp h).2
      other := fun h => answers_readElse ih (hphrase h).symm (derives_node_iff.mp h).2
      args := fun h hp => answers_readArgs ih (hphrase h ▸ hp) (derives_node_iff.mp h).2 }

/-- **Reading a program answers what its derivation prescribes**, or fails on what is wrong with it
first. -/
theorem ofTree_of_derives {t : Tree} (h : Derives (.phrase .program) t) :
    match faults t with
    | [] => ∃ root, ofTree t = .ok root ∧ Prescribes t root
    | e :: _ => ofTree t = .error e := by
  obtain ⟨r, ts, rfl, hr, hts⟩ := h.exists_node
  cases r <;> cases hr
  obtain ⟨body, rfl, hbody⟩ := derivesAll_singleton_iff.mp hts
  have hanswers := (answered body).body hbody []
  have hfaults : faults (.node .program [body]) = faults body := by
    simp [faults, allFaults, parameterFaults]
  rw [hfaults]
  -- The body answers with its faults, and they are the faults of the program.
  revert hanswers
  cases faults body with
  | nil =>
    rintro ⟨xs, scope, hrun, hxs⟩
    refine ⟨.block .start xs, ?_, xs, scope, .pass rfl (.single hxs (.nil _)), rfl⟩
    rw [ofTree, hrun]
    rfl
  | cons e es =>
    intro hrun
    show ofTree _ = _
    rw [ofTree, show (readBody body).run [] = .error e from hrun]
    rfl

/-- Nothing is wrong with a program that is read, and it is read as its derivation prescribes. -/
theorem prescribes_of_ofTree {t : Tree} {root : Node} (h : Derives (.phrase .program) t)
    (hroot : ofTree t = .ok root) : faults t = [] ∧ Prescribes t root := by
  have hread := ofTree_of_derives h
  -- A fault would have been reported in the place of a root.
  cases hfaults : faults t with
  | nil =>
    rw [hfaults] at hread
    obtain ⟨root', hroot', hprescribes⟩ := hread
    obtain rfl := Except.ok.inj (hroot.symm.trans hroot')
    exact ⟨rfl, hprescribes⟩
  | cons e es =>
    rw [hfaults] at hread
    exact absurd (hroot.symm.trans hread) nofun

/-- What reading a program fails on is wrong with it. -/
theorem mem_faults_of_ofTree {t : Tree} {e : StageError} (h : Derives (.phrase .program) t)
    (he : ofTree t = .error e) : e ∈ faults t := by
  have hread := ofTree_of_derives h
  -- The error is the first of the faults.
  cases hfaults : faults t with
  | nil =>
    rw [hfaults] at hread
    obtain ⟨root, hroot, -⟩ := hread
    exact absurd (hroot.symm.trans he) nofun
  | cons err errs =>
    rw [hfaults] at hread
    obtain rfl := Except.error.inj (hread.symm.trans he)
    exact .head _

end Leaves

/-! ### Trees of tokens -/

/-- Tokens without a lexical error are parsed. -/
theorem treeOf_eq (tokens : List Token) :
    treeOf ⟨tokens, none⟩ = (Parse.tree tokens).mapError syntaxError :=
  bind_mapError _ _ _

/-- The parser finds the tree that derives the tokens. -/
theorem treeOf_eq_ok_iff {tokens : List Token} {t : Tree} :
    treeOf ⟨tokens, none⟩ = .ok t ↔ Derives (.phrase .program) t ∧ t.tokens = tokens := by
  rw [treeOf_eq, mapError_eq_ok_iff, Parse.tree_eq_ok_iff]

/-- The tree of a program text without a lexical error is the derivation of its tokens. -/
theorem treeOf_of_derives {source : String} {t : Tree}
    (hlex : (Terminator.read source).error? = none) (ht : Derives (.phrase .program) t)
    (htokens : t.tokens = (Terminator.read source).tokens) :
    treeOf (Terminator.read source) = .ok t := by
  have hstream : Terminator.read source = ⟨t.tokens, none⟩ := by
    rw [htokens, ← hlex]
  rw [hstream]
  exact treeOf_eq_ok_iff.mpr ⟨ht, rfl⟩

/-- The tree of a program text derives its tokens: there is no lexical error then. -/
theorem tokens_of_treeOf {source : String} {t : Tree}
    (h : treeOf (Terminator.read source) = .ok t) :
    Derives (.phrase .program) t ∧ t.tokens = (Terminator.read source).tokens := by
  generalize Terminator.read source = stream at h
  obtain ⟨tokens, error?⟩ := stream
  cases error? with
  | none => exact treeOf_eq_ok_iff.mp h
  | some lexical =>
    obtain ⟨stack, -, h⟩ := exists_of_bind_eq_ok h
    cases h

/-- A program text without a lexical error is read from the tree of its tokens. -/
theorem read_of_derives {source : String} {t : Tree} (hlex : (Terminator.read source).error? = none)
    (ht : Derives (.phrase .program) t) (htokens : t.tokens = (Terminator.read source).tokens) :
    read source = ofTree t := by
  rw [read, treeOf_of_derives hlex ht htokens]
  rfl

end Syntax

end Rubylet
