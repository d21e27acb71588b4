import Mathlib.Algebra.Ring.Int.Defs
import Rubylet.Proofs.Syntax.Descent
import Rubylet.Proofs.Syntax.Surface
import Rubylet.Proofs.Syntax.Unlined

/-!
# Expressions as arguments

Inside the parentheses of a call all newlines are dropped, those that end a statement in the body of
a conditional included.

* An expression that is a program by itself can be passed to a call as it stands, newlines included,
  if a semicolon stands between every two statements in it (`argument_parses`).

* Where nothing but a newline stands between two statements, the call may be no program, and bodies
  that begin with a newline stand elsewhere in it (`newlines_are_lost`).

That some tokens are no program is shown by a count: a phrase has enough terminators, operators and
keywords to keep its operands apart (`Tree.surplus_le`).
-/

namespace Rubylet

/-! ### A count of operands -/

/-- How many more operands there may be for a token of some kind. -/
def TokenKind.surplus : TokenKind → Int
  | .name | .const | .int | .string | .kwNil => 1
  | .kwEnd | .rpar | .kwThen | .newline | .semi => 0
  | .kwElsif => -2
  | _ => -1

/-- How many more operands than tokens between them a phrase has at most. -/
def Phrase.surplus : Phrase → Int
  | .separator | .terminators => -1
  | .moreStatements | .paramList | .moreParams | .elseClause | .callArgs | .moreArgs => 0
  | _ => 1

/-- The same for a symbol. -/
def Symbol.surplus : Symbol → Int
  | .token kind => kind.surplus
  | .phrase p => p.surplus

theorem Rule.sum_surplus_le (r : Rule) : (r.symbols.map Symbol.surplus).sum ≤ r.phrase.surplus :=
  of_decide_eq_true (Phrase.forall_rule
    (f := fun p r => decide ((r.symbols.map Symbol.surplus).sum ≤ p.surplus)) (by decide) r)

/-- How many more operands than tokens between them some tokens have. -/
def surplus (ts : List Token) : Int := (ts.map fun t => t.kind.surplus).sum

namespace Tree

mutual

/-- **There are no more operands than the tokens between them allow.** -/
theorem surplus_le {s : Symbol} {t : Tree} (h : Derives s t) : surplus t.tokens ≤ s.surplus :=
  match h with
  | .leaf token => by simp [surplus, Tree.tokens, Symbol.surplus]
  | .node r _ hts => (surplus_all_le hts).trans r.sum_surplus_le

theorem surplus_all_le {ss : List Symbol} {ts : List Tree} (h : DerivesAll ss ts) :
    surplus (allTokens ts) ≤ (ss.map Symbol.surplus).sum :=
  match h with
  | .nil => le_rfl
  | .cons ht hts => by
    rw [allTokens, surplus, List.map_append, List.sum_append, List.map_cons, List.sum_cons]
    exact Int.add_le_add (surplus_le ht) (surplus_all_le hts)

end

end Tree

namespace Syntax

open Rubylet.Tree Terminator

/-- What tokens of the lexer are read as. -/
def parse (ts : List Token) : Except StageError Node :=
  (treeOf ⟨Terminator.insert ts, none⟩).mapError .compile >>= ofTree

/-! ### Programs of one expression -/

variable {scope scope' : Scope} {t : Tree} {ts : List Tree} {tokens : List Token} {x : Node}
  {xs : List Node}

/-- Statements and expressions stand for one piece of syntax each. -/
theorem exists_of_reads {p : Phrase} (h : Derives (.phrase p) t) (hp : isStatement p ∨ isExpr p)
    (hread : Reads scope t xs scope') : ∃ x, xs = [x] := by
  -- On the tree: the rules that pass a reading on have one part.
  induction t using Tree.induction_parts generalizing p scope scope' xs with
  | leaf token => exact absurd h not_derives_leaf
  | node r ts ih =>
    obtain ⟨hr, hts⟩ := derives_node_iff.mp h
    obtain rfl := Symbol.phrase.inj hr
    cases hread with
    | pass hpass hreads =>
      have hone {p : Phrase} (hp : isStatement p ∨ isExpr p) (hts : DerivesAll [.phrase p] ts) :
          ∃ x, xs = [x] := by
        obtain ⟨u, rfl, hu⟩ := derivesAll_singleton_iff.mp hts
        exact ih u (.head _) hu hp hreads.of_singleton
      cases r <;> first
        | cases hpass; done
        | exact hone (.inl rfl) hts
        | exact hone (.inr rfl) hts
        | rcases hp with hp | hp <;> cases hp
    | _ => exact ⟨_, rfl⟩

/-- One statement or more stand for some syntax. -/
theorem ne_nil_of_more (h : Derives (.phrase .moreStatements) t) (hread : Reads scope t xs scope') :
    xs ≠ [] := by
  -- The last statement is read, whatever stands before it.
  have hlast (front : List Tree) {u : Tree} (hu : Derives (.phrase .statement) u)
      (hreads : ReadsAll scope (front ++ [u]) xs scope') : xs ≠ [] := by
    obtain ⟨ys, zs, scope₁, -, hzs, rfl⟩ := hreads.exists_append
    obtain ⟨z, rfl⟩ := exists_of_reads hu (.inl rfl) hzs.of_singleton
    simp
  obtain ⟨r, ts, rfl, hr, hts⟩ := h.exists_node
  cases r <;> cases hr <;> simp only [Rule.symbols, derivesAll_cons_iff, derivesAll_nil_iff] at hts
  case secondStatement =>
    obtain ⟨separator, _, rfl, -, u, _, rfl, hu, rfl⟩ := hts
    exact hlast [separator] hu (hread.parts rfl)
  case anotherStatement =>
    obtain ⟨more, _, rfl, -, separator, _, rfl, -, u, _, rfl, hu, rfl⟩ := hts
    exact hlast [more, separator] hu (hread.parts rfl)

/-- There is no separator where there are no terminators. -/
theorem eq_nil_of_opt_separator {b : Bool} (h : DerivesAll (Rule.opt b (.phrase .separator)) ts)
    (hts : allTokens ts = []) : b = false ∧ ts = [] := by
  cases b with
  | false => exact ⟨rfl, derivesAll_nil_iff.mp h⟩
  | true =>
    have hsurplus := surplus_all_le h
    rw [hts] at hsurplus
    exact absurd hsurplus (by decide)

/-- A body of one statement with no terminator at its ends is the statement. -/
theorem exists_of_one (h : Derives (.phrase .body) t) (hread : Reads scope t [x] scope')
    (hhead : ∀ u ∈ t.tokens.head?, u.kind ≠ .terminator)
    (hlast : ∀ u ∈ t.tokens.getLast?, u.kind ≠ .terminator) :
    ∃ u, t = .node (.body false false false) [u] ∧ Derives (.phrase .statement) u ∧
      Reads scope u [x] scope' := by
  obtain ⟨r, ts, rfl, hr, hts⟩ := h.exists_node
  cases r <;> cases hr
  case emptyBody =>
    obtain rfl := derivesAll_nil_iff.mp hts
    cases hread.parts rfl
  case blankBody =>
    have hnone := (reads_opt_separator (b := true) hts).1 scope
    cases ((hread.parts rfl).unique hnone).1
  case body leading more trailing =>
    have hreads := hread.parts rfl
    obtain ⟨front, u, middle, back, rfl, hfront, hu, hmiddle, hback⟩ := exists_of_body hts
    -- A terminator of either separator would be at an end of the body.
    have hfront' : allTokens front = [] := by
      cases htokens : allTokens front with
      | nil => rfl
      | cons v vs =>
        refine absurd (kind_of_opt_separator hfront v (by simp [htokens])) (hhead v ?_)
        simp [Tree.tokens, allTokens_append, htokens]
    have hback' : allTokens back = [] := by
      rcases List.eq_nil_or_concat (allTokens back) with htokens | ⟨vs, v, htokens⟩
      · exact htokens
      · refine absurd (kind_of_opt_separator hback v (by simp [htokens])) (hlast v ?_)
        simp [Tree.tokens, allTokens, allTokens_append, htokens]
    obtain ⟨rfl, rfl⟩ := eq_nil_of_opt_separator hfront hfront'
    obtain ⟨rfl, rfl⟩ := eq_nil_of_opt_separator hback hback'
    rw [List.nil_append, List.append_nil] at hreads
    obtain ⟨ys, zs, scope₁, hys, hzs, hxs⟩ :=
      (show ReadsAll scope ([u] ++ middle) [x] scope' from hreads).exists_append
    -- The first statement stands for all that is read, so nothing is left for a second one.
    obtain ⟨y, rfl⟩ := exists_of_reads hu (.inl rfl) hys.of_singleton
    obtain ⟨rfl, rfl⟩ := List.cons.inj hxs
    cases more with
    | true =>
      obtain ⟨m, rfl, hm⟩ := derivesAll_singleton_iff.mp hmiddle
      exact absurd rfl (ne_nil_of_more hm hzs.of_singleton)
    | false =>
      obtain rfl := derivesAll_nil_iff.mp hmiddle
      cases hzs
      exact ⟨u, rfl, hu, hys.of_singleton⟩

theorem exists_expr_of_statement (h : Derives (.phrase .statement) t)
    (hread : Reads scope t [x] scope') (hx : Surface (.expr x)) :
    ∃ e, t = .node .exprStatement [e] ∧ Derives (.phrase .expr) e ∧ Reads scope e [x] scope' := by
  obtain ⟨r, ts, rfl, hr, hts⟩ := h.exists_node
  cases r <;> cases hr
  case exprStatement =>
    obtain ⟨e, rfl, he⟩ := derivesAll_singleton_iff.mp hts
    exact ⟨e, rfl, he, (hread.parts rfl).of_singleton⟩
  -- The other statements are read as something that is no expression.
  all_goals
    obtain ⟨u, rfl, hu⟩ := derivesAll_singleton_iff.mp hts
    obtain ⟨r, us, rfl, hr, -⟩ := hu.exists_node
    cases r <;> cases hr
    cases (hread.parts rfl).of_singleton with
    | pass hr => cases hr
    | binary hr => cases hr
    | _ => cases hx

/-- The tree of a program of one expression. -/
def programOf (e : Tree) : Tree :=
  .node .program [.node (.body false false false) [.node .exprStatement [e]]]

/-- A tree that spans the tokens is the one the parser finds. -/
theorem parse_of_derives (ht : Derives (.phrase .program) t)
    (htokens : t.tokens = Terminator.insert tokens) : parse tokens = ofTree t := by
  rw [parse, treeOf_eq_ok_iff.mpr ⟨ht, htokens⟩]
  rfl

/-- A program of one expression is read as the expression is. -/
theorem parse_of_expr {e : Tree} (he : Derives (.phrase .expr) e)
    (htokens : e.tokens = Terminator.insert tokens) (hfaults : faults e = [])
    (hread : Reads [] e [x] scope) : parse tokens = .ok (.block .start [x]) := by
  have ht : Derives (.phrase .program) (programOf e) :=
    .node .program _ (.cons (.node (.body false false false) _
      (.cons (.node .exprStatement _ (.cons he .nil)) .nil)) .nil)
  -- The program has one statement, and that one is the expression.
  have hx : Prescribes (programOf e) (.block .start [x]) :=
    ⟨[x], scope, .pass rfl (.single (.pass rfl (.single (.pass rfl (.single hread (.nil _)))
      (.nil _))) (.nil _)), rfl⟩
  have hnone : faults (programOf e) = [] := by
    simpa [programOf, faults, allFaults, parameterFaults] using hfaults
  have hok := ofTree_of_derives ht
  rw [hnone] at hok
  obtain ⟨root, hroot, hprescribes⟩ := hok
  rw [parse_of_derives ht (by simpa [programOf, Tree.tokens, allTokens] using htokens),
    ← hprescribes.unique hx]
  exact hroot

/-- The derivation of a program of one expression without terminators around it. -/
theorem exists_expr_of_parse (h : parse tokens = .ok (.block .start [x])) (hx : Surface (.expr x))
    (hhead : ∀ u ∈ (Terminator.insert tokens).head?, u.kind ≠ .terminator)
    (hlast : ∀ u ∈ (Terminator.insert tokens).getLast?, u.kind ≠ .terminator) :
    ∃ e scope, treeOf ⟨Terminator.insert tokens, none⟩ = .ok (programOf e) ∧
      Derives (.phrase .expr) e ∧ e.tokens = Terminator.insert tokens ∧ faults e = [] ∧
        Reads [] e [x] scope := by
  obtain ⟨t, ht, hroot⟩ := exists_of_bind_eq_ok h
  have ht := mapError_eq_ok_iff.mp ht
  obtain ⟨hderives, htokens⟩ := treeOf_eq_ok_iff.mp ht
  rw [← htokens] at hhead hlast
  -- Back from the root to its tree, then down through the body to the one statement.
  obtain ⟨hfaults, statements, scope, hread, heq⟩ := prescribes_of_ofTree hderives hroot
  obtain ⟨-, rfl⟩ := Node.block.inj heq
  obtain ⟨r, ts, rfl, hr, hts⟩ := hderives.exists_node
  cases r <;> cases hr
  obtain ⟨body, rfl, hbody⟩ := derivesAll_singleton_iff.mp hts
  have htokens' : (Tree.node .program [body]).tokens = body.tokens := List.append_nil _
  rw [htokens'] at hhead hlast
  -- No terminator stands at either end, so there is nothing beside the statement.
  obtain ⟨u, rfl, hu, hone⟩ := exists_of_one hbody (hread.parts rfl).of_singleton hhead hlast
  obtain ⟨e, rfl, he, hone⟩ := exists_expr_of_statement hu hone hx
  refine ⟨e, scope, ht, he, ?_, ?_, hone⟩
  · simpa [Tree.tokens, allTokens] using htokens
  · simpa [faults, allFaults, parameterFaults] using hfaults

/-! ### Arguments -/

/-- The tree of a call with one argument. -/
def callOf (name lpar : Token) (arg : Tree) (rpar : Token) : Tree :=
  .node .expr [.node .singleTerm [.node .singleChain [.node .singlePrimary [.node (.name true)
    [.leaf name, .node (.args false) [.leaf lpar, arg, .leaf rpar]]]]]]

/-- A name with one argument in brackets is an expression. -/
theorem derives_callOf {name lpar rpar : Token} (hname : name.kind = .name)
    (hlpar : lpar.kind = .lpar) (hrpar : rpar.kind = .rpar) (h : Derives (.phrase .expr) t) :
    Derives (.phrase .expr) (callOf name lpar t rpar) := by
  have hargs : Derives (.phrase .callArgs) (.node (.args false) [.leaf lpar, t, .leaf rpar]) :=
    .node (.args false) _ (.cons (derives_token_iff.mpr ⟨lpar, rfl, hlpar⟩) (.cons h
      (.cons (derives_token_iff.mpr ⟨rpar, rfl, hrpar⟩) .nil)))
  exact .node .expr _ (.cons (.node .singleTerm _ (.cons (.node .singleChain _ (.cons
    (.node .singlePrimary _ (.cons (.node (.name true) _ (.cons
      (derives_token_iff.mpr ⟨name, rfl, hname⟩) (.cons hargs .nil))) .nil)) .nil)) .nil)) .nil)

/-- **An expression parses as an argument.** Of tokens that are a program of one expression, without
a newline or a semicolon at their ends, let every two statements have a semicolon between them. Then
a call with these tokens between its parentheses parses, to a call without receiver whose argument
is what the tokens stand for without their newlines. That is the expression itself, but for the
positions of bodies that began with a newline. -/
theorem argument_parses {name lpar rpar : Token} (hraw : ∀ t ∈ tokens, t.Raw)
    (hhead : ∀ t ∈ tokens.head?, t.kind ≠ .newline ∧ t.kind ≠ .semi)
    (hlast : ∀ t ∈ tokens.getLast?, t.kind ≠ .newline ∧ t.kind ≠ .semi)
    (hparse : parse tokens = .ok (.block .start [x])) (hx : Surface (.expr x))
    (hspaced : ∀ t, treeOf ⟨Terminator.insert tokens, none⟩ = .ok t → spaced t)
    (hname : name.kind = .name) (hlpar : lpar.kind = .lpar) (hrpar : rpar.kind = .rpar) :
    ∃ x', parse (name :: lpar :: (tokens ++ [rpar])) =
        .ok (.block .start [.call name.pos none name.text [x']]) ∧
      parse (tokens.filter (·.kind ≠ .newline)) = .ok (.block .start [x']) ∧
      Moved (fun pos => ∃ t ∈ tokens, t.kind = .newline ∧ t.pos = pos) x x' := by
  have hterminator : ∀ u ∈ tokens, u.kind ≠ .terminator := fun u hu => (hraw u hu).1
  obtain ⟨e, scope, htree, he, htokens, hfaults, hread⟩ := exists_expr_of_parse hparse hx
    (fun u hu => hterminator u (List.mem_of_mem_head? (head_insertFrom hhead _ ▸ hu)))
    (fun u hu => hterminator u (List.mem_of_getLast? (getLast_insertFrom hlast _ ▸ hu)))
  have hspaced' : spaced e := by
    have hall := hspaced _ htree
    simpa [programOf, spaced, allSpaced, separates] using hall
  -- What is left of the expression without its line breaks has the tokens that both parses see.
  obtain ⟨e', he'⟩ := exists_unlined
    (N := fun pos => ∃ t ∈ tokens, t.kind = .newline ∧ t.pos = pos) e _ he rfl hspaced'
    fun u hu hbreak => exists_newline_of_isBreak hraw (htokens ▸ hu) hbreak
  have htokens' : e'.tokens = joined tokens := by
    rw [he'.tokens, htokens]
    exact unbroken_insertFrom hraw _
  obtain ⟨_, hread', _ | ⟨hmoved, ⟨⟩⟩⟩ := he'.reads hread
  have hnested : nested? tokens 0 = some 0 := by
    rw [← nested_insertFrom .initial, ← Terminator.insert, ← htokens]
    exact nested_of_derives he 0
  -- Newlines are dropped up to the closing parenthesis, as the tokens in between close what they
  -- open.
  have hinside : Terminator.insert (name :: lpar :: (tokens ++ [rpar])) =
      name :: lpar :: (joined tokens ++ [rpar]) := by
    rw [Terminator.insert, insertFrom_other (by simp [hname]), insertFrom_other (by simp [hlpar])]
    obtain ⟨s, -, heq⟩ := insertFrom_inside (s := (State.initial.after name.kind).after lpar.kind)
      [rpar] (by simp [State.after, State.initial, hname, hlpar]) hnested
    rw [heq, insertFrom_other (by simp [hrpar])]
    rfl
  refine ⟨_, ?_, ?_, hmoved⟩
  · refine parse_of_expr (e := callOf name lpar e' rpar) (derives_callOf hname hlpar hrpar
      (he'.derives he)) ?_ ?_ (.pass rfl (.single (.pass rfl (.single (.pass rfl (.single (.pass rfl
        (.single (.call (.pass rfl (.cons (.token _ _) (.single hread'
          (.single (.token _ _) (.nil _)))))) (.nil _))) (.nil _))) (.nil _))) (.nil _)))
    · rw [hinside, ← htokens']
      simp [callOf, Tree.tokens, allTokens]
    · simp [callOf, faults, allFaults, parameterFaults, literalFaults, hname, hlpar, hrpar,
        he'.faults, hfaults]
  · refine parse_of_expr (he'.derives he) ?_ (he'.faults.trans hfaults) hread'
    rw [htokens', Terminator.insert, insertFrom_noNewlines]

/-! ### Conditionals on several lines -/

namespace Sample

/-- Two statements with a newline between them. -/
def twoLines : List Token := (Lexer.tokens "if nil\n1\n2\nend").tokens

/-- Two statements with a semicolon between them. -/
def twoStatements : List Token := (Lexer.tokens "if nil\n1;\n2\nend").tokens

/-- The tokens of a call with some tokens between its parentheses. -/
def called (ts : List Token) : List Token :=
  ⟨.name, "f", .start⟩ :: ⟨.lpar, "(", .start⟩ :: (ts ++ [⟨.rpar, ")", .start⟩])

/-- The value of a branch, at the beginning of a line. -/
def value (n : Nat) : Node := .integer ⟨n + 1, 1⟩ n

/-- A conditional whose body stands somewhere. -/
def choice (body : Pos) : Node :=
  .conditional .start (.nil ⟨1, 4⟩) (some (.block body [value 1, value 2])) none

/-- The tree of an operand. -/
def operand (r : Rule) (t : Token) : Tree :=
  .node .expr [.node .singleTerm [.node .singleChain [.node .singlePrimary [.node r [.leaf t]]]]]

def statement (n : Nat) : Tree :=
  .node .exprStatement [operand .integer ⟨.int, toString n, ⟨n + 1, 1⟩⟩]

def separator (text : String) (line column : Nat) : Tree :=
  .node .separator [.node .oneTerminator [.leaf ⟨.terminator, text, ⟨line, column⟩⟩]]

/-- The tree of such a conditional. -/
def choiceTree (body : Tree) : Tree :=
  .node .expr [.node .singleTerm [.node .singleChain [.node .singlePrimary [
    .node .primaryConditional [.node (.conditional false false) [.leaf ⟨.kwIf, "if", .start⟩,
      operand .nil ⟨.kwNil, "nil", ⟨1, 4⟩⟩, body, .leaf ⟨.kwEnd, "end", ⟨4, 1⟩⟩]]]]]]

/-- Two statements on lines of their own, with something between them. -/
def linesTree (between : Tree) : Tree :=
  choiceTree (.node (.body true true true) [separator "\n" 1 7, statement 1,
    .node .secondStatement [between, statement 2], separator "\n" 3 2])

/-- Two statements without newlines. -/
def joinedTree : Tree :=
  choiceTree (.node (.body false true false) [statement 1,
    .node .secondStatement [separator ";" 2 2, statement 2]])

/-- The tree of a call with such a conditional. -/
def calledTree : Tree :=
  callOf ⟨.name, "f", .start⟩ ⟨.lpar, "(", .start⟩ joinedTree ⟨.rpar, ")", .start⟩

theorem trees :
    (follows (.phrase .program) (programOf (linesTree (separator "\n" 2 2))) ∧
      (programOf (linesTree (separator "\n" 2 2))).tokens = Terminator.insert twoLines) ∧
    (follows (.phrase .program) (programOf (linesTree (separator ";" 2 2))) ∧
      (programOf (linesTree (separator ";" 2 2))).tokens = Terminator.insert twoStatements) ∧
    (follows (.phrase .program) (programOf joinedTree) ∧ (programOf joinedTree).tokens =
      Terminator.insert (twoStatements.filter (·.kind ≠ .newline))) ∧
    (follows (.phrase .program) (programOf calledTree) ∧
      (programOf calledTree).tokens = Terminator.insert (called twoStatements)) ∧
    surplus (Terminator.insert (called twoLines)) = 2 ∧
    ∀ ts ∈ [twoLines, twoStatements], (∀ t ∈ ts, t.Raw) ∧
      (∀ t ∈ ts.head?, t.kind ≠ .newline ∧ t.kind ≠ .semi) ∧
      ∀ t ∈ ts.getLast?, t.kind ≠ .newline ∧ t.kind ≠ .semi := by
  -- One evaluation for all of them: the trees are given, and only checked.
  decide +kernel

theorem parse_twoLines : parse twoLines = .ok (.block .start [choice ⟨1, 7⟩]) :=
  parse_of_derives (derives_of_follows _ trees.1.1) trees.1.2

theorem parse_twoStatements : parse twoStatements = .ok (.block .start [choice ⟨1, 7⟩]) :=
  parse_of_derives (derives_of_follows _ trees.2.1.1) trees.2.1.2

theorem surface_choice (body : Pos) : Surface (.expr (choice body)) :=
  .conditional .nil (.block (.moreStatements (.expression .integer)
    (.moreStatements (.expression .integer) .noStatements))) .missing

end Sample

open Rubylet.Syntax.Sample in
/-- Two statements with a semicolon between them are passed as they stand, but the body begins
behind its newline then. -/
theorem argument_parses_twoStatements :
    parse (called twoStatements) =
      .ok (.block .start [.call .start none "f" [choice ⟨2, 1⟩]]) := by
  obtain ⟨-, ⟨hfollows, htokens⟩, ⟨hjoins, hjoined⟩, -, -, hraw⟩ := trees
  obtain ⟨hraw, hhead, hlast⟩ := hraw twoStatements (.tail _ (.head _))
  -- The tree is known, so its lines can be looked at.
  have hspaced : ∀ t, treeOf ⟨Terminator.insert twoStatements, none⟩ = .ok t → spaced t := by
    intro t ht
    rw [treeOf_eq_ok_iff.mpr ⟨derives_of_follows _ hfollows, htokens⟩] at ht
    obtain rfl := Except.ok.inj ht
    rfl
  obtain ⟨x', hcall, halone, -⟩ := argument_parses hraw hhead hlast parse_twoStatements
    (surface_choice _) hspaced (show (⟨.name, "f", .start⟩ : Token).kind = .name from rfl)
    (show (⟨.lpar, "(", .start⟩ : Token).kind = .lpar from rfl)
    (show (⟨.rpar, ")", .start⟩ : Token).kind = .rpar from rfl)
  have hx' : parse (twoStatements.filter (·.kind ≠ .newline)) =
      .ok (.block .start [choice ⟨2, 1⟩]) :=
    parse_of_derives (derives_of_follows _ hjoins) hjoined
  obtain ⟨-, heq⟩ := Node.block.inj (Except.ok.inj (hx'.symm.trans halone))
  obtain ⟨rfl, -⟩ := List.cons.inj heq
  exact hcall

open Rubylet.Syntax.Sample in
/-- **Newlines are lost in an argument.** Of two conditionals that are programs by themselves, the one
with a newline between its statements cannot be passed at all, and the body of the other one stands
elsewhere when it is passed. -/
theorem newlines_are_lost :
    (∀ ts ∈ [twoLines, twoStatements], (∀ t ∈ ts, t.Raw) ∧
      (∀ t ∈ ts.head?, t.kind ≠ .newline ∧ t.kind ≠ .semi) ∧
      (∀ t ∈ ts.getLast?, t.kind ≠ .newline ∧ t.kind ≠ .semi) ∧
      parse ts = .ok (.block .start [choice ⟨1, 7⟩])) ∧
    Surface (.expr (choice ⟨1, 7⟩)) ∧ (∀ root, parse (called twoLines) ≠ .ok root) ∧
    parse (called twoStatements) =
      .ok (.block .start [.call .start none "f" [choice ⟨2, 1⟩]]) ∧
    choice ⟨2, 1⟩ ≠ choice ⟨1, 7⟩ := by
  obtain ⟨-, -, -, ⟨hfollows, htokens⟩, hsurplus, hraw⟩ := trees
  refine ⟨fun ts hts => ?_, surface_choice _, fun root hroot => ?_,
    parse_of_derives (derives_of_follows _ hfollows) htokens, by simp [choice]⟩
  · obtain ⟨hraw, hhead, hlast⟩ := hraw ts hts
    refine ⟨hraw, hhead, hlast, ?_⟩
    rcases List.mem_cons.mp hts with rfl | hts
    · exact parse_twoLines
    · obtain rfl := List.mem_singleton.mp hts
      exact parse_twoStatements
  · obtain ⟨t, ht, -⟩ := exists_of_bind_eq_ok hroot
    obtain ⟨hderives, htokens⟩ := treeOf_eq_ok_iff.mp (mapError_eq_ok_iff.mp ht)
    -- The argument has two terminators more than a derivation allows.
    have hle := surplus_le hderives
    rw [htokens, hsurplus] at hle
    exact absurd hle (by decide)

end Syntax

end Rubylet
