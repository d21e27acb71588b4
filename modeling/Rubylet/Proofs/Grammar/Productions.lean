import Mathlib.Computability.Language
import Mathlib.Order.CompletePartialOrder
import Rubylet.Proofs.Grammar.Parsing

/-!
# The grammar in extended notation

The rules of `Rule` write optional parts out, and make a phrase of every repetition. `production` is
the grammar as it is read: one production for each phrase, with optional parts and repetitions.
Its languages are the least ones that the productions are closed under (`Phrase.language`).

* `derives_iff_mem_language`: a phrase derives a list of tokens by the rules just in case its language
  by the productions has their kinds.

The inclusions between the two are calculated in the algebra of languages.
-/

namespace Rubylet

open scoped Computability
open Rubylet.Tree

/-- The right-hand side of a production. -/
inductive Pattern where
  | token (kind : TokenKind)
  | phrase (p : Phrase)
  | both (a b : Pattern)
  | either (a b : Pattern)
  | optional (a : Pattern)
  /-- Any number of times. -/
  | many (a : Pattern)
  /-- Once or more. -/
  | several (a : Pattern)
  deriving Repr, DecidableEq, Inhabited

namespace Pattern

instance : Mul Pattern := ⟨both⟩

instance : Add Pattern := ⟨either⟩

/-- The productions of the grammar. The phrases that only the rules have are repetitions. -/
def production : Phrase → Pattern
  | .entry => phrase .program
  | .program => phrase .body
  | .body => optional (phrase .separator) *
      optional (phrase .statement * many (phrase .separator * phrase .statement) *
        optional (phrase .separator))
  | .separator => several (token .terminator)
  | .terminators => several (token .terminator)
  | .moreStatements => several (phrase .separator * phrase .statement)
  | .statement => phrase .methodDef + phrase .classDef + phrase .assign + phrase .expr
  | .methodDef => token .kwDef * token .name * optional (phrase .paramList) * phrase .body *
      token .kwEnd
  | .paramList => token .lpar * optional (token .name * many (token .comma * token .name)) *
      token .rpar
  | .moreParams => several (token .comma * token .name)
  | .classDef => token .kwClass * token .const * phrase .body * token .kwEnd
  | .assign => token .name * token .equal * phrase .expr
  | .expr => phrase .sum
  | .sum => phrase .term + phrase .sum * token .plus * phrase .term +
      phrase .sum * token .minus * phrase .term
  | .term => phrase .chain + phrase .term * token .star * phrase .chain +
      phrase .term * token .slash * phrase .chain
  | .chain => phrase .primary +
      phrase .chain * token .dot * token .name * optional (phrase .callArgs)
  | .primary => token .int + token .string + token .kwNil + token .const +
      token .name * optional (phrase .callArgs) + phrase .conditional
  | .conditional => token .kwIf * phrase .expr * optional (token .kwThen) * phrase .body *
      optional (phrase .elseClause) * token .kwEnd
  | .elseClause => token .kwElsif * phrase .expr * optional (token .kwThen) * phrase .body *
      optional (phrase .elseClause) + token .kwElse * phrase .body
  | .callArgs => token .lpar * optional (phrase .expr * many (token .comma * phrase .expr)) *
      token .rpar
  | .moreArgs => several (token .comma * phrase .expr)

/-- The language of a pattern, by those of the phrases. -/
def language (I : Phrase → Language TokenKind) : Pattern → Language TokenKind
  | token kind => {[kind]}
  | phrase p => I p
  | both a b => a.language I * b.language I
  | either a b => a.language I + b.language I
  | optional a => 1 + a.language I
  | many a => (a.language I)∗
  | several a => a.language I * (a.language I)∗

variable {I : Phrase → Language TokenKind} {a b : Pattern}

theorem language_mul : (a * b).language I = a.language I * b.language I := rfl

theorem language_add : (a + b).language I = a.language I + b.language I := rfl

end Pattern

/-- Is what the production of a phrase has always in the language of the phrase? -/
def Closed (I : Phrase → Language TokenKind) : Prop :=
  ∀ p, (Pattern.production p).language I ≤ I p

/-- The language of a phrase: what is in it however languages are given to the phrases, as long as
the productions are kept. -/
def Phrase.language (p : Phrase) : Language TokenKind :=
  { ks | ∀ I, Closed I → ks ∈ I p }

section Rules

variable {I : Phrase → Language TokenKind}

/-- The language of a symbol. -/
def Symbol.language (I : Phrase → Language TokenKind) : Symbol → Language TokenKind
  | .token kind => {[kind]}
  | .phrase p => I p

/-- The language of symbols one after the other. -/
def symbolsLanguage (I : Phrase → Language TokenKind) : List Symbol → Language TokenKind
  | [] => 1
  | [s] => s.language I
  | s :: rest => s.language I * symbolsLanguage I rest

theorem symbolsLanguage_cons (s : Symbol) (rest : List Symbol) :
    symbolsLanguage I (s :: rest) = s.language I * symbolsLanguage I rest := by
  cases rest with
  | nil => exact (mul_one _).symm
  | cons => rfl

theorem symbolsLanguage_append (xs ys : List Symbol) :
    symbolsLanguage I (xs ++ ys) = symbolsLanguage I xs * symbolsLanguage I ys := by
  induction xs with
  | nil => exact (one_mul _).symm
  | cons x xs ih => rw [List.cons_append, symbolsLanguage_cons, symbolsLanguage_cons, ih, mul_assoc]

theorem symbolsLanguage_opt (b : Bool) (s : Symbol) :
    symbolsLanguage I (Rule.opt b s) ≤ 1 + s.language I := by
  cases b with
  | false => exact le_self_add
  | true => exact le_add_self

/-- Is what a rule puts together always in the language of the phrase that it builds? -/
def RuleClosed (I : Phrase → Language TokenKind) : Prop :=
  ∀ r : Rule, symbolsLanguage I r.symbols ≤ I r.phrase

/-- A repetition that grows at its right end. -/
theorem kstar_le_one_add {k more : Language TokenKind} (hone : k ≤ more) (hmore : more * k ≤ more) :
    k∗ ≤ 1 + more := by
  refine kstar_le_of_mul_le_left le_self_add ?_
  rw [add_mul, one_mul]
  exact add_le (hone.trans le_add_self) (hmore.trans le_add_self)

theorem mul_kstar_le {k more : Language TokenKind} (hone : k ≤ more) (hmore : more * k ≤ more) :
    k * k∗ ≤ more :=
  (mul_kstar_le_self hmore).trans' (mul_le_mul_left hone _)

/-- **What keeps the rules keeps the productions.** -/
theorem Closed.of_rules (h : RuleClosed I) : Closed I := by
  have hstatements : (I .separator * I .statement)∗ ≤ 1 + I .moreStatements :=
    kstar_le_one_add (h .secondStatement) (h .anotherStatement)
  have hparams : ({[.comma]} * {[.name]})∗ ≤ 1 + I .moreParams :=
    kstar_le_one_add (h .secondParam) (h .anotherParam)
  have hargs : ({[.comma]} * I .expr)∗ ≤ 1 + I .moreArgs :=
    kstar_le_one_add (h .secondArg) (h .anotherArg)
  intro p
  -- Phrases with optional parts are multiplied out; there is one rule for each way to leave some
  -- out.
  cases p
  case body =>
    refine (show _ ≤ (1 + I .separator) * (1 + I .statement * (1 + I .moreStatements) *
      (1 + I .separator)) from ?_).trans ?_
    · simp only [Pattern.production, Pattern.language_mul, Pattern.language]
      gcongr
    · simp only [mul_add, add_mul, mul_one, one_mul, mul_assoc, add_le_iff, and_assoc]
      exact ⟨h .emptyBody, h .blankBody, h (.body false false false), h (.body true false false),
        h (.body false true false), h (.body true true false), h (.body false false true),
        h (.body true false true), h (.body false true true), h (.body true true true)⟩
  case paramList =>
    refine (show _ ≤ {[.lpar]} * (1 + {[.name]} * (1 + I .moreParams)) * {[.rpar]} from ?_).trans ?_
    · simp only [Pattern.production, Pattern.language_mul, Pattern.language]
      gcongr
    · simp only [mul_add, add_mul, mul_one, mul_assoc, add_le_iff]
      exact ⟨h .noParams, h (.params false), h (.params true)⟩
  case callArgs =>
    refine (show _ ≤ {[.lpar]} * (1 + I .expr * (1 + I .moreArgs)) * {[.rpar]} from ?_).trans ?_
    · simp only [Pattern.production, Pattern.language_mul, Pattern.language]
      gcongr
    · simp only [mul_add, add_mul, mul_one, mul_assoc, add_le_iff]
      exact ⟨h .noArgs, h (.args false), h (.args true)⟩
  case separator => exact (mul_kstar_le (h .oneTerminator) (h .anotherTerminator)).trans (h .separator)
  case terminators => exact mul_kstar_le (h .oneTerminator) (h .anotherTerminator)
  case moreStatements => exact mul_kstar_le (h .secondStatement) (h .anotherStatement)
  case moreParams => exact mul_kstar_le (h .secondParam) (h .anotherParam)
  case moreArgs => exact mul_kstar_le (h .secondArg) (h .anotherArg)
  all_goals simp only [Pattern.production, Pattern.language_mul, Pattern.language_add,
    Pattern.language, mul_add, add_mul, mul_one, mul_assoc, add_le_iff, and_assoc]
  case entry => exact h .entry
  case program => exact h .program
  case statement =>
    exact ⟨h .methodStatement, h .classStatement, h .assignStatement, h .exprStatement⟩
  case methodDef => exact ⟨h (.methodDef false), h (.methodDef true)⟩
  case classDef => exact h .classDef
  case assign => exact h .assign
  case expr => exact h .expr
  case sum => exact ⟨h .singleTerm, h .plus, h .minus⟩
  case term => exact ⟨h .singleChain, h .times, h .divide⟩
  case chain => exact ⟨h .singlePrimary, h (.message false), h (.message true)⟩
  case primary =>
    exact ⟨h .integer, h .text, h .nil, h .constant, h (.name false), h (.name true),
      h .primaryConditional⟩
  case conditional =>
    exact ⟨h (.conditional false false), h (.conditional true false), h (.conditional false true),
      h (.conditional true true)⟩
  case elseClause =>
    exact ⟨h (.elsifClause false false), h (.elsifClause true false), h (.elsifClause false true),
      h (.elsifClause true true), h .elseClause⟩

/-- Languages of which those that are repetitions are no larger than they have to be. -/
def exactly (I : Phrase → Language TokenKind) (p : Phrase) : Language TokenKind :=
  match p with
  | .entry | .terminators | .moreStatements | .moreParams | .moreArgs =>
    (Pattern.production p).language I
  | p => I p

/-- A closed family has the language of each rule. -/
theorem exactly_le (h : Closed I) (p : Phrase) : exactly I p ≤ I p := by
  unfold exactly
  split
  all_goals first | exact h _ | exact le_rfl

theorem le_several {k : Language TokenKind} : k ≤ k * k∗ := le_mul_of_one_le_right' one_le_kstar

theorem several_mul_le {k : Language TokenKind} : k * k∗ * k ≤ k * k∗ := by
  rw [mul_assoc]
  gcongr
  exact kstar_mul_le_kstar

/-- A list in parentheses, whose parts but the first are a repetition. -/
theorem symbolsLanguage_list_le {first : Symbol} {p : Phrase} {k : Language TokenKind}
    (hp : I p = k * k∗) (more : Bool) :
    symbolsLanguage I
        ([.token .lpar, first] ++ Rule.opt more (.phrase p) ++ [.token .rpar]) ≤
      {[.lpar]} * (first.language I * (k∗ * {[.rpar]})) :=
  calc symbolsLanguage I ([.token .lpar, first] ++ Rule.opt more (.phrase p) ++ [.token .rpar])
      = {[.lpar]} * first.language I * symbolsLanguage I (Rule.opt more (.phrase p)) *
          {[.rpar]} := by
        rw [symbolsLanguage_append, symbolsLanguage_append]
        rfl
    _ ≤ {[.lpar]} * first.language I * (1 + k * k∗) * {[.rpar]} := by
        -- The tail of the list may be missing.
        rw [← hp]
        gcongr
        exact symbolsLanguage_opt _ _
    _ = {[.lpar]} * (first.language I * (k∗ * {[.rpar]})) := by
        rw [one_add_mul_kstar, mul_assoc, mul_assoc]

/-- **What keeps the productions keeps the rules**, if its repetitions are exact. -/
theorem Closed.exactly (h : Closed I) : RuleClosed (exactly I) := by
  have hstatement := h .statement
  have hmethodDef := h .methodDef
  have hparamList := h .paramList
  have hclassDef := h .classDef
  have hassign := h .assign
  have hsum := h .sum
  have hterm := h .term
  have hchain := h .chain
  have hprimary := h .primary
  have hconditional := h .conditional
  have helseClause := h .elseClause
  have hcallArgs := h .callArgs
  -- Each alternative of a production is in the language of its phrase.
  simp only [Pattern.production, Pattern.language_mul, Pattern.language_add, Pattern.language,
    mul_add, add_mul, mul_one, mul_assoc, add_le_iff, and_assoc]
    at hstatement hmethodDef hparamList hclassDef hassign hsum hterm hchain hprimary hconditional
      helseClause hcallArgs
  intro r
  cases r
  case body leading more trailing =>
    let k := I .separator * I .statement
    -- The production of a body is met part by part: nothing is lost where a flag is off.
    calc symbolsLanguage (Rubylet.exactly I) (Rule.body leading more trailing).symbols
        = symbolsLanguage (Rubylet.exactly I) (Rule.opt leading (.phrase .separator)) *
            I .statement *
            symbolsLanguage (Rubylet.exactly I) (Rule.opt more (.phrase .moreStatements)) *
            symbolsLanguage (Rubylet.exactly I) (Rule.opt trailing (.phrase .separator)) := by
          rw [Rule.symbols, symbolsLanguage_append, symbolsLanguage_append, symbolsLanguage_append]
          rfl
      _ ≤ (1 + I .separator) * I .statement * (1 + k * k∗) * (1 + I .separator) := by
          gcongr <;> exact symbolsLanguage_opt _ _
      _ ≤ (1 + I .separator) * (1 + I .statement * k∗ * (1 + I .separator)) := by
          rw [one_add_mul_kstar, mul_assoc, mul_assoc, ← mul_assoc (I .statement)]
          gcongr
          exact le_add_self
      _ ≤ I .body := h .body
  case params more => exact (symbolsLanguage_list_le rfl more).trans hparamList.2
  case args more => exact (symbolsLanguage_list_le rfl more).trans hcallArgs.2
  case oneTerminator | secondStatement | secondParam | secondArg => exact le_several
  case anotherTerminator | anotherStatement | anotherParam | anotherArg => exact several_mul_le
  case entry => exact le_rfl
  case program => exact h .program
  case emptyBody =>
    refine le_trans ?_ (h .body)
    calc (1 : Language TokenKind) = 1 * 1 := (mul_one 1).symm
      _ ≤ _ := mul_le_mul' le_self_add le_self_add
  case blankBody =>
    refine le_trans ?_ (h .body)
    calc I .separator = I .separator * 1 := (mul_one _).symm
      _ ≤ _ := mul_le_mul' le_add_self le_self_add
  case separator => exact h .separator
  case methodStatement => exact hstatement.1
  case classStatement => exact hstatement.2.1
  case assignStatement => exact hstatement.2.2.1
  case exprStatement => exact hstatement.2.2.2
  case methodDef hasParams => cases hasParams <;> [exact hmethodDef.1; exact hmethodDef.2]
  case noParams => exact hparamList.1
  case classDef => exact hclassDef
  case assign => exact hassign
  case expr => exact h .expr
  case singleTerm => exact hsum.1
  case plus => exact hsum.2.1
  case minus => exact hsum.2.2
  case singleChain => exact hterm.1
  case times => exact hterm.2.1
  case divide => exact hterm.2.2
  case singlePrimary => exact hchain.1
  case message hasArgs => cases hasArgs <;> [exact hchain.2.1; exact hchain.2.2]
  case integer => exact hprimary.1
  case text => exact hprimary.2.1
  case nil => exact hprimary.2.2.1
  case constant => exact hprimary.2.2.2.1
  case name hasArgs =>
    cases hasArgs <;> [exact hprimary.2.2.2.2.1; exact hprimary.2.2.2.2.2.1]
  case primaryConditional => exact hprimary.2.2.2.2.2.2
  case conditional then? else? =>
    cases then? <;> cases else? <;> [exact hconditional.1; exact hconditional.2.2.1;
      exact hconditional.2.1; exact hconditional.2.2.2]
  case elsifClause then? else? =>
    cases then? <;> cases else? <;> [exact helseClause.1; exact helseClause.2.2.1;
      exact helseClause.2.1; exact helseClause.2.2.2.1]
  case elseClause => exact helseClause.2.2.2.2
  case noArgs => exact hcallArgs.1

mutual

/-- What a tree spans is in all languages that keep the rules. -/
theorem kinds_mem_of_derives (h : RuleClosed I) {s : Symbol} {t : Tree} (ht : Derives s t) :
    t.tokens.map Token.kind ∈ s.language I :=
  match ht with
  | .leaf _ => rfl
  | .node r _ hts => h r (kinds_mem_of_derivesAll h hts)

theorem kinds_mem_of_derivesAll (h : RuleClosed I) {ss : List Symbol} {ts : List Tree}
    (hts : DerivesAll ss ts) : (allTokens ts).map Token.kind ∈ symbolsLanguage I ss :=
  match hts with
  | .nil => rfl
  | .cons ht hts => by
    rw [symbolsLanguage_cons, allTokens, List.map_append]
    exact Language.append_mem_mul (kinds_mem_of_derives h ht) (kinds_mem_of_derivesAll h hts)

end

end Rules

/-- The kinds of tokens that a phrase derives by the rules, whatever the tokens are. -/
def spelled (p : Phrase) : Language TokenKind :=
  { ks | ∀ tokens : List Token, tokens.map Token.kind = ks →
    ∃ t, Derives (.phrase p) t ∧ t.tokens = tokens }

/-- Words of a list of symbols are spelled by trees, one for each. -/
theorem exists_derivesAll_of_mem : ∀ (ss : List Symbol) {tokens : List Token},
    tokens.map Token.kind ∈ symbolsLanguage spelled ss → ∃ ts, DerivesAll ss ts ∧
      allTokens ts = tokens
  | [], tokens, h => by
    obtain rfl := List.map_eq_nil_iff.mp h
    exact ⟨[], .nil, rfl⟩
  | s :: ss, tokens, h => by
    rw [symbolsLanguage_cons, Language.mem_mul] at h
    obtain ⟨ks, hks, ls, hls, heq⟩ := h
    obtain ⟨us, vs, rfl, rfl, rfl⟩ := List.map_eq_append_iff.mp heq.symm
    obtain ⟨ts, hts, rfl⟩ := exists_derivesAll_of_mem ss hls
    -- The first symbol takes the tokens up to where the language of the others begins.
    have hs : ∃ t, Derives s t ∧ t.tokens = us := by
      cases s with
      | token kind =>
        obtain ⟨token, rfl, hkind⟩ := List.map_eq_singleton_iff.mp hks
        exact ⟨.leaf token, derives_token_iff.mpr ⟨token, rfl, hkind⟩, rfl⟩
      | phrase p => exact hks us rfl
    obtain ⟨t, ht, rfl⟩ := hs
    exact ⟨t :: ts, .cons ht hts, rfl⟩

theorem ruleClosed_spelled : RuleClosed spelled := by
  rintro r _ h tokens rfl
  obtain ⟨ts, hts, rfl⟩ := exists_derivesAll_of_mem _ h
  exact ⟨.node r ts, .node r ts hts, rfl⟩

/-- **The rules derive what the productions derive.** -/
theorem derives_iff_mem_language (p : Phrase) (tokens : List Token) :
    (∃ t, Derives (.phrase p) t ∧ t.tokens = tokens) ↔ tokens.map Token.kind ∈ p.language := by
  constructor
  · rintro ⟨t, ht, rfl⟩ I hI
    exact exactly_le hI p (kinds_mem_of_derives hI.exactly ht)
  · exact fun h => h spelled (.of_rules ruleClosed_spelled) tokens rfl

end Rubylet
