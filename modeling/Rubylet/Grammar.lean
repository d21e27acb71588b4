import Rubylet.Token

/-!
# The surface grammar

The grammar of programs as data: its phrases, its rules, and for every rule the phrase it builds
and the symbols it is built from. Optional parts are written out as separate rules, and a
repetition is either absent or a phrase of its own that grows at its right end.

The precedence of operators is in the shape of the rules: a sum is made of terms, a term of
chains of messages, and a message binds tightest. There are no parenthesised expressions;
parentheses enclose parameters and arguments alone.
-/

namespace Rubylet

/-- The phrases of the grammar. -/
inductive Phrase where
  /-- A program to the end of the input. -/
  | entry
  | program
  /-- The statements of a program, a definition or a branch. -/
  | body
  /-- What stands between two statements. -/
  | separator
  /-- One or more terminators. -/
  | terminators
  /-- One or more statements, each after a separator. -/
  | moreStatements
  | statement
  | methodDef
  | paramList
  /-- One or more parameters, each after a comma. -/
  | moreParams
  | classDef
  | assign
  | expr
  | sum
  | term
  /-- A primary expression and the messages sent to it. -/
  | chain
  | primary
  | conditional
  | elseClause
  | callArgs
  /-- One or more arguments, each after a comma. -/
  | moreArgs
  deriving Repr, DecidableEq, Inhabited

/-- A symbol of a rule: a token kind or a phrase. -/
inductive Symbol where
  | token (kind : TokenKind)
  | phrase (phrase : Phrase)
  deriving Repr, DecidableEq, Inhabited

/-- The rules of the grammar. A flag says whether an optional part is there. -/
inductive Rule where
  | entry
  | program
  | emptyBody
  | blankBody
  | body (leading more trailing : Bool)
  | separator
  | oneTerminator
  | anotherTerminator
  | secondStatement
  | anotherStatement
  | methodStatement
  | classStatement
  | assignStatement
  | exprStatement
  | methodDef (hasParams : Bool)
  | noParams
  | params (more : Bool)
  | secondParam
  | anotherParam
  | classDef
  | assign
  | expr
  | singleTerm
  | plus
  | minus
  | singleChain
  | times
  | divide
  | singlePrimary
  | message (hasArgs : Bool)
  | integer
  | text
  | nil
  | constant
  | name (hasArgs : Bool)
  | primaryConditional
  | conditional (then? else? : Bool)
  | elsifClause (then? else? : Bool)
  | elseClause
  | noArgs
  | args (more : Bool)
  | secondArg
  | anotherArg
  deriving Repr, DecidableEq, Inhabited

namespace Rule

/-- The phrase a rule builds. -/
def phrase : Rule → Phrase
  | entry => .entry
  | program => .program
  | emptyBody | blankBody | body _ _ _ => .body
  | separator => .separator
  | oneTerminator | anotherTerminator => .terminators
  | secondStatement | anotherStatement => .moreStatements
  | methodStatement | classStatement | assignStatement | exprStatement => .statement
  | methodDef _ => .methodDef
  | noParams | params _ => .paramList
  | secondParam | anotherParam => .moreParams
  | classDef => .classDef
  | assign => .assign
  | expr => .expr
  | singleTerm | plus | minus => .sum
  | singleChain | times | divide => .term
  | singlePrimary | message _ => .chain
  | integer | text | nil | constant | name _ | primaryConditional => .primary
  | conditional _ _ => .conditional
  | elsifClause _ _ | elseClause => .elseClause
  | noArgs | args _ => .callArgs
  | secondArg | anotherArg => .moreArgs

/-- A symbol if the flag is set. -/
def opt (present : Bool) (s : Symbol) : List Symbol := if present then [s] else []

/-- The symbols a rule puts together. -/
def symbols : Rule → List Symbol
  | entry => [.phrase .program]
  | program => [.phrase .body]
  | emptyBody => []
  | blankBody => [.phrase .separator]
  | body leading more trailing =>
    opt leading (.phrase .separator) ++ [.phrase .statement] ++
      opt more (.phrase .moreStatements) ++ opt trailing (.phrase .separator)
  | separator => [.phrase .terminators]
  | oneTerminator => [.token .terminator]
  | anotherTerminator => [.phrase .terminators, .token .terminator]
  | secondStatement => [.phrase .separator, .phrase .statement]
  | anotherStatement => [.phrase .moreStatements, .phrase .separator, .phrase .statement]
  | methodStatement => [.phrase .methodDef]
  | classStatement => [.phrase .classDef]
  | assignStatement => [.phrase .assign]
  | exprStatement => [.phrase .expr]
  | methodDef hasParams =>
    [.token .kwDef, .token .name] ++ opt hasParams (.phrase .paramList) ++
      [.phrase .body, .token .kwEnd]
  | noParams => [.token .lpar, .token .rpar]
  | params more =>
    [.token .lpar, .token .name] ++ opt more (.phrase .moreParams) ++ [.token .rpar]
  | secondParam => [.token .comma, .token .name]
  | anotherParam => [.phrase .moreParams, .token .comma, .token .name]
  | classDef => [.token .kwClass, .token .const, .phrase .body, .token .kwEnd]
  | assign => [.token .name, .token .equal, .phrase .expr]
  | expr => [.phrase .sum]
  | singleTerm => [.phrase .term]
  | plus => [.phrase .sum, .token .plus, .phrase .term]
  | minus => [.phrase .sum, .token .minus, .phrase .term]
  | singleChain => [.phrase .chain]
  | times => [.phrase .term, .token .star, .phrase .chain]
  | divide => [.phrase .term, .token .slash, .phrase .chain]
  | singlePrimary => [.phrase .primary]
  | message hasArgs =>
    [.phrase .chain, .token .dot, .token .name] ++ opt hasArgs (.phrase .callArgs)
  | integer => [.token .int]
  | text => [.token .string]
  | nil => [.token .kwNil]
  | constant => [.token .const]
  | name hasArgs => .token .name :: opt hasArgs (.phrase .callArgs)
  | primaryConditional => [.phrase .conditional]
  | conditional then? else? =>
    [.token .kwIf, .phrase .expr] ++ opt then? (.token .kwThen) ++ [.phrase .body] ++
      opt else? (.phrase .elseClause) ++ [.token .kwEnd]
  | elsifClause then? else? =>
    [.token .kwElsif, .phrase .expr] ++ opt then? (.token .kwThen) ++ [.phrase .body] ++
      opt else? (.phrase .elseClause)
  | elseClause => [.token .kwElse, .phrase .body]
  | noArgs => [.token .lpar, .token .rpar]
  | args more =>
    [.token .lpar, .phrase .expr] ++ opt more (.phrase .moreArgs) ++ [.token .rpar]
  | secondArg => [.token .comma, .phrase .expr]
  | anotherArg => [.phrase .moreArgs, .token .comma, .phrase .expr]

end Rule

namespace Phrase

/-- All phrases, in the order of their declaration. -/
def all : List Phrase :=
  [entry, program, body, separator, terminators, moreStatements, statement, methodDef, paramList,
    moreParams, classDef, assign, expr, sum, term, chain, primary, conditional, elseClause,
    callArgs, moreArgs]

/-- The rules that build a phrase. -/
def rules : Phrase → List Rule
  | entry => [.entry]
  | program => [.program]
  | body =>
    [.emptyBody, .blankBody, .body false false false, .body false false true,
      .body false true false, .body false true true, .body true false false,
      .body true false true, .body true true false, .body true true true]
  | separator => [.separator]
  | terminators => [.oneTerminator, .anotherTerminator]
  | moreStatements => [.secondStatement, .anotherStatement]
  | statement => [.methodStatement, .classStatement, .assignStatement, .exprStatement]
  | methodDef => [.methodDef false, .methodDef true]
  | paramList => [.noParams, .params false, .params true]
  | moreParams => [.secondParam, .anotherParam]
  | classDef => [.classDef]
  | assign => [.assign]
  | expr => [.expr]
  | sum => [.singleTerm, .plus, .minus]
  | term => [.singleChain, .times, .divide]
  | chain => [.singlePrimary, .message false, .message true]
  | primary =>
    [.integer, .text, .nil, .constant, .name false, .name true, .primaryConditional]
  | conditional =>
    [.conditional false false, .conditional false true, .conditional true false,
      .conditional true true]
  | elseClause =>
    [.elsifClause false false, .elsifClause false true, .elsifClause true false,
      .elsifClause true true, .elseClause]
  | callArgs => [.noArgs, .args false, .args true]
  | moreArgs => [.secondArg, .anotherArg]

theorem mem_all (p : Phrase) : p ∈ all := by cases p <;> decide

theorem mem_rules (r : Rule) : r ∈ r.phrase.rules := by
  cases r with
  | body a b c => cases a <;> cases b <;> cases c <;> decide
  | conditional a b | elsifClause a b => cases a <;> cases b <;> decide
  | methodDef a | params a | message a | name a | args a => cases a <;> decide
  | _ => decide

/-- A check that the rules of all phrases pass is passed by every rule. -/
theorem forall_rule {f : Phrase → Rule → Bool} (h : all.all fun p => p.rules.all (f p)) (r : Rule) :
    f r.phrase r :=
  List.all_eq_true.mp (List.all_eq_true.mp h _ (mem_all r.phrase)) r (mem_rules r)

theorem phrase_of_mem_rules {p : Phrase} {r : Rule} (h : r ∈ p.rules) : r.phrase = p := by
  revert r
  cases p <;> simp [rules, Rule.phrase]

end Phrase

end Rubylet
