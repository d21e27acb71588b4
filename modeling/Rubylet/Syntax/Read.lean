import Rubylet.CompileError
import Rubylet.Grammar.Parse
import Rubylet.Syntax.Node
import Rubylet.Token.Terminator

/-!
# Reading a program text

`Syntax.read` goes from the text to its syntax tree. The parser takes the tokens as the lexer finds
them, so a syntax error is reported before a character further on that begins no lexeme
(`treeOf`). Reading the parse tree (`ofTree`) decides three things that the grammar leaves open.

* A name without parentheses is a local if an assignment to it, or a parameter of that name, has
  been seen earlier in the same scope; else it is a call. Methods and classes have scopes of their
  own.
* Escapes in string literals are decoded. Between double quotes every backslash escapes the
  character after it; between apostrophes only a backslash or an apostrophe is escaped.
* A body without any token stands where its construct begins.

It fails for a parameter name that is used twice in one definition, for an escape that is not
supported, and for a number of too many digits.

Reading recurs on the parse tree; that a text may be nested too deeply for a stack is left out.
-/

namespace Rubylet.Syntax

/-! ### String literals -/

/-- What a character stands for after a backslash between double quotes. -/
def unescape (c : Char) : Char :=
  match c with
  | 'n' => '\n'
  | 't' => '\t'
  | 'r' => '\r'
  | '0' => '\x00'
  | 'e' => '\x1b'
  | 's' => ' '
  | c => c

/-- Escapes by code point are not supported. -/
def isUnsupportedEscape (c : Char) : Bool :=
  c = 'x' || c = 'u' || c = 'U' || ('1' ≤ c && c ≤ '7')

/-- Decodes the inside of a literal between double quotes, or answers the first character that
cannot be escaped. -/
def decodeDouble : List Char → Except Char (List Char)
  | [] => .ok []
  | '\\' :: c :: rest =>
    if isUnsupportedEscape c then .error c
    else (decodeDouble rest).map (unescape c :: ·)
  | c :: rest => (decodeDouble rest).map (c :: ·)

/-- Decodes the inside of a literal between apostrophes. -/
def decodeSingle : List Char → List Char
  | [] => []
  | '\\' :: c :: rest =>
    if c = '\\' || c = '\x27' then c :: decodeSingle rest else '\\' :: decodeSingle (c :: rest)
  | c :: rest => c :: decodeSingle rest

/-- Decodes a string literal with its quotes. -/
def decodeLiteral (literal : List Char) : Except Char (List Char) :=
  let inside := literal.tail.dropLast
  if literal.head? = some '\x27' then .ok (decodeSingle inside) else decodeDouble inside

/-! ### Integer literals -/

/-- The value of an integer literal; underscores only group its digits. -/
def integerValue (literal : List Char) : Nat :=
  literal.foldl (fun n c => if c = '_' then n else n * 10 + (c.toNat - '0'.toNat)) 0

/-- The number of digits of an integer literal. Zeros at the front count as well. -/
def digitCount (literal : List Char) : Nat := literal.countP fun c => c ≠ '_'

/-! ### Reading -/

/-- The locals of the scope being read. -/
abbrev Scope := List String

/-- Reads syntax: it knows and extends the locals of the current scope, and may fail. -/
abbrev Reading := StateT Scope (Except StageError)

/-- Fails at a position. -/
def refuse {α : Type} (pos : Pos) (cause : Cause) : Reading α :=
  throw (.compile (.atPos pos cause))

/-- The error of a tree that does not follow the grammar. -/
def misshapenTree : StageError :=
  .compile { cause := .unsupportedConstruct "tree", place := .nowhere }

/-- Fails on a tree that does not follow the grammar. -/
def misshapen {α : Type} : Reading α := throw misshapenTree

/-- Reads in a new scope, and comes back to the current one. -/
def inScope {α : Type} (locals : Scope) (body : Reading α) : Reading α := do
  let outer ← get
  set locals
  let result ← body
  set outer
  return result

/-- An integer literal. -/
def readInteger (t : Token) : Reading Node :=
  let literal := t.text.toList
  if maxDigits < digitCount literal then throw (.fault .tooManyDigits)
  else return .integer t.pos (integerValue literal)

/-- A string literal. -/
def readString (t : Token) : Reading Node :=
  match decodeLiteral t.text.toList with
  | .ok value => return .text t.pos (String.ofList value)
  | .error c => refuse t.pos (.invalidEscape c)

/-- A name without parentheses. -/
def readName (t : Token) : Reading Node := do
  if (← get).contains t.text then return .localRead t.pos t.text
  else return .call t.pos none t.text []

/-- The names of a parameter list, from left to right. -/
def paramTokens : Tree → List Token
  | .node (.params false) [_, .leaf name, _] => [name]
  | .node (.params true) [_, .leaf name, more, _] => name :: paramTokens more
  | .node .secondParam [_, .leaf name] => [name]
  | .node .anotherParam [more, _, .leaf name] => paramTokens more ++ [name]
  | _ => []

/-- Numbers parameters, and refuses a name that has been used. -/
def readParams (seen : List String) (index : Nat) : List Token → Reading (List Param)
  | [] => return []
  | t :: rest => do
    if seen.contains t.text then refuse t.pos (.duplicateParameter t.text)
    else
      let others ← readParams (t.text :: seen) (index + 1) rest
      return ⟨t.pos, t.text, index⟩ :: others

/-- A body as a block. Without any token it stands at the given position. -/
def blockAt (fallback : Pos) (body : Tree) (statements : List Node) : Node :=
  .block (body.start?.getD fallback) statements

mutual

/-- The statements of a body. -/
def readBody : Tree → Reading (List Node)
  | .node .emptyBody _ | .node .blankBody _ => return []
  | .node (.body false false _) (first :: _) => return [← readStatement first]
  | .node (.body false true _) (first :: more :: _) =>
    return (← readStatement first) :: (← readMore more)
  | .node (.body true false _) (_ :: first :: _) => return [← readStatement first]
  | .node (.body true true _) (_ :: first :: more :: _) =>
    return (← readStatement first) :: (← readMore more)
  | _ => misshapen

/-- The statements after the first one. -/
def readMore : Tree → Reading (List Node)
  | .node .secondStatement [_, statement] => return [← readStatement statement]
  | .node .anotherStatement [more, _, statement] =>
    return (← readMore more) ++ [← readStatement statement]
  | _ => misshapen

/-- One statement. -/
def readStatement : Tree → Reading Node
  | .node .methodStatement [t] | .node .classStatement [t] | .node .assignStatement [t] =>
    readStatement t
  | .node .exprStatement [t] => readExpr t
  | .node (.methodDef false) [.leaf start, .leaf name, body, _] => do
    let statements ← inScope [] (readBody body)
    return .methodDef start.pos name.text [] (some (blockAt start.pos body statements))
  | .node (.methodDef true) [.leaf start, .leaf name, list, body, _] => do
    let params ← readParams [] 0 (paramTokens list)
    let statements ← inScope (params.map Param.name) (readBody body)
    return .methodDef start.pos name.text params (some (blockAt start.pos body statements))
  | .node .classDef [.leaf start, .leaf name, body, _] => do
    let statements ← inScope [] (readBody body)
    return .classDef start.pos name.text (blockAt start.pos body statements)
  | .node .assign [.leaf name, _, value] => do
    let value ← readExpr value
    -- The name is bound only now: its own value reads what it was before.
    modify (name.text :: ·)
    return .assign name.pos name.text value
  | _ => misshapen

/-- An expression. -/
def readExpr : Tree → Reading Node
  | .node .expr [t] | .node .singleTerm [t] | .node .singleChain [t] | .node .singlePrimary [t]
  | .node .primaryConditional [t] => readExpr t
  | .node .plus [left, .leaf op, right] | .node .minus [left, .leaf op, right]
  | .node .times [left, .leaf op, right] | .node .divide [left, .leaf op, right] => do
    let left ← readExpr left
    let right ← readExpr right
    return .call op.pos (some left) op.text [right]
  | .node (.message false) [receiver, _, .leaf name] => do
    let receiver ← readExpr receiver
    return .call name.pos (some receiver) name.text []
  | .node (.message true) [receiver, _, .leaf name, args] => do
    let receiver ← readExpr receiver
    let args ← readArgs args
    return .call name.pos (some receiver) name.text args
  | .node .integer [.leaf t] => readInteger t
  | .node .text [.leaf t] => readString t
  | .node .nil [.leaf t] => return .nil t.pos
  | .node .constant [.leaf t] => return .constant t.pos t.text
  | .node (.name false) [.leaf t] => readName t
  | .node (.name true) [.leaf t, args] => return .call t.pos none t.text (← readArgs args)
  -- The branches are read in the scope around them, and what they bind stays bound.
  | .node (.conditional false false) [.leaf start, condition, body, _] => do
    let condition ← readExpr condition
    let statements ← readBody body
    return .conditional start.pos condition (some (blockAt start.pos body statements)) none
  | .node (.conditional true false) [.leaf start, condition, _, body, _] => do
    let condition ← readExpr condition
    let statements ← readBody body
    return .conditional start.pos condition (some (blockAt start.pos body statements)) none
  | .node (.conditional false true) [.leaf start, condition, body, other, _] => do
    let condition ← readExpr condition
    let statements ← readBody body
    let other ← readElse other
    return .conditional start.pos condition (some (blockAt start.pos body statements)) (some other)
  | .node (.conditional true true) [.leaf start, condition, _, body, other, _] => do
    let condition ← readExpr condition
    let statements ← readBody body
    let other ← readElse other
    return .conditional start.pos condition (some (blockAt start.pos body statements)) (some other)
  | _ => misshapen

/-- The block of an else clause. An `elsif` is a block that holds a conditional. -/
def readElse : Tree → Reading Node
  | .node .elseClause [.leaf start, body] => do
    let statements ← readBody body
    return blockAt start.pos body statements
  | .node (.elsifClause false false) [.leaf start, condition, body] => do
    let condition ← readExpr condition
    let statements ← readBody body
    return .block start.pos
      [.conditional start.pos condition (some (blockAt start.pos body statements)) none]
  | .node (.elsifClause true false) [.leaf start, condition, _, body] => do
    let condition ← readExpr condition
    let statements ← readBody body
    return .block start.pos
      [.conditional start.pos condition (some (blockAt start.pos body statements)) none]
  | .node (.elsifClause false true) [.leaf start, condition, body, other] => do
    let condition ← readExpr condition
    let statements ← readBody body
    let other ← readElse other
    return .block start.pos
      [.conditional start.pos condition (some (blockAt start.pos body statements)) (some other)]
  | .node (.elsifClause true true) [.leaf start, condition, _, body, other] => do
    let condition ← readExpr condition
    let statements ← readBody body
    let other ← readElse other
    return .block start.pos
      [.conditional start.pos condition (some (blockAt start.pos body statements)) (some other)]
  | _ => misshapen

/-- The arguments of a call, from left to right. -/
def readArgs : Tree → Reading (List Node)
  | .node .noArgs _ => return []
  | .node (.args false) [_, first, _] => return [← readExpr first]
  | .node (.args true) [_, first, more, _] => return (← readExpr first) :: (← readArgs more)
  | .node .secondArg [_, arg] => return [← readExpr arg]
  | .node .anotherArg [more, _, arg] => return (← readArgs more) ++ [← readExpr arg]
  | _ => misshapen

end

/-- The syntax tree of a parse tree of a program. -/
def ofTree : Tree → Except StageError Node
  | .node .program [body] => do
    let (statements, _) ← (readBody body).run []
    return .block .start statements
  | _ => .error misshapenTree

/-! ### From the text -/

/-- How an error names a token. A newline that ends a statement has no text worth showing. -/
def unexpected : Option Token → Unexpected
  | none => .endOfInput
  | some t =>
    if t.kind = .terminator && t.text ≠ ";" then .endOfLine else .lexeme t.text

/-- A syntax error as a compile error. -/
def syntaxError (e : Parse.SyntaxError) : CompileError :=
  .atPos e.pos (.unexpectedToken (unexpected e.found) (e.expected.map Parse.lookaheadLabel))

/-- The parse tree of a stream of tokens. -/
def treeOf (stream : Lexer.Stream) : Except CompileError Tree := do
  let stack ← (Parse.shiftAll [] stream.tokens).mapError syntaxError
  -- The tokens before the unreadable character are parsed first, so an error among them wins.
  match stream.error? with
  | some e => throw e
  | none => (Parse.finish stream.tokens.getLast? stack).mapError syntaxError

/-- The syntax tree of a program text. -/
def read (source : String) : Except StageError Node := do
  ofTree (← (treeOf (Terminator.read source)).mapError .compile)

end Rubylet.Syntax
