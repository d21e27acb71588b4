import Rubylet.Token
import Rubylet.CompileError

/-!
# From text to tokens

The lexer cuts a program text into the longest lexemes. A lexeme is a token or is skipped:
comments, blanks within a line, and a backslash that joins a line to the next one.

* A word of lower-case start is a keyword only if the whole word is one.
* Digits may be grouped by single underscores.
* A string may hold any escaped character but a line feed, and no bare line feed.
* A newline is a line feed, or a carriage return and a line feed; a carriage return alone is no
  lexeme.

`Lexer.tokens` lists the tokens up to the first character that begins no lexeme, together with the
error at that character: a reader that stops earlier never meets the error.
-/

namespace Rubylet.Lexer

/-! ### Character classes -/

/-- May the character begin a name? -/
def isNameStart (c : Char) : Bool := ('a' ≤ c && c ≤ 'z') || c = '_'

/-- May the character begin a constant? -/
def isConstStart (c : Char) : Bool := 'A' ≤ c && c ≤ 'Z'

/-- A decimal digit. -/
def isDigit (c : Char) : Bool := '0' ≤ c && c ≤ '9'

/-- May the character continue a name or a constant? -/
def isWordChar (c : Char) : Bool := isNameStart c || isConstStart c || isDigit c

/-- A blank within a line. -/
def isInlineBlank (c : Char) : Bool := c = ' ' || c = '\t' || c = '\x0c'

/-! ### Lexemes -/

/-- The kind of a word that begins like a name. -/
def wordKind (word : List Char) : TokenKind :=
  match String.ofList word with
  | "def" => .kwDef
  | "end" => .kwEnd
  | "class" => .kwClass
  | "if" => .kwIf
  | "elsif" => .kwElsif
  | "else" => .kwElse
  | "then" => .kwThen
  | "nil" => .kwNil
  | _ => .name

/-- The kind of a character that is a token by itself. -/
def punctuation? : Char → Option TokenKind
  | '+' => some .plus
  | '-' => some .minus
  | '*' => some .star
  | '/' => some .slash
  | '.' => some .dot
  | ',' => some .comma
  | '=' => some .equal
  | '(' => some .lpar
  | ')' => some .rpar
  | ';' => some .semi
  | '\n' => some .newline
  | _ => none

/-- The longest run of digits in groups joined by single underscores, after a first digit. -/
def digitGroups : List Char → List Char
  | [] => []
  | '_' :: d :: rest => if isDigit d then '_' :: d :: digitGroups rest else []
  | c :: rest => if isDigit c then c :: digitGroups rest else []

/-- The rest of a string up to and with its closing `mark`, if it is closed. -/
def stringRest (mark : Char) : List Char → Option (List Char)
  | [] => none
  | '\\' :: c :: rest =>
    -- A line feed ends the attempt, escaped or not.
    if c = '\n' then none else (stringRest mark rest).map fun s => '\\' :: c :: s
  | c :: rest =>
    if c = mark then some [c]
    else if c = '\\' || c = '\n' then none
    else (stringRest mark rest).map (c :: ·)

/-- The newline at the beginning of a text. -/
def newline? : List Char → Option (List Char)
  | '\n' :: _ => some ['\n']
  | '\r' :: '\n' :: _ => some ['\r', '\n']
  | _ => none

/-- A lexeme: its kind, or `none` if it is skipped, and its characters. -/
structure Lexeme where
  kind? : Option TokenKind
  chars : List Char
  deriving Repr, DecidableEq, Inhabited

/-- The longest lexeme that begins with `c` and goes on into `rest`. -/
def lexeme? (c : Char) (rest : List Char) : Option Lexeme :=
  if isNameStart c then
    let word := c :: rest.takeWhile isWordChar
    some ⟨some (wordKind word), word⟩
  else if isConstStart c then some ⟨some .const, c :: rest.takeWhile isWordChar⟩
  else if isDigit c then some ⟨some .int, c :: digitGroups rest⟩
  else if c = '\x22' || c = '\x27' then
    (stringRest c rest).map fun s => ⟨some .string, c :: s⟩
  else if c = '#' then some ⟨none, c :: rest.takeWhile (· ≠ '\n')⟩
  else if isInlineBlank c then some ⟨none, c :: rest.takeWhile isInlineBlank⟩
  else if c = '\\' then
    let blanks := rest.takeWhile isInlineBlank
    (newline? (rest.dropWhile isInlineBlank)).map fun s => ⟨none, c :: (blanks ++ s)⟩
  else if c = '\r' then
    (newline? (c :: rest)).map fun s => ⟨some .newline, s⟩
  else (punctuation? c).map fun kind => ⟨some kind, [c]⟩

/-! ### Positions -/

/-- The position after one character. Only a line feed begins a new line. -/
def advance (pos : Pos) (c : Char) : Pos :=
  if c = '\n' then ⟨pos.line + 1, 1⟩ else ⟨pos.line, pos.column + 1⟩

/-- The position after some characters. -/
def advanceAll (pos : Pos) (cs : List Char) : Pos := cs.foldl advance pos

/-! ### Tokens -/

/-- A list of tokens, and the error after them if the text could not be read to its end. -/
structure Stream where
  tokens : List Token
  error? : Option CompileError
  deriving Repr, DecidableEq, Inhabited

/-- The stream that begins with one more token. -/
def Stream.cons (t : Token) (s : Stream) : Stream := { s with tokens := t :: s.tokens }

/-- The tokens of a text that begins at `pos`. Every lexeme has a character, so as many steps as
the text has characters read all of it. -/
def scan : (steps : Nat) → Pos → List Char → Stream
  | _, _, [] => ⟨[], none⟩
  | 0, _, _ :: _ => ⟨[], none⟩
  | steps + 1, pos, c :: rest =>
    match lexeme? c rest with
    | none => ⟨[], some (.atPos pos (.unexpectedCharacter c))⟩
    | some lexeme =>
      let after := scan steps (advanceAll pos lexeme.chars)
        ((c :: rest).drop lexeme.chars.length)
      match lexeme.kind? with
      | none => after
      | some kind => after.cons ⟨kind, String.ofList lexeme.chars, pos⟩

/-- The tokens of a program text. -/
def tokens (source : String) : Stream :=
  scan source.toList.length .start source.toList

end Rubylet.Lexer
