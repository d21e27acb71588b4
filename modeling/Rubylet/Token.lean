import Rubylet.Position

/-!
# Tokens

The kinds of tokens are listed in the increasing order of their printed names, so that a list of
kinds in this order is sorted by name.
-/

namespace Rubylet

/-- The kinds of tokens. `newline` and `semi` are made by the lexer alone; the parser sees
`terminator` in their place. -/
inductive TokenKind where
  | kwClass
  | comma
  | const
  | kwDef
  | dot
  | kwElse
  | kwElsif
  | kwEnd
  | equal
  | kwIf
  | int
  | lpar
  | minus
  | name
  | newline
  | kwNil
  | plus
  | rpar
  | semi
  | slash
  | star
  | string
  | terminator
  | kwThen
  deriving Repr, DecidableEq, Inhabited

namespace TokenKind

/-- The printed name of a kind. -/
def label : TokenKind → String
  | kwClass => "CLASS"
  | comma => "COMMA"
  | const => "CONST"
  | kwDef => "DEF"
  | dot => "DOT"
  | kwElse => "ELSE"
  | kwElsif => "ELSIF"
  | kwEnd => "END"
  | equal => "EQUAL"
  | kwIf => "IF"
  | int => "INT"
  | lpar => "LPAR"
  | minus => "MINUS"
  | name => "NAME"
  | newline => "NEWLINE"
  | kwNil => "NIL"
  | plus => "PLUS"
  | rpar => "RPAR"
  | semi => "SEMI"
  | slash => "SLASH"
  | star => "STAR"
  | string => "STRING"
  | terminator => "TERMINATOR"
  | kwThen => "THEN"

/-- All kinds, in the order of their printed names. -/
def all : List TokenKind :=
  [kwClass, comma, const, kwDef, dot, kwElse, kwElsif, kwEnd, equal, kwIf, int, lpar, minus, name,
    newline, kwNil, plus, rpar, semi, slash, star, string, terminator, kwThen]

theorem mem_all (k : TokenKind) : k ∈ all := by cases k <;> decide

end TokenKind

/-- A token: its kind, its text as it stands in the program, and where it begins. -/
structure Token where
  kind : TokenKind
  text : String
  pos : Pos
  deriving Repr, DecidableEq, Inhabited

end Rubylet
