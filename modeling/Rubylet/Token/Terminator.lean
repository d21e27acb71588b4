import Rubylet.Token.Lexer

/-!
# Statement terminators

Newlines end a statement only where a statement can end: outside parentheses, and right after a
token that can be the last one of a statement. Every other newline disappears. A semicolon
always ends a statement.

`Terminator.insert` replaces the newlines and semicolons of a token list by terminators in one
pass that carries two facts: how deep in parentheses it is, and whether the token before could
end a statement.
-/

namespace Rubylet.Terminator

/-- Can a token of this kind be the last one of a statement? -/
def canEnd : TokenKind → Bool
  | .name | .const | .int | .string | .kwNil | .rpar | .kwEnd => true
  | _ => false

/-- What the pass knows about the tokens before. -/
structure State where
  /-- The number of open parentheses; a closing one too many does not count. -/
  depth : Nat
  /-- Could the token before end a statement? -/
  ready : Bool
  deriving Repr, DecidableEq, Inhabited

namespace State

/-- At the beginning of a program. -/
def initial : State := ⟨0, false⟩

/-- The state after a token that is neither a newline nor a semicolon. -/
def after (s : State) (kind : TokenKind) : State where
  depth :=
    match kind with
    | .lpar => s.depth + 1
    | .rpar => s.depth - 1
    | _ => s.depth
  ready := canEnd kind

/-- The state after a terminator. -/
def closed (s : State) : State := { s with ready := false }

end State

/-- The token as a terminator. -/
def terminate (t : Token) : Token := { t with kind := .terminator }

/-- Replaces newlines and semicolons from a state on. -/
def insertFrom : State → List Token → List Token
  | _, [] => []
  | s, t :: rest =>
    match t.kind with
    | .newline =>
      if s.depth = 0 && s.ready then terminate t :: insertFrom s.closed rest
      else insertFrom s rest
    -- A semicolon ends a statement also inside parentheses, where the parser then meets it.
    | .semi => terminate t :: insertFrom s.closed rest
    | kind => t :: insertFrom (s.after kind) rest

/-- The tokens of a program with its statement ends marked by terminators. -/
def insert (ts : List Token) : List Token := insertFrom .initial ts

/-- The tokens of a program text as the parser reads them. -/
def read (source : String) : Lexer.Stream :=
  let stream := Lexer.tokens source
  { stream with tokens := insert stream.tokens }

end Rubylet.Terminator
