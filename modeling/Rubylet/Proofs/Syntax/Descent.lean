import Rubylet.Program
import Rubylet.Proofs.Syntax.Accepted

/-!
# Finding derivations

The automaton of the grammar is large, and a fixed program need not be run through it to know what
it is read as: any derivation of its tokens will do, since there is only one.

`Descent.program?` looks for one by recursive descent. Nothing is proved of the search. What it finds
is checked (`derivation?`), and a program text is read from what passes the check
(`read_of_derivation`).
-/

namespace Rubylet.Syntax

open Rubylet.Tree

namespace Descent

/-- The terminators at the beginning of some tokens, after those that have been read. -/
def terminators (t : Tree) : List Token → Tree × List Token
  | u :: rest =>
    if u.kind = .terminator then terminators (.node .anotherTerminator [t, .leaf u]) rest
    else (t, u :: rest)
  | [] => (t, [])

/-- The separator at the beginning of some tokens. -/
def separator? : List Token → Option Tree × List Token
  | u :: rest =>
    if u.kind = .terminator then
      let (t, rest) := terminators (.node .oneTerminator [.leaf u]) rest
      (some (.node .separator [t]), rest)
    else (none, u :: rest)
  | [] => (none, [])

/-- Does a statement begin here? -/
def atStatement : List Token → Bool
  | [] => false
  | t :: _ =>
    match t.kind with
    | .kwDef | .kwClass | .kwIf | .kwNil | .name | .const | .int | .string => true
    | _ => false

/-- The parameters after the first one, after those that have been read. -/
def moreParams (more : Option Tree) : List Token → Option Tree × List Token
  | comma :: name :: rest =>
    if comma.kind = .comma then
      moreParams (some (match more with
        | none => .node .secondParam [.leaf comma, .leaf name]
        | some more => .node .anotherParam [more, .leaf comma, .leaf name])) rest
    else (more, comma :: name :: rest)
  | ts => (more, ts)

/-- The parameter list at the beginning of some tokens. -/
def paramList? : List Token → Option Tree × List Token
  | left :: next :: rest =>
    if left.kind = .lpar then
      if next.kind = .rpar then (some (.node .noParams [.leaf left, .leaf next]), rest)
      else
        match moreParams none rest with
        | (more, right :: rest) =>
          (some (.node (.params more.isSome)
            ([.leaf left, .leaf next] ++ more.toList ++ [.leaf right])), rest)
        | (_, []) => (none, left :: next :: rest)
    else (none, left :: next :: rest)
  | ts => (none, ts)

/-- The `then` at the beginning of some tokens. -/
def then? : List Token → List Tree × List Token
  | t :: rest => if t.kind = .kwThen then ([.leaf t], rest) else ([], t :: rest)
  | [] => ([], [])

mutual

/-- A body. -/
def body? : (steps : Nat) → List Token → Option (Tree × List Token)
  | 0, _ => none
  | steps + 1, ts =>
    match separator? ts with
    | (leading, ts) =>
      if atStatement ts then do
        let (first, ts) ← statement? steps ts
        let (more, trailing, ts) ← moreStatements? steps none ts
        return (.node (.body leading.isSome more.isSome trailing.isSome)
          (leading.toList ++ [first] ++ more.toList ++ trailing.toList), ts)
      else
        -- No statement: the body has a separator in it at most.
        match leading with
        | none => some (.node .emptyBody [], ts)
        | some separator => some (.node .blankBody [separator], ts)

/-- The statements after the first one, after those that have been read, and the separator at the
end. -/
def moreStatements? : (steps : Nat) → (more : Option Tree) → List Token →
    Option (Option Tree × Option Tree × List Token)
  | 0, _, _ => none
  | steps + 1, more, ts =>
    match separator? ts with
    | (none, ts) => some (more, none, ts)
    | (some separator, ts) =>
      if atStatement ts then do
        let (statement, ts) ← statement? steps ts
        moreStatements? steps (some (match more with
          | none => .node .secondStatement [separator, statement]
          | some more => .node .anotherStatement [more, separator, statement])) ts
      else some (more, some separator, ts)

/-- A statement. -/
def statement? : (steps : Nat) → List Token → Option (Tree × List Token)
  | 0, _ => none
  | steps + 1, t :: u :: rest =>
    match t.kind, u.kind with
    | .kwDef, _ =>
      match paramList? rest with
      | (params, rest) => do
        let (body, rest) ← body? steps rest
        let last :: rest := rest | none
        return (.node .methodStatement [.node (.methodDef params.isSome)
          ([.leaf t, .leaf u] ++ params.toList ++ [body, .leaf last])], rest)
    | .kwClass, _ => do
      let (body, rest) ← body? steps rest
      let last :: rest := rest | none
      return (.node .classStatement [.node .classDef [.leaf t, .leaf u, body, .leaf last]], rest)
    -- Two tokens tell an assignment from an expression that begins with a name.
    | .name, .equal => do
      let (value, rest) ← expr? steps rest
      return (.node .assignStatement [.node .assign [.leaf t, .leaf u, value]], rest)
    | _, _ => do
      let (x, rest) ← expr? steps (t :: u :: rest)
      return (.node .exprStatement [x], rest)
  | steps + 1, ts => do
    let (x, rest) ← expr? steps ts
    return (.node .exprStatement [x], rest)

/-- An expression. -/
def expr? : (steps : Nat) → List Token → Option (Tree × List Token)
  | 0, _ => none
  | steps + 1, ts => do
    let (first, ts) ← term? steps ts
    let (sum, ts) ← terms? steps (.node .singleTerm [first]) ts
    return (.node .expr [sum], ts)

/-- The terms after the first one, after those that have been read. -/
def terms? : (steps : Nat) → Tree → List Token → Option (Tree × List Token)
  | steps + 1, sum, op :: ts =>
    match op.kind with
    | .plus => do
      let (term, ts) ← term? steps ts
      terms? steps (.node .plus [sum, .leaf op, term]) ts
    | .minus => do
      let (term, ts) ← term? steps ts
      terms? steps (.node .minus [sum, .leaf op, term]) ts
    | _ => some (sum, op :: ts)
  | _, sum, ts => some (sum, ts)

/-- A term. -/
def term? : (steps : Nat) → List Token → Option (Tree × List Token)
  | 0, _ => none
  | steps + 1, ts => do
    let (first, ts) ← chain? steps ts
    chains? steps (.node .singleChain [first]) ts

/-- The factors after the first one, after those that have been read. -/
def chains? : (steps : Nat) → Tree → List Token → Option (Tree × List Token)
  | steps + 1, term, op :: ts =>
    match op.kind with
    | .star => do
      let (chain, ts) ← chain? steps ts
      chains? steps (.node .times [term, .leaf op, chain]) ts
    | .slash => do
      let (chain, ts) ← chain? steps ts
      chains? steps (.node .divide [term, .leaf op, chain]) ts
    | _ => some (term, op :: ts)
  | _, term, ts => some (term, ts)

/-- A primary expression and the messages sent to it. -/
def chain? : (steps : Nat) → List Token → Option (Tree × List Token)
  | 0, _ => none
  | steps + 1, ts => do
    let (first, ts) ← primary? steps ts
    messages? steps (.node .singlePrimary [first]) ts

/-- The messages after what has been read. -/
def messages? : (steps : Nat) → Tree → List Token → Option (Tree × List Token)
  | steps + 1, chain, dot :: name :: ts =>
    if dot.kind = .dot then do
      let (args, ts) ← callArgs? steps ts
      messages? steps (.node (.message args.isSome)
        ([chain, .leaf dot, .leaf name] ++ args.toList)) ts
    else some (chain, dot :: name :: ts)
  | _, chain, ts => some (chain, ts)

/-- A primary expression. -/
def primary? : (steps : Nat) → List Token → Option (Tree × List Token)
  | steps + 1, t :: ts =>
    match t.kind with
    | .int => some (.node .integer [.leaf t], ts)
    | .string => some (.node .text [.leaf t], ts)
    | .kwNil => some (.node .nil [.leaf t], ts)
    | .const => some (.node .constant [.leaf t], ts)
    | .name => do
      let (args, ts) ← callArgs? steps ts
      return (.node (.name args.isSome) (.leaf t :: args.toList), ts)
    | .kwIf => do
      let (condition, ts) ← expr? steps ts
      let (thens, ts) := then? ts
      let (body, ts) ← body? steps ts
      let (other, ts) ← elseClause? steps ts
      let last :: ts := ts | none
      return (.node .primaryConditional [.node (.conditional (!thens.isEmpty) other.isSome)
        ([.leaf t, condition] ++ thens ++ [body] ++ other.toList ++ [.leaf last])], ts)
    | _ => none
  | _, _ => none

/-- The else clause at the beginning of some tokens. -/
def elseClause? : (steps : Nat) → List Token → Option (Option Tree × List Token)
  | steps + 1, t :: ts =>
    match t.kind with
    | .kwElse => do
      let (body, ts) ← body? steps ts
      return (some (.node .elseClause [.leaf t, body]), ts)
    | .kwElsif => do
      let (condition, ts) ← expr? steps ts
      let (thens, ts) := then? ts
      let (body, ts) ← body? steps ts
      let (other, ts) ← elseClause? steps ts
      return (some (.node (.elsifClause (!thens.isEmpty) other.isSome)
        ([.leaf t, condition] ++ thens ++ [body] ++ other.toList)), ts)
    | _ => some (none, t :: ts)
  | _, ts => some (none, ts)

/-- The arguments at the beginning of some tokens. -/
def callArgs? : (steps : Nat) → List Token → Option (Option Tree × List Token)
  | steps + 1, left :: next :: ts =>
    if left.kind = .lpar then
      if next.kind = .rpar then some (some (.node .noArgs [.leaf left, .leaf next]), ts)
      else do
        let (first, ts) ← expr? steps (next :: ts)
        let (more, ts) ← moreArgs? steps none ts
        let right :: ts := ts | none
        return (some (.node (.args more.isSome)
          ([.leaf left, first] ++ more.toList ++ [.leaf right])), ts)
    else some (none, left :: next :: ts)
  | _, ts => some (none, ts)

/-- The arguments after the first one, after those that have been read. -/
def moreArgs? : (steps : Nat) → (more : Option Tree) → List Token →
    Option (Option Tree × List Token)
  | steps + 1, more, comma :: ts =>
    if comma.kind = .comma then do
      let (arg, ts) ← expr? steps ts
      moreArgs? steps (some (match more with
        | none => .node .secondArg [.leaf comma, arg]
        | some more => .node .anotherArg [more, .leaf comma, arg])) ts
    else some (more, comma :: ts)
  | _, more, ts => some (more, ts)

end

/-- A tree for some tokens: one level of the descent is a few steps, and every level but the last
reads a token. -/
def program? (ts : List Token) : Option Tree :=
  (body? (12 * (ts.length + 1)) ts).map fun (body, _) => .node .program [body]

end Descent

/-- The derivation of some tokens, if the descent comes to one. -/
def derivation? (ts : List Token) : Option Tree :=
  (Descent.program? ts).filter fun t => follows (.phrase .program) t && t.tokens == ts

/-- What the descent returns has been checked to be a derivation. -/
theorem derives_of_derivation {ts : List Token} {t : Tree} (h : derivation? ts = some t) :
    Derives (.phrase .program) t ∧ t.tokens = ts := by
  have hchecked := (Option.filter_eq_some_iff.mp h).2
  rw [Bool.and_eq_true, beq_iff_eq] at hchecked
  exact ⟨derives_of_follows t hchecked.1, hchecked.2⟩

/-- What a program text without a lexical error is read as, by the derivation of its tokens. -/
def descend? (source : String) : Option (Except StageError Node) :=
  match Terminator.read source with
  | ⟨tokens, none⟩ => (derivation? tokens).map ofTree
  | ⟨_, some _⟩ => none

/-- What a program text with some characters is read as, by the derivation of its tokens. -/
def descendChars? (cs : List Char) : Option (Except StageError Node) :=
  match Lexer.scan cs.length .start cs with
  | ⟨tokens, none⟩ => (derivation? (Terminator.insert tokens)).map ofTree
  | ⟨_, some _⟩ => none

/-- A text that is written out is evaluated from its characters: `String.toList` would take time in
the square of their number. -/
theorem descend?_ofList (cs : List Char) : descend? (String.ofList cs) = descendChars? cs := by
  unfold descend? descendChars? Terminator.read Lexer.tokens
  rw [String.toList_ofList]
  rcases Lexer.scan cs.length .start cs with ⟨tokens, _ | e⟩ <;> rfl

theorem descend?_append (cs ds : List Char) :
    descend? (String.ofList cs ++ String.ofList ds) = descendChars? (cs ++ ds) := by
  rw [← String.ofList_append, descend?_ofList]

/-- **A program text is read by descent**, wherever that comes to an end. -/
theorem read_of_descend {source : String} {result : Except StageError Node}
    (h : descend? source = some result) : read source = result := by
  unfold descend? at h
  split at h
  · next tokens hstream =>
    obtain ⟨t, hfound, rfl⟩ := Option.map_eq_some_iff.mp h
    obtain ⟨ht, htokens⟩ := derives_of_derivation hfound
    exact read_of_derives (by rw [hstream]) ht (by rw [hstream, htokens])
  · cases h

/-- What a descent finds out about the syntax of a text. -/
theorem exists_of_descend {source : String} {P : Node → Bool}
    (h : ((descend? source).any fun result => result.toOption.any P) = true) :
    ∃ root, read source = .ok root ∧ P root := by
  obtain ⟨result, hresult, h⟩ := Option.any_eq_true _ _ |>.mp h
  rw [read_of_descend hresult]
  cases result with
  | error e => cases h
  | ok root => exact ⟨root, rfl, h⟩

/-- The code of a source that the descent accepts. -/
theorem code_of_descend {source : String} {result : Except StageError (List Instruction)}
    (h : (descend? source).map (· >>= Program.codeOf) = some result) :
    Program.code source = result := by
  obtain ⟨root, hroot, rfl⟩ := Option.map_eq_some_iff.mp h
  rw [Program.code, read_of_descend hroot]

end Rubylet.Syntax
