import Rubylet.Proofs.Grammar.Parsing
import Rubylet.Syntax.Read

/-!
# What a derivation prescribes

`Reads` says what syntax a derivation stands for, rule by rule and without any order of evaluation:
most rules stand for what their parts stand for, one after the other, and the others put one piece
of syntax together. Scopes are passed from each part to the next one. What a string literal stands
for is said by `Denotes`, an integer literal stands for its value as long as it does not have too
many digits.

* A derivation prescribes one syntax tree at most (`Reads.unique`).
-/

namespace Rubylet

namespace Rule

/-- Does a rule stand for what its parts stand for, one after the other? -/
def passes : Rule → Bool
  | program | emptyBody | blankBody | body _ _ _ | separator | oneTerminator | anotherTerminator
  | secondStatement | anotherStatement | methodStatement | classStatement | assignStatement
  | exprStatement | expr | singleTerm | singleChain | singlePrimary | primaryConditional
  | noArgs | args _ | secondArg | anotherArg => true
  | _ => false

/-- Does a rule put an operator between two operands? -/
def isBinary : Rule → Bool
  | plus | minus | times | divide => true
  | _ => false

end Rule

namespace Syntax

open Rubylet.Tree

/-! ### String literals -/

/-- What the inside of a literal between double quotes stands for. A backslash and the character
after it stand for one character. -/
inductive DoubleQuoted : List Char → List Char → Prop
  | nil : DoubleQuoted [] []
  | escape {c rest value} : isUnsupportedEscape c = false → DoubleQuoted rest value →
      DoubleQuoted ('\\' :: c :: rest) (unescape c :: value)
  | plain {c rest value} : c ≠ '\\' ∨ rest = [] → DoubleQuoted rest value →
      DoubleQuoted (c :: rest) (c :: value)

/-- What the inside of a literal between apostrophes stands for. A backslash stands for itself,
unless another one or an apostrophe comes after it. -/
inductive SingleQuoted : List Char → List Char → Prop
  | nil : SingleQuoted [] []
  | escape {c rest value} : c = '\\' ∨ c = '\x27' → SingleQuoted rest value →
      SingleQuoted ('\\' :: c :: rest) (c :: value)
  | plain {c rest value} : c ≠ '\\' ∨ (∀ d ∈ rest.head?, d ≠ '\\' ∧ d ≠ '\x27') →
      SingleQuoted rest value → SingleQuoted (c :: rest) (c :: value)

/-- What a string literal stands for. -/
inductive Denotes (literal value : List Char) : Prop
  | single : literal.head? = some '\x27' → SingleQuoted literal.tail.dropLast value →
      Denotes literal value
  | double : literal.head? ≠ some '\x27' → DoubleQuoted literal.tail.dropLast value →
      Denotes literal value

/-- Decoding follows the escapes that are prescribed between double quotes. -/
theorem decodeDouble_eq_ok_iff {cs value : List Char} :
    decodeDouble cs = .ok value ↔ DoubleQuoted cs value := by
  constructor
  · intro h
    -- An escape takes two characters at once, so the induction follows the decoding.
    induction cs using decodeDouble.induct generalizing value with
    | case1 => cases h; exact .nil
    | case2 c rest hc => rw [decodeDouble, if_pos hc] at h; cases h
    | case3 c rest hc ih =>
      rw [decodeDouble, if_neg hc] at h
      obtain ⟨others, hothers, rfl⟩ := exists_of_map_eq_ok h
      exact .escape (Bool.eq_false_iff.mpr hc) (ih hothers)
    | case4 c rest hc ih =>
      rw [decodeDouble.eq_3 c rest hc] at h
      obtain ⟨others, hothers, rfl⟩ := exists_of_map_eq_ok h
      refine .plain ?_ (ih hothers)
      cases rest with
      | nil => exact .inr rfl
      | cons d rest => exact .inl fun heq => hc d rest heq rfl
  · intro h
    induction h with
    | nil => rfl
    | escape hc _ ih => rw [decodeDouble, if_neg (by simp [hc]), ih]; rfl
    | @plain c rest value hc _ ih =>
      rw [decodeDouble.eq_3 c rest, ih]
      · rfl
      · rintro d rest' rfl rfl
        exact hc.elim (absurd rfl) nofun

/-- Decoding follows the escapes that are prescribed between single quotes. -/
theorem decodeSingle_eq_iff {cs value : List Char} :
    decodeSingle cs = value ↔ SingleQuoted cs value := by
  constructor
  · rintro rfl
    -- On the decoding itself: a backslash before a quote or a backslash goes, anything else stays.
    induction cs using decodeSingle.induct with
    | case1 => exact .nil
    | case2 c rest hc ih => rw [decodeSingle, if_pos hc]; exact .escape (by simpa using hc) ih
    | case3 c rest hc ih =>
      rw [decodeSingle, if_neg hc]
      refine .plain (.inr ?_) ih
      rintro d ⟨⟩
      simpa using hc
    | case4 c rest hc ih =>
      rw [decodeSingle.eq_3 c rest hc]
      refine .plain ?_ ih
      cases rest with
      | nil => exact .inr nofun
      | cons d rest => exact .inl fun heq => hc d rest heq rfl
  · intro h
    induction h with
    | nil => rfl
    | escape hc _ ih => rw [decodeSingle, if_pos (by simpa using hc), ih]
    | @plain c rest value hc _ ih =>
      cases rest with
      | nil => rw [decodeSingle.eq_3 c [] nofun, ih]
      | cons d rest =>
        -- A backslash that escapes nothing stands for itself.
        by_cases hbackslash : c = '\\'
        · subst hbackslash
          have hd := hc.resolve_left (absurd rfl) d rfl
          rw [decodeSingle, if_neg (by simpa using hd), ih]
        · rw [decodeSingle.eq_3 c (d :: rest) fun _ _ h _ => hbackslash h, ih]

/-- **Decoding a string literal answers what it stands for.** -/
theorem decodeLiteral_eq_ok_iff {literal value : List Char} :
    decodeLiteral literal = .ok value ↔ Denotes literal value := by
  unfold decodeLiteral
  dsimp only
  constructor
  · intro h
    -- The mark at the front decides which escapes there are.
    split at h
    · next hhead => exact .single hhead (decodeSingle_eq_iff.mp (Except.ok.inj h))
    · next hhead => exact .double hhead (decodeDouble_eq_ok_iff.mp h)
  · rintro (⟨hhead, h⟩ | ⟨hhead, h⟩)
    · rw [if_pos hhead, decodeSingle_eq_iff.mpr h]
    · rw [if_neg hhead, decodeDouble_eq_ok_iff.mpr h]

/-- A string literal stands for one text at most. -/
theorem Denotes.unique {literal value value' : List Char} (h : Denotes literal value)
    (h' : Denotes literal value') : value = value' :=
  Except.ok.inj ((decodeLiteral_eq_ok_iff.mpr h).symm.trans (decodeLiteral_eq_ok_iff.mpr h'))

/-! ### What is prescribed -/

/-- The names of a parameter list, in the order of the text. -/
def nameTokens (lists : List Tree) : List Token :=
  (allTokens lists).filter fun t => t.kind = .name

/-- The parameters of the given names, numbered from `index` on. -/
def parameters (index : Nat) : List Token → List Param
  | [] => []
  | t :: rest => ⟨t.pos, t.text, index⟩ :: parameters (index + 1) rest

mutual

/-- What a tree stands for where some locals are known: pieces of syntax, and the locals that are
known after it. -/
inductive Reads : Scope → Tree → List Node → Scope → Prop
  | token (scope : Scope) (t : Token) : Reads scope (.leaf t) [] scope
  | pass {scope scope' r ts xs} : r.passes → ReadsAll scope ts xs scope' →
      Reads scope (.node r ts) xs scope'
  | integer {t} (scope : Scope) : digitCount t.text.toList ≤ maxDigits →
      Reads scope (.node .integer [.leaf t]) [.integer t.pos (integerValue t.text.toList)] scope
  | text {t value} (scope : Scope) : Denotes t.text.toList value →
      Reads scope (.node .text [.leaf t]) [.text t.pos (String.ofList value)] scope
  | nil (scope : Scope) (t : Token) : Reads scope (.node .nil [.leaf t]) [.nil t.pos] scope
  | constant (scope : Scope) (t : Token) :
      Reads scope (.node .constant [.leaf t]) [.constant t.pos t.text] scope
  /-- A known name is a local, -/
  | known {scope t} : t.text ∈ scope →
      Reads scope (.node (.name false) [.leaf t]) [.localRead t.pos t.text] scope
  /-- and any other name is a call. -/
  | unknown {scope t} : t.text ∉ scope →
      Reads scope (.node (.name false) [.leaf t]) [.call t.pos none t.text []] scope
  | call {scope scope' t args xs} : Reads scope args xs scope' →
      Reads scope (.node (.name true) [.leaf t, args]) [.call t.pos none t.text xs] scope'
  | binary {scope scope₁ scope₂ r left op right x y} : r.isBinary →
      Reads scope left [x] scope₁ → Reads scope₁ right [y] scope₂ →
      Reads scope (.node r [left, .leaf op, right]) [.call op.pos (some x) op.text [y]] scope₂
  | message {scope scope₁ scope₂ hasArgs receiver dot name args x xs} :
      Reads scope receiver [x] scope₁ → ReadsAll scope₁ args xs scope₂ →
      Reads scope (.node (.message hasArgs) (receiver :: .leaf dot :: .leaf name :: args))
        [.call name.pos (some x) name.text xs] scope₂
  /-- What stands for nothing between a condition and its body is skipped. -/
  | conditional {scope scope₁ scope₂ scope₃ then? else? ts start condition body others c xs blocks}
      (thens : List Tree) :
      ts = .leaf start :: condition :: (thens ++ body :: others) → thens.length = then?.toNat →
      Reads scope condition [c] scope₁ → Reads scope₁ body xs scope₂ →
      ReadsAll scope₂ others blocks scope₃ →
      Reads scope (.node (.conditional then? else?) ts)
        [.conditional start.pos c (some (blockAt start.pos body xs)) blocks.head?] scope₃
  | elsifClause {scope scope₁ scope₂ scope₃ then? else? ts start condition body others c xs blocks}
      (thens : List Tree) :
      ts = .leaf start :: condition :: (thens ++ body :: others) → thens.length = then?.toNat →
      Reads scope condition [c] scope₁ → Reads scope₁ body xs scope₂ →
      ReadsAll scope₂ others blocks scope₃ →
      Reads scope (.node (.elsifClause then? else?) ts)
        [.block start.pos
          [.conditional start.pos c (some (blockAt start.pos body xs)) blocks.head?]] scope₃
  | elseClause {scope scope' start body xs} : Reads scope body xs scope' →
      Reads scope (.node .elseClause [.leaf start, body]) [blockAt start.pos body xs] scope'
  /-- A method knows its parameters alone, and its locals are not known outside. -/
  | methodDef {hasParams scope inner ts start name body fin xs} (lists : List Tree) :
      ts = .leaf start :: .leaf name :: (lists ++ [body, .leaf fin]) →
      lists.length = hasParams.toNat → ((nameTokens lists).map Token.text).Nodup →
      Reads ((nameTokens lists).map Token.text) body xs inner →
      Reads scope (.node (.methodDef hasParams) ts)
        [.methodDef start.pos name.text (parameters 0 (nameTokens lists))
          (some (blockAt start.pos body xs))] scope
  | classDef {scope inner start name body fin xs} : Reads [] body xs inner →
      Reads scope (.node .classDef [.leaf start, .leaf name, body, .leaf fin])
        [.classDef start.pos name.text (blockAt start.pos body xs)] scope
  /-- A local is known after the value that is assigned to it. -/
  | assign {scope scope' name equal value x} : Reads scope value [x] scope' →
      Reads scope (.node .assign [.leaf name, .leaf equal, value])
        [.assign name.pos name.text x] (name.text :: scope')

/-- What trees stand for, one after the other. -/
inductive ReadsAll : Scope → List Tree → List Node → Scope → Prop
  | nil (scope : Scope) : ReadsAll scope [] [] scope
  | cons {scope scope₁ scope₂ t ts xs ys} : Reads scope t xs scope₁ →
      ReadsAll scope₁ ts ys scope₂ → ReadsAll scope (t :: ts) (xs ++ ys) scope₂

end

/-- A derivation of a program prescribes a syntax tree. -/
def Prescribes (t : Tree) (root : Node) : Prop :=
  ∃ statements scope, Reads [] t statements scope ∧ root = .block .start statements

/-- A part before others that stand for nothing. -/
theorem ReadsAll.single {scope scope' : Scope} {t : Tree} {ts : List Tree} {xs : List Node}
    (h : Reads scope t xs scope') (hts : ReadsAll scope' ts [] scope') :
    ReadsAll scope (t :: ts) xs scope' := by
  have hall := ReadsAll.cons h hts
  rwa [List.append_nil] at hall

theorem ReadsAll.append {scope scope₁ scope₂ : Scope} {ts us : List Tree} {xs ys : List Node}
    (h : ReadsAll scope ts xs scope₁) (h' : ReadsAll scope₁ us ys scope₂) :
    ReadsAll scope (ts ++ us) (xs ++ ys) scope₂ := by
  induction ts generalizing scope xs with
  | nil => cases h; exact h'
  | cons t ts ih =>
    cases h with
    | cons ht hts =>
      rw [List.append_assoc]
      exact .cons ht (ih hts)

theorem not_passes_of_isBinary {r : Rule} (h : r.isBinary) : ¬ r.passes := by
  cases r <;> cases h <;> exact nofun

/-- The parts of a conditional are told apart by what is before the body. -/
theorem parts_inj {start start' : Token} {condition condition' body body' : Tree}
    {thens thens' others others' : List Tree} {k : Nat}
    (h : Tree.leaf start :: condition :: (thens ++ body :: others) =
      .leaf start' :: condition' :: (thens' ++ body' :: others'))
    (hlength : thens.length = k) (hlength' : thens'.length = k) :
    start = start' ∧ condition = condition' ∧ thens = thens' ∧ body = body' ∧ others = others' := by
  obtain ⟨hstart, h⟩ := List.cons.inj h
  obtain ⟨hcondition, h⟩ := List.cons.inj h
  obtain ⟨hthens, h⟩ := List.append_inj h (hlength.trans hlength'.symm)
  obtain ⟨hbody, hothers⟩ := List.cons.inj h
  exact ⟨Tree.leaf.inj hstart, hcondition, hthens, hbody, hothers⟩

/-- The parts of a method are told apart by its parameter list. -/
theorem method_parts_inj {start start' name name' fin fin' : Token} {body body' : Tree}
    {lists lists' : List Tree} {k : Nat}
    (h : Tree.leaf start :: Tree.leaf name :: (lists ++ [body, .leaf fin]) =
      .leaf start' :: .leaf name' :: (lists' ++ [body', .leaf fin']))
    (hlength : lists.length = k) (hlength' : lists'.length = k) :
    start = start' ∧ name = name' ∧ lists = lists' ∧ body = body' ∧ fin = fin' := by
  obtain ⟨hstart, h⟩ := List.cons.inj h
  obtain ⟨hname, h⟩ := List.cons.inj h
  -- The lists have one length, so what is appended to them is the same as well.
  obtain ⟨hlists, h⟩ := List.append_inj h (hlength.trans hlength'.symm)
  obtain ⟨hbody, h⟩ := List.cons.inj h
  obtain ⟨hfin, -⟩ := List.cons.inj h
  exact ⟨Tree.leaf.inj hstart, Tree.leaf.inj hname, hlists, hbody, Tree.leaf.inj hfin⟩

mutual

/-- **A tree stands for one thing at most.** -/
theorem Reads.unique {scope scope₁ scope₂ : Scope} {t : Tree} {xs ys : List Node}
    (h : Reads scope t xs scope₁) (h' : Reads scope t ys scope₂) : xs = ys ∧ scope₁ = scope₂ := by
  -- The rule of the tree decides which reading there is; only a name can be read in two ways, and
  -- then it is known or not.
  match h with
  | .token _ _ => cases h'; exact ⟨rfl, rfl⟩
  | .pass hr hts =>
    cases h' with
    | pass _ hts' => exact hts.unique hts'
    | binary hr' => exact absurd hr (not_passes_of_isBinary hr')
    | _ => cases hr
  | .integer _ _ | .nil _ _ | .constant _ _ =>
    cases h' with
    | pass hr' => cases hr'
    | _ => exact ⟨rfl, rfl⟩
  | .text _ hvalue =>
    cases h' with
    | pass hr' => cases hr'
    | text _ hvalue' =>
      obtain rfl := hvalue.unique hvalue'
      exact ⟨rfl, rfl⟩
  | .known hmem =>
    cases h' with
    | pass hr' => cases hr'
    | known => exact ⟨rfl, rfl⟩
    | unknown hmem' => exact absurd hmem hmem'
  | .unknown hmem =>
    cases h' with
    | pass hr' => cases hr'
    | known hmem' => exact absurd hmem' hmem
    | unknown => exact ⟨rfl, rfl⟩
  | .call hargs =>
    cases h' with
    | pass hr' => cases hr'
    | call hargs' =>
      obtain ⟨rfl, rfl⟩ := hargs.unique hargs'
      exact ⟨rfl, rfl⟩
  | .binary hr hleft hright =>
    cases h' with
    | pass hr' => exact absurd hr' (not_passes_of_isBinary hr)
    | binary _ hleft' hright' =>
      obtain ⟨⟨⟩, rfl⟩ := hleft.unique hleft'
      obtain ⟨⟨⟩, rfl⟩ := hright.unique hright'
      exact ⟨rfl, rfl⟩
    | _ => cases hr
  | .message hreceiver hargs =>
    cases h' with
    | pass hr' => cases hr'
    | message hreceiver' hargs' =>
      obtain ⟨⟨⟩, rfl⟩ := hreceiver.unique hreceiver'
      obtain ⟨rfl, rfl⟩ := hargs.unique hargs'
      exact ⟨rfl, rfl⟩
    | binary hr' => cases hr'
  | .conditional _ hts hlength hcondition hbody hothers =>
    cases h' with
    | pass hr' => cases hr'
    | binary hr' => cases hr'
    | conditional _ hts' hlength' hcondition' hbody' hothers' =>
      obtain ⟨rfl, rfl, rfl, rfl, rfl⟩ := parts_inj (hts.symm.trans hts') hlength hlength'
      obtain ⟨⟨⟩, rfl⟩ := hcondition.unique hcondition'
      obtain ⟨rfl, rfl⟩ := hbody.unique hbody'
      obtain ⟨rfl, rfl⟩ := hothers.unique hothers'
      exact ⟨rfl, rfl⟩
  | .elsifClause _ hts hlength hcondition hbody hothers =>
    cases h' with
    | pass hr' => cases hr'
    | binary hr' => cases hr'
    | elsifClause _ hts' hlength' hcondition' hbody' hothers' =>
      obtain ⟨rfl, rfl, rfl, rfl, rfl⟩ := parts_inj (hts.symm.trans hts') hlength hlength'
      obtain ⟨⟨⟩, rfl⟩ := hcondition.unique hcondition'
      obtain ⟨rfl, rfl⟩ := hbody.unique hbody'
      obtain ⟨rfl, rfl⟩ := hothers.unique hothers'
      exact ⟨rfl, rfl⟩
  | .elseClause hbody =>
    cases h' with
    | pass hr' => cases hr'
    | elseClause hbody' =>
      obtain ⟨rfl, rfl⟩ := hbody.unique hbody'
      exact ⟨rfl, rfl⟩
  | .methodDef lists hts hlength _ hbody =>
    cases h' with
    | pass hr' => cases hr'
    | binary hr' => cases hr'
    | methodDef lists' hts' hlength' _ hbody' =>
      obtain ⟨rfl, rfl, rfl, rfl, rfl⟩ := method_parts_inj (hts.symm.trans hts') hlength hlength'
      obtain ⟨rfl, rfl⟩ := hbody.unique hbody'
      exact ⟨rfl, rfl⟩
  | .classDef hbody =>
    cases h' with
    | pass hr' => cases hr'
    | classDef hbody' =>
      obtain ⟨rfl, rfl⟩ := hbody.unique hbody'
      exact ⟨rfl, rfl⟩
  | .assign hvalue =>
    cases h' with
    | pass hr' => cases hr'
    | binary hr' => cases hr'
    | assign hvalue' =>
      obtain ⟨⟨⟩, rfl⟩ := hvalue.unique hvalue'
      exact ⟨rfl, rfl⟩

/-- Parts are read in one way. -/
theorem ReadsAll.unique {scope scope₁ scope₂ : Scope} {ts : List Tree} {xs ys : List Node}
    (h : ReadsAll scope ts xs scope₁) (h' : ReadsAll scope ts ys scope₂) :
    xs = ys ∧ scope₁ = scope₂ := by
  match h with
  | .nil _ => cases h'; exact ⟨rfl, rfl⟩
  | .cons ht hts =>
    cases h' with
    | cons ht' hts' =>
      obtain ⟨rfl, rfl⟩ := ht.unique ht'
      obtain ⟨rfl, rfl⟩ := hts.unique hts'
      exact ⟨rfl, rfl⟩

end

end Syntax

end Rubylet
