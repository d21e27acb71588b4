import Mathlib.Data.List.TakeWhile
import Rubylet.Proofs.Syntax.Names
import Rubylet.Proofs.Syntax.Places
import Rubylet.Proofs.Syntax.Terminators
import Rubylet.Text.Basic

/-!
# How names are spelled

A tree built by hand may give anything any name. The names in a program text are tokens of the text:
words, or one of the operators. So none is empty, and none has a blank or a line break in it
(`Text.Visible`).

The names of a piece of syntax are followed as its positions are: `Node.Named V` says of any property
of names that all names in a piece of syntax have it, `Syntax.named_of_read` that what is read has
visible names, and `Surface.spelled_lower` that the code of a program has no other ones.
-/

namespace Rubylet

open Rubylet.Tree

/-- Is there something in the text, and nothing blank? -/
def Text.Visible (s : String) : Prop := s ≠ "" ∧ ∀ c ∈ s.toList, Text.isBlank c = false

theorem Text.visible_ofList {cs : List Char} (hne : cs ≠ []) (h : ∀ c ∈ cs, isBlank c = false) :
    Visible (String.ofList cs) :=
  ⟨fun hnil => hne (String.ofList_injective hnil), by rwa [String.toList_ofList]⟩

/-! ### Tokens -/

/-- Do tokens of this kind name something? -/
def TokenKind.isNaming : TokenKind → Bool
  | .name | .const | .plus | .minus | .star | .slash => true
  | _ => false

namespace Lexer

theorem not_isBlank_of_isWordChar {c : Char} (h : isWordChar c) : Text.isBlank c = false := by
  have hrange : 0x30 ≤ c.toNat ∧ c.toNat ≤ 0x7a := by
    simp only [isWordChar, isNameStart, isConstStart, isDigit, Bool.or_eq_true, Bool.and_eq_true,
      decide_eq_true_eq, Char.le_def, UInt32.le_iff_toNat_le] at h
    rcases h with ((h | rfl) | h) | h
    · exact ⟨le_trans (by decide) h.1, h.2⟩
    · decide
    · exact ⟨le_trans (by decide) h.1, le_trans h.2 (by decide)⟩
    · exact ⟨h.1, le_trans h.2 (by decide)⟩
  simp only [Text.isBlank, Bool.or_eq_false_iff, Bool.and_eq_false_iff, decide_eq_false_iff_not]
  omega

theorem visible_word {c : Char} (rest : List Char) (h : isNameStart c ∨ isConstStart c) :
    Text.Visible (String.ofList (c :: rest.takeWhile isWordChar)) := by
  refine Text.visible_ofList (List.cons_ne_nil _ _) fun d hd => not_isBlank_of_isWordChar ?_
  rcases List.mem_cons.mp hd with rfl | hd
  · rcases h with h | h <;> simp [isWordChar, h]
  · exact List.mem_takeWhile_imp hd

/-- An operator is a character that is not blank. -/
theorem visible_punctuation {c : Char} {kind : TokenKind} (h : punctuation? c = some kind)
    (hkind : kind.isNaming) : Text.Visible (String.ofList [c]) := by
  refine Text.visible_ofList (List.cons_ne_nil _ _) (List.forall_mem_singleton.mpr ?_)
  unfold punctuation? at h
  split at h <;> cases h <;> first | rfl | cases hkind

/-- **A naming token is visible.** -/
theorem visible_of_lexeme {c : Char} {rest chars : List Char} {kind : TokenKind}
    (h : lexeme? c rest = some ⟨some kind, chars⟩) (hkind : kind.isNaming) :
    Text.Visible (String.ofList chars) := by
  unfold lexeme? at h
  -- The kinds that name something are words and operators; each of the others is ruled out.
  split at h
  · next hstart =>
    obtain ⟨-, rfl⟩ := Lexeme.mk.inj (Option.some.inj h)
    exact visible_word rest (.inl hstart)
  split at h
  · next hstart =>
    obtain ⟨-, rfl⟩ := Lexeme.mk.inj (Option.some.inj h)
    exact visible_word rest (.inr hstart)
  split at h
  · cases h; cases hkind
  split at h
  · obtain ⟨s, -, heq⟩ := Option.map_eq_some_iff.mp h
    cases heq; cases hkind
  split at h
  · cases h
  split at h
  · cases h
  split at h
  · obtain ⟨s, -, heq⟩ := Option.map_eq_some_iff.mp h
    cases heq
  split at h
  · obtain ⟨s, -, heq⟩ := Option.map_eq_some_iff.mp h
    cases heq; cases hkind
  · obtain ⟨kind, hpunctuation, heq⟩ := Option.map_eq_some_iff.mp h
    cases heq
    exact visible_punctuation hpunctuation hkind

end Lexer

/-- A token names something only if it is visible. -/
def Token.Spelled (t : Token) : Prop := t.kind.isNaming → Text.Visible t.text

namespace Terminator

/-- The pass makes nothing but terminators. -/
theorem mem_or_terminates {t : Token} {ts : List Token} {s : State} (h : t ∈ insertFrom s ts) :
    t ∈ ts ∨ t.kind = .terminator := by
  induction ts generalizing s with
  | nil => cases h
  | cons u ts ih =>
    rw [insertFrom_cons, List.mem_append] at h
    rcases h with h | h
    -- The pass keeps a token, makes it a terminator, or drops it.
    · have hemit : emit s u = [u] ∨ emit s u = [terminate u] ∨ emit s u = [] := by
        unfold emit
        split
        · split
          · exact .inr (.inl rfl)
          · exact .inr (.inr rfl)
        · exact .inr (.inl rfl)
        · exact .inl rfl
      rcases hemit with heq | heq | heq <;> rw [heq] at h
      · exact .inl (List.mem_singleton.mp h ▸ .head _)
      · exact .inr (List.mem_singleton.mp h ▸ rfl)
      · cases h
    · exact (ih h).imp_left (.tail _)

/-- **The names of a program text are visible.** -/
theorem spelled_of_mem_read {source : String} {t : Token} (h : t ∈ (read source).tokens) :
    t.Spelled := by
  intro hkind
  rcases mem_or_terminates h with h | h
  · obtain ⟨c, rest, chars, hlexeme, htext⟩ := Lexer.exists_lexeme_of_mem_scan _ h
    exact htext ▸ Lexer.visible_of_lexeme hlexeme hkind
  · rw [h] at hkind; cases hkind

end Terminator

/-! ### Pieces of syntax -/

variable {V : String → Prop}

mutual

/-- All names in a piece of syntax have a property, those of parameters included. -/
def Node.Named (V : String → Prop) : Node → Prop
  | .block _ statements => Node.NamedAll V statements
  | .call _ receiver name args => V name ∧ Node.NamedOpt V receiver ∧ Node.NamedAll V args
  | .argument param => V param.name
  | .methodDef _ name params body =>
    V name ∧ (∀ p ∈ params, V p.name) ∧ Node.NamedOpt V body
  | .classDef _ name body => V name ∧ body.Named V
  | .conditional _ condition thenBody elseBody =>
    condition.Named V ∧ Node.NamedOpt V thenBody ∧ Node.NamedOpt V elseBody
  | .assign _ name value => V name ∧ value.Named V
  | .localRead _ name | .constant _ name => V name
  | .integer _ _ | .text _ _ | .nil _ | .unsupported _ _ _ | .foreign _ => True

/-- The same for several pieces. -/
def Node.NamedAll (V : String → Prop) : List Node → Prop
  | [] => True
  | x :: xs => x.Named V ∧ Node.NamedAll V xs

/-- The same for a piece that may be missing. -/
def Node.NamedOpt (V : String → Prop) : Option Node → Prop
  | none => True
  | some x => x.Named V

end

namespace Node

variable {xs ys : List Node}

theorem namedAll_append : NamedAll V (xs ++ ys) ↔ NamedAll V xs ∧ NamedAll V ys := by
  induction xs with
  | nil => simp [NamedAll]
  | cons x xs ih => rw [List.cons_append, NamedAll, NamedAll, ih, and_assoc]

theorem NamedAll.head? (h : NamedAll V xs) : NamedOpt V xs.head? := by
  cases xs with
  | nil => trivial
  | cons x xs => exact h.1

end Node

namespace Syntax

/-- What is read part by part has the names of the parts. -/
theorem ReadsAll.named {scope scope' : Scope} {ts : List Tree} {xs : List Node}
    (h : ReadsAll scope ts xs scope')
    (ih : ∀ u ∈ ts, ∀ {scope scope' xs}, Reads scope u xs scope' → Node.NamedAll V xs) :
    Node.NamedAll V xs := by
  induction ts generalizing scope xs with
  | nil => cases h; trivial
  | cons t ts iht =>
    cases h with
    | cons ht hts =>
      exact Node.namedAll_append.mpr
        ⟨ih t (.head _) ht, iht hts fun u hu => ih u (.tail _ hu)⟩

/-- A token is of the kind that its rule asks for. -/
theorem kind_of_derivesAll {ss : List Symbol} {ts : List Tree} {n : Nat} {kind : TokenKind}
    {token : Token} (hts : DerivesAll ss ts) (hs : ss[n]? = some (.token kind))
    (ht : ts[n]? = some (.leaf token)) : token.kind = kind := by
  -- On the place of the leaf.
  induction n generalizing ss ts with
  | zero =>
    cases hts with
    | nil => cases hs
    | cons h _ =>
      obtain rfl := Option.some.inj hs
      obtain rfl := Option.some.inj ht
      obtain ⟨_, heq, hkind⟩ := derives_token_iff.mp h
      exact Tree.leaf.inj heq ▸ hkind
  | succ n ih =>
    cases hts with
    | nil => cases hs
    | cons _ h => exact ih h hs ht

/-- **The names in what is read are naming tokens.** -/
theorem Reads.named {s : Symbol} {scope scope' : Scope} {t : Tree} {xs : List Node}
    (h : Reads scope t xs scope') (hd : Derives s t)
    (hV : ∀ u ∈ t.tokens, u.kind.isNaming → V u.text) : Node.NamedAll V xs := by
  induction t using Tree.induction_parts generalizing s scope scope' xs with
  | leaf token => cases h; trivial
  | node r ts ih =>
    obtain ⟨rfl, hts⟩ := derives_node_iff.mp hd
    -- The tokens of a part are tokens of the whole, so all that is read from a part is named.
    have hpart : ∀ u ∈ ts, ∀ {scope scope' xs}, Reads scope u xs scope' → Node.NamedAll V xs := by
      intro u hu scope scope' xs h
      obtain ⟨s, -, hd⟩ := exists_derives_of_mem hts hu
      exact ih u hu h hd fun v hv => hV v (mem_allTokens hu hv)
    -- The rule says at which place a naming token stands.
    have hname {n : Nat} {kind : TokenKind} {token : Token}
        (hs : r.symbols[n]? = some (.token kind)) (hkind : kind.isNaming)
        (ht : ts[n]? = some (.leaf token)) : V token.text :=
      hV token (mem_allTokens (List.mem_of_getElem? ht) (.head _))
        (kind_of_derivesAll hts hs ht ▸ hkind)
    cases h with
    | pass _ h => exact h.named hpart
    | integer | text | nil => exact ⟨trivial, trivial⟩
    | constant | known => exact ⟨hname (n := 0) rfl rfl rfl, trivial⟩
    | unknown => exact ⟨⟨hname (n := 0) rfl rfl rfl, trivial, trivial⟩, trivial⟩
    | call hargs =>
      exact ⟨⟨hname (n := 0) rfl rfl rfl, trivial, hpart _ (.tail _ (.head _)) hargs⟩, trivial⟩
    | @binary _ _ _ _ left op right x y hr hleft hright =>
      have hop : V op.text := by
        cases r <;> cases hr <;> exact hname (n := 1) rfl rfl rfl
      have hright := hpart _ (.tail _ (.tail _ (.head _))) hright
      exact ⟨⟨hop, (hpart _ (.head _) hleft).1, hright⟩, trivial⟩
    | message hreceiver hargs =>
      have hs := hargs.named fun u hu => hpart u (.tail _ (.tail _ (.tail _ hu)))
      exact ⟨⟨hname (n := 2) rfl rfl rfl, (hpart _ (.head _) hreceiver).1, hs⟩, trivial⟩
    | conditional thens heq _ hcondition hbody hothers =>
      subst heq
      have hs := hothers.named fun u hu => hpart u (by simp [hu])
      exact ⟨⟨(hpart _ (by simp) hcondition).1, hpart _ (by simp) hbody, hs.head?⟩, trivial⟩
    | elsifClause thens heq _ hcondition hbody hothers =>
      subst heq
      have hs := hothers.named fun u hu => hpart u (by simp [hu])
      exact ⟨⟨⟨(hpart _ (by simp) hcondition).1, hpart _ (by simp) hbody, hs.head?⟩, trivial⟩,
        trivial⟩
    | elseClause hbody => exact ⟨hpart _ (by simp) hbody, trivial⟩
    | methodDef lists heq _ _ hbody =>
      subst heq
      have hparams : ∀ p ∈ parameters 0 (nameTokens lists), V p.name := by
        intro p hp
        obtain ⟨u, hu, heq, -⟩ := exists_token_of_mem_parameters hp
        obtain ⟨hu, hkind⟩ := List.mem_filter.mp hu
        rw [decide_eq_true_iff] at hkind
        refine heq ▸ hV u ?_ (by rw [hkind]; rfl)
        simp [Tree.tokens, allTokens, allTokens_append, hu]
      exact ⟨⟨hname (n := 1) rfl rfl rfl, hparams, hpart _ (by simp) hbody⟩, trivial⟩
    | classDef hbody => exact ⟨⟨hname (n := 1) rfl rfl rfl, hpart _ (by simp) hbody⟩, trivial⟩
    | assign hvalue => exact ⟨⟨hname (n := 0) rfl rfl rfl, (hpart _ (by simp) hvalue).1⟩, trivial⟩

/-- **The names in what is read are visible.** -/
theorem named_of_read {source : String} {statements : List Node}
    (h : read source = .ok (.block .start statements)) :
    Node.NamedAll Text.Visible statements := by
  obtain ⟨t, scope, hderives, htokens, hreads⟩ := exists_reads_of_read h
  refine hreads.named hderives fun u hu => ?_
  rw [htokens] at hu
  exact Terminator.spelled_of_mem_read hu

end Syntax

/-! ### Code -/

/-- Does the operation come from a program text? It has an opcode of the language, a number of
arguments if it is a call, and its names are visible. -/
def Operation.Spelled : Operation → Prop
  | .pushConst name | .pushVar name | .setVar name | .defStart name | .defEnd name
  | .classStart name | .classEnd name => Text.Visible name
  | .send name count => Text.Visible name ∧ count.isSome
  | .unknown _ _ => False
  | .pushNil | .pushInt _ | .pushStr _ | .pushArg _ | .ifStart | .ifElse | .ifEnd => True

/-- All names in a part have a property. -/
def Part.Named (V : String → Prop) : Part → Prop
  | .expr x | .statement x => x.Named V
  | .exprs xs | .statements xs => Node.NamedAll V xs
  | .receiver _ r => Node.NamedOpt V r
  | .body _ b => Node.NamedOpt V b

/-- All operations come from a program text. -/
def AreSpelled (code : List Instruction) : Prop := ∀ i ∈ code, i.op.Spelled

theorem areSpelled_append {code code' : List Instruction} :
    AreSpelled (code ++ code') ↔ AreSpelled code ∧ AreSpelled code' :=
  List.forall_mem_append

theorem areSpelled_singleton {i : Instruction} : AreSpelled [i] ↔ i.op.Spelled :=
  List.forall_mem_singleton

theorem areSpelled_lowerParams {params : List Param} (h : ∀ p ∈ params, Text.Visible p.name) :
    AreSpelled (params.flatMap Lowering.lowerParam) := by
  intro i hi
  obtain ⟨p, hp, hi⟩ := List.mem_flatMap.mp hi
  simp only [Lowering.lowerParam, List.mem_cons, List.not_mem_nil, or_false] at hi
  rcases hi with rfl | rfl
  · trivial
  · exact h p hp

/-- The closing record of a body is spelled with the name it closes. -/
theorem areSpelled_closingLast {xs : List Node} (h : Node.NamedAll Text.Visible xs) :
    AreSpelled (Lowering.closingLast xs) := by
  induction xs with
  | nil => exact List.forall_mem_nil _
  | cons x xs ih =>
    cases xs with
    | cons y ys =>
      rw [Lowering.closingLast_cons]
      exact ih h.2
    | nil =>
      rw [Lowering.closingLast_singleton]
      -- Only an assignment or a definition has a closing record with a name.
      cases x with
      | assign => exact areSpelled_singleton.mpr h.1.1
      | methodDef | classDef => exact areSpelled_singleton.mpr trivial
      | _ => exact List.forall_mem_nil _

/-- **What is lowered from visible names is spelled.** -/
theorem Surface.spelled_lower {p : Part} (h : Surface p) :
    ∀ {inside : Option String} {code : List Instruction}, p.Named Text.Visible →
      p.lower inside = .ok code → AreSpelled code := by
  -- On the surface: each part lowers to the records of its parts and its own.
  induction h with
  | call _ _ ihr ihargs =>
    rintro inside code ⟨hname, hr, hargs⟩ hl
    -- Lowering succeeds, so it has succeeded for each part.
    obtain ⟨rs, hrs, hl⟩ := exists_of_bind_eq_ok hl
    obtain ⟨as, has, hl⟩ := exists_of_bind_eq_ok hl
    obtain rfl := Except.ok.inj hl
    exact areSpelled_append.mpr ⟨areSpelled_append.mpr ⟨ihr hr hrs, ihargs hargs has⟩,
      areSpelled_singleton.mpr ⟨hname, rfl⟩⟩
  | conditional _ _ _ ihc iht ihe =>
    rintro inside code ⟨hc, ht, he⟩ hl
    obtain ⟨cs, hcs, hl⟩ := exists_of_bind_eq_ok hl
    obtain ⟨ts, hts, hl⟩ := exists_of_bind_eq_ok hl
    obtain ⟨es, hes, hl⟩ := exists_of_bind_eq_ok hl
    obtain rfl := Except.ok.inj hl
    simp only [areSpelled_append, areSpelled_singleton]
    exact ⟨⟨⟨⟨⟨ihc hc hcs, trivial⟩, iht ht hts⟩, trivial⟩, ihe he hes⟩, trivial⟩
  | localRead | constant =>
    rintro inside code hname hl
    obtain rfl := Except.ok.inj hl
    exact areSpelled_singleton.mpr hname
  | integer | text | nil | absent =>
    rintro inside code - hl
    obtain rfl := Except.ok.inj hl
    exact areSpelled_singleton.mpr trivial
  | present _ ih => exact fun hx hl => ih hx hl
  | expression _ ih => exact fun hx hl => ih hx hl
  | noExprs | noStatements =>
    rintro inside code - hl
    obtain rfl := Except.ok.inj hl
    exact List.forall_mem_nil _
  | moreExprs _ _ ihx ihxs | moreStatements _ _ ihx ihxs =>
    rintro inside code ⟨hx, hxs⟩ hl
    obtain ⟨first, hfirst, hl⟩ := exists_of_bind_eq_ok hl
    obtain ⟨others, hothers, hl⟩ := exists_of_bind_eq_ok hl
    obtain rfl := Except.ok.inj hl
    exact areSpelled_append.mpr ⟨ihx hx hfirst, ihxs hxs hothers⟩
  | assign _ ih =>
    rintro inside code ⟨hname, hvalue⟩ hl
    obtain ⟨vs, hvs, hl⟩ := exists_of_bind_eq_ok hl
    obtain rfl := Except.ok.inj hl
    exact areSpelled_append.mpr ⟨ih hvalue hvs, areSpelled_singleton.mpr hname⟩
  | methodDef _ _ ih =>
    rintro inside code ⟨hname, hparams, hbody⟩ hl
    obtain ⟨bs, hbs, hl⟩ := exists_of_bind_eq_ok hl
    obtain rfl := Except.ok.inj hl
    simp only [areSpelled_append, areSpelled_singleton]
    exact ⟨⟨⟨hname, areSpelled_lowerParams hparams⟩, ih hbody hbs⟩, hname⟩
  | classDef _ ih =>
    rintro inside code ⟨hname, hblock⟩ hl
    cases inside with
    | some outer => cases hl
    | none =>
      obtain ⟨bs, hbs, hl⟩ := exists_of_bind_eq_ok hl
      obtain rfl := Except.ok.inj hl
      simp only [areSpelled_append, areSpelled_singleton]
      exact ⟨⟨hname, ih hblock hbs⟩, hname⟩
  | missing =>
    rintro inside code - hl
    obtain rfl := Except.ok.inj hl
    exact areSpelled_singleton.mpr trivial
  | @block owner pos statements _ ih =>
    rintro inside code hxs hl
    cases statements with
    | nil =>
      obtain rfl := Except.ok.inj hl
      exact areSpelled_singleton.mpr trivial
    | cons x xs =>
      obtain ⟨ys, hys, hl⟩ := exists_of_bind_eq_ok hl
      obtain rfl := Except.ok.inj hl
      exact areSpelled_append.mpr ⟨ih hxs hys, areSpelled_closingLast hxs⟩

/-- **The code of a program text is spelled by its tokens.** -/
theorem areSpelled_of_code {source : String} {code : List Instruction}
    (h : Program.code source = .ok code) : AreSpelled code := by
  obtain ⟨root, hread, hlower⟩ := Program.code_eq_ok_iff.mp h
  obtain ⟨statements, rfl, hsurface⟩ := Syntax.surface_of_read hread
  exact hsurface.spelled_lower (Syntax.named_of_read hread) hlower

end Rubylet
