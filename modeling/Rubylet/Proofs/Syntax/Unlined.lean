import Rubylet.Proofs.Syntax.Breaks
import Rubylet.Proofs.Syntax.Replacing

/-!
# Trees without line breaks

Where a semicolon stands between every two statements of a tree (`spaced`), its line breaks can be
taken out: what is left is derived as well, and stands for the same syntax (`exists_unlined`). Only
a body that began with a line break may stand elsewhere after it: `Moved` says so of pieces of
syntax.

Separators alone are made anew, from the terminators that are left of them. At the edges of a body
they may vanish, between two statements a semicolon is left. All other trees keep their rules.
-/

namespace Rubylet

/-- Is a symbol left as it is? Separators and their tokens are made anew. -/
def Symbol.isKept : Symbol → Bool
  | .token .terminator | .phrase .separator | .phrase .terminators => false
  | _ => true

namespace Syntax

open Rubylet.Tree

/-! ### What moves -/

/-- Do two pieces of syntax differ in nothing but where their blocks stand? Only a block at one of
the given positions may stand elsewhere. -/
inductive Moved (N : Pos → Prop) : Node → Node → Prop
  | same (x : Node) : Moved N x x
  | block {pos pos' xs ys} : pos' = pos ∨ N pos → List.Forall₂ (Moved N) xs ys →
      Moved N (.block pos xs) (.block pos' ys)
  | call (pos : Pos) (name : String) {receiver receiver' xs ys} :
      Option.Rel (Moved N) receiver receiver' → List.Forall₂ (Moved N) xs ys →
      Moved N (.call pos receiver name xs) (.call pos receiver' name ys)
  | methodDef (pos : Pos) (name : String) (params : List Param) {body body'} :
      Moved N body body' →
      Moved N (.methodDef pos name params (some body)) (.methodDef pos name params (some body'))
  | classDef (pos : Pos) (name : String) {body body'} : Moved N body body' →
      Moved N (.classDef pos name body) (.classDef pos name body')
  | conditional (pos : Pos) {condition condition' body body' other? other?'} :
      Moved N condition condition' → Moved N body body' → Option.Rel (Moved N) other? other?' →
      Moved N (.conditional pos condition (some body) other?)
        (.conditional pos condition' (some body') other?')
  | assign (pos : Pos) (name : String) {value value'} : Moved N value value' →
      Moved N (.assign pos name value) (.assign pos name value')

/-! ### Semicolons between statements -/

/-- Is there a semicolon among the tokens of a tree? -/
def hasSemicolon (t : Tree) : Bool := t.tokens.any fun u => u.text == ";"

/-- Is the separator of two statements not a line break alone? Of other parts nothing is asked. -/
def separates : Rule → List Tree → Bool
  | .secondStatement, separator :: _ => hasSemicolon separator
  | .anotherStatement, _ :: separator :: _ => hasSemicolon separator
  | _, _ => true

mutual

/-- Does a semicolon stand between every two statements of a tree? -/
def spaced : Tree → Bool
  | .leaf _ => true
  | .node r ts => separates r ts && allSpaced ts

/-- Does a semicolon stand between every two statements of some trees? -/
def allSpaced : List Tree → Bool
  | [] => true
  | t :: ts => spaced t && allSpaced ts

end

/-! ### Trees that keep their rules -/

variable {N : Pos → Prop} {scope scope' : Scope} {r r' : Rule} {token : Token} {t t' : Tree}
  {ts ts' us us' : List Tree} {xs ys : List Node}

/-- The second tree is what is left of the first one without its line breaks. -/
structure Unlined (N : Pos → Prop) (t t' : Tree) : Prop where
  derives {s : Symbol} : Derives s t → Derives s t'
  tokens : t'.tokens = unbroken t.tokens
  faults : faults t' = faults t
  reads {scope scope' : Scope} {xs : List Node} : Reads scope t xs scope' →
    ∃ ys, Reads scope t' ys scope' ∧ List.Forall₂ (Moved N) xs ys

/-- The second trees are what is left of the first ones without line breaks, taken together. -/
structure AllUnlined (N : Pos → Prop) (ts ts' : List Tree) : Prop where
  tokens : allTokens ts' = unbroken (allTokens ts)
  faults : allFaults ts' = allFaults ts
  reads {scope scope' : Scope} {xs : List Node} : ReadsAll scope ts xs scope' →
    ∃ ys, ReadsAll scope ts' ys scope' ∧ List.Forall₂ (Moved N) xs ys

/-- Trees side by side are read one list after the other. -/
theorem ReadsAll.exists_append (h : ReadsAll scope (ts ++ us) xs scope') :
    ∃ ys zs scope₁, ReadsAll scope ts ys scope₁ ∧ ReadsAll scope₁ us zs scope' ∧ xs = ys ++ zs := by
  induction ts generalizing scope xs with
  | nil => exact ⟨[], xs, scope, .nil _, h, rfl⟩
  | cons t ts ih =>
    cases h with
    | cons ht hts =>
      obtain ⟨ys, zs, scope₁, hys, hzs, rfl⟩ := ih hts
      exact ⟨_, zs, scope₁, .cons ht hys, hzs, (List.append_assoc ..).symm⟩

/-- A rule that stands for what its parts stand for. -/
theorem Reads.parts (h : Reads scope (.node r ts) xs scope') (hr : r.passes) :
    ReadsAll scope ts xs scope' := by
  cases h with
  | pass _ hts => exact hts
  | binary hb => exact absurd hr (not_passes_of_isBinary hb)
  | _ => cases hr

namespace AllUnlined

theorem nil : AllUnlined N [] [] where
  tokens := rfl
  faults := rfl
  reads h := by
    cases h
    exact ⟨[], .nil _, .nil⟩

/-- Lists without their breaks, side by side. -/
theorem append (h : AllUnlined N ts ts') (h' : AllUnlined N us us') :
    AllUnlined N (ts ++ us) (ts' ++ us') where
  tokens := by rw [allTokens_append, allTokens_append, unbroken_append, h.tokens, h'.tokens]
  faults := by rw [allFaults_append, allFaults_append, h.faults, h'.faults]
  reads hread := by
    obtain ⟨ys, zs, scope₁, hys, hzs, rfl⟩ := hread.exists_append
    obtain ⟨ys', hys', hmoved⟩ := h.reads hys
    obtain ⟨zs', hzs', hmoved'⟩ := h'.reads hzs
    exact ⟨ys' ++ zs', hys'.append hzs', List.rel_append hmoved hmoved'⟩

theorem single (h : Unlined N t t') : AllUnlined N [t] [t'] where
  tokens := by simpa [allTokens] using h.tokens
  faults := by rw [allFaults_singleton, allFaults_singleton, h.faults]
  reads hread := by
    obtain ⟨ys, hys, hmoved⟩ := h.reads hread.of_singleton
    exact ⟨ys, .single hys (.nil _), hmoved⟩

/-- Trees that lose their breaks one by one lose them all. -/
theorem of_forall (h : List.Forall₂ (Unlined N) ts ts') : AllUnlined N ts ts' := by
  induction h with
  | nil => exact .nil
  | cons ht _ ih => exact (single ht).append ih

end AllUnlined

/-- Without its breaks a list is derived by the same symbols. -/
theorem derivesAll_of_forall {ss : List Symbol} (h : List.Forall₂ (Unlined N) ts ts')
    (hts : DerivesAll ss ts) : DerivesAll ss ts' := by
  induction h generalizing ss with
  | nil => exact hts
  | cons ht _ ih =>
    cases hts with
    | cons hu hus => exact .cons (ht.derives hu) (ih hus)

/-- A token that ends no line is left. -/
theorem unlined_leaf (h : ¬ token.isBreak) : Unlined N (.leaf token) (.leaf token) where
  derives hs := hs
  tokens := (unbroken_cons_of_not_isBreak h : unbroken [token] = [token]).symm
  faults := rfl
  reads hread := by
    cases hread
    exact ⟨[], .token _ _, .nil⟩

theorem Unlined.eq_leaf (h : Unlined N (.leaf token) t') : t' = .leaf token := by
  obtain ⟨token', rfl, -⟩ := (h.derives (.leaf token)).exists_leaf
  have hmem : token' ∈ unbroken [token] := h.tokens ▸ .head _
  rw [List.mem_singleton.mp (List.mem_of_mem_filter hmem)]

mutual

theorem start_eq : ∀ t : Tree, t.start? = t.tokens.head?.map Token.pos
  | .leaf _ => rfl
  | .node _ ts => firstStart_eq ts

theorem firstStart_eq : ∀ ts : List Tree, firstStart? ts = (allTokens ts).head?.map Token.pos
  | [] => rfl
  | t :: ts => by
    rw [firstStart?, allTokens, start_eq t, firstStart_eq ts]
    cases t.tokens <;> rfl

end

/-- A body begins where it began, or it began at one of the given positions. -/
def Restarts (N : Pos → Prop) (a a' : Option Pos) : Prop := a' = a ∨ ∃ pos, a = some pos ∧ N pos

/-- A start that moves, or the next one if there is none. -/
theorem Restarts.or {a a' b b' : Option Pos} (h : Restarts N a a') (h' : Restarts N b b') :
    Restarts N (a.or b) (a'.or b') := by
  cases a with
  | none =>
    obtain rfl : a' = none := h.resolve_right fun ⟨_, hpos, _⟩ => nomatch hpos
    exact h'
  | some pos =>
    rcases h with rfl | ⟨_, heq, hpos⟩
    · exact .inl rfl
    · exact .inr ⟨_, heq, hpos⟩

/-- A block moves with its first token. -/
theorem Moved.blocks {a a' : Option Pos} (pos : Pos) (h : Restarts N a a')
    (hmoved : List.Forall₂ (Moved N) xs ys) :
    Moved N (.block (a.getD pos) xs) (.block (a'.getD pos) ys) := by
  refine .block ?_ hmoved
  rcases h with rfl | ⟨_, rfl, hpos⟩
  · exact .inl rfl
  · exact .inr hpos

theorem moved_likeness (N : Pos → Prop) : Likeness (Moved N) (Restarts N) where
  refl := .same
  startRefl _ := .inl rfl
  startOr := Restarts.or
  block pos := Moved.blocks pos
  call pos name := .call pos name
  methodDef pos name params := .methodDef pos name params
  classDef pos name := .classDef pos name
  conditional pos := .conditional pos
  assign pos name := .assign pos name

/-- A body moves only if it began with a line break. -/
theorem Unlined.restarts (h : Unlined N t t') (hN : ∀ u ∈ t.tokens, u.isBreak → N u.pos) :
    Restarts N t.start? t'.start? := by
  rw [start_eq, start_eq, h.tokens]
  cases htokens : t.tokens with
  | nil => exact .inl rfl
  | cons u us =>
    by_cases hbreak : u.isBreak
    · exact .inr ⟨u.pos, rfl, hN u (htokens ▸ .head _) hbreak⟩
    · rw [unbroken_cons_of_not_isBreak hbreak]
      exact .inl rfl

/-- A break is no name. -/
theorem namesIn_unbroken (tokens : List Token) : namesIn (unbroken tokens) = namesIn tokens := by
  rw [namesIn, namesIn, unbroken, List.filter_filter]
  refine List.filter_congr fun token _ => ?_
  cases hkind : decide (token.kind = .name) with
  | false => rfl
  | true => simp [Token.isBreak, of_decide_eq_true hkind]

/-- What is left of a tree may stand where the tree stands. -/
theorem Unlined.replaces (h : Unlined N t t') (hN : ∀ u ∈ t.tokens, u.isBreak → N u.pos) :
    Replaces (Moved N) (Restarts N) t t' where
  derives := h.derives
  leaf := by
    rintro token rfl
    exact h.eq_leaf
  names := by rw [h.tokens, namesIn_unbroken]
  start := h.restarts hN
  faults := h.faults
  reads := h.reads

/-- Trees without their breaks are replacements of the ones with them. -/
theorem forall_replaces (h : List.Forall₂ (Unlined N) ts ts')
    (hN : ∀ u ∈ allTokens ts, u.isBreak → N u.pos) :
    List.Forall₂ (Replaces (Moved N) (Restarts N)) ts ts' := by
  induction h with
  | nil => exact .nil
  | cons ht _ ih =>
    exact .cons (ht.replaces fun u hu => hN u (List.mem_append_left _ hu))
      (ih fun u hu => hN u (List.mem_append_right _ hu))

/-- **A rule is kept**, and with it what its parts stand for. -/
theorem unlined_node (h : List.Forall₂ (Unlined N) ts ts')
    (hN : ∀ u ∈ allTokens ts, u.isBreak → N u.pos) :
    Unlined N (.node r ts) (.node r ts') where
  derives := ((moved_likeness N).node (forall_replaces h hN)).derives
  tokens := (AllUnlined.of_forall h).tokens
  faults := ((moved_likeness N).node (forall_replaces h hN)).faults
  reads := ((moved_likeness N).node (forall_replaces h hN)).reads

/-! ### Separators -/

/-- Separators are terminators. -/
theorem kind_of_mem_terminators (h : Derives (.phrase .terminators) t) :
    ∀ u ∈ t.tokens, u.kind = .terminator := by
  induction t using Tree.induction_parts with
  | leaf token => exact absurd h not_derives_leaf
  | node r ts ih =>
    obtain ⟨hr, hts⟩ := derives_node_iff.mp h
    cases r <;> cases hr <;>
      simp only [Rule.symbols, derivesAll_cons_iff, derivesAll_nil_iff, derives_token_iff] at hts
    case oneTerminator.refl =>
      obtain ⟨_, _, rfl, ⟨token, rfl, hkind⟩, rfl⟩ := hts
      simpa [Tree.tokens, allTokens] using hkind
    case anotherTerminator.refl =>
      obtain ⟨more, _, rfl, hmore, _, _, rfl, ⟨token, rfl, hkind⟩, rfl⟩ := hts
      have hmore := ih more (.head _) hmore
      simpa [Tree.tokens, allTokens, or_imp, forall_and, hkind] using hmore

/-- Terminators make a separator. -/
theorem exists_terminators {tokens : List Token} (hne : tokens ≠ [])
    (h : ∀ u ∈ tokens, u.kind = .terminator) :
    ∃ t, Derives (.phrase .terminators) t ∧ t.tokens = tokens := by
  -- On the tokens from the right, as the rule takes them.
  induction tokens using List.reverseRecOn with
  | nil => exact absurd rfl hne
  | append_singleton tokens token ih =>
    have hlast : Derives (.token .terminator) (.leaf token) :=
      derives_token_iff.mpr ⟨token, rfl, h token (by simp)⟩
    by_cases htokens : tokens = []
    · subst htokens
      exact ⟨.node .oneTerminator [.leaf token], .node .oneTerminator _ (.cons hlast .nil), rfl⟩
    · obtain ⟨t, ht, rfl⟩ := ih htokens fun u hu => h u (List.mem_append_left _ hu)
      refine ⟨.node .anotherTerminator [t, .leaf token],
        .node .anotherTerminator _ (.cons ht (.cons hlast .nil)), ?_⟩
      simp [Tree.tokens, allTokens]

/-- A separator, where there is one, has terminators only. -/
theorem kind_of_opt_separator {b : Bool} (h : DerivesAll (Rule.opt b (.phrase .separator)) ts) :
    ∀ u ∈ allTokens ts, u.kind = .terminator := by
  -- The separator is missing, or is a run of terminators.
  cases b with
  | false =>
    obtain rfl := derivesAll_nil_iff.mp h
    exact nofun
  | true =>
    obtain ⟨t, rfl, ht⟩ := derivesAll_singleton_iff.mp h
    obtain ⟨r, us, rfl, hr, hus⟩ := ht.exists_node
    cases r <;> cases hr
    obtain ⟨u, rfl, hu⟩ := derivesAll_singleton_iff.mp hus
    simpa [Tree.tokens, allTokens] using kind_of_mem_terminators hu

/-- **What is left of a separator is a separator**, or nothing. -/
theorem exists_opt_separator {b : Bool} (h : DerivesAll (Rule.opt b (.phrase .separator)) ts) :
    ∃ b' ts', DerivesAll (Rule.opt b' (.phrase .separator)) ts' ∧ AllUnlined N ts ts' := by
  have hkinds : ∀ u ∈ unbroken (allTokens ts), u.kind = .terminator :=
    fun u hu => kind_of_opt_separator h u (List.mem_of_mem_filter hu)
  have hmade : ∃ b' ts', DerivesAll (Rule.opt b' (.phrase .separator)) ts' ∧
      allTokens ts' = unbroken (allTokens ts) := by
    by_cases hne : unbroken (allTokens ts) = []
    · exact ⟨false, [], .nil, hne.symm⟩
    · obtain ⟨t, ht, htokens⟩ := exists_terminators hne hkinds
      refine ⟨true, [.node .separator [t]], .cons (.node .separator _ (.cons ht .nil)) .nil, ?_⟩
      simpa [Tree.tokens, allTokens] using htokens
  obtain ⟨b', ts', hts', htokens⟩ := hmade
  -- A separator stands for nothing, so only the tokens matter.
  obtain ⟨hreads, hfaults⟩ := reads_opt_separator h
  obtain ⟨hreads', hfaults'⟩ := reads_opt_separator hts'
  refine ⟨b', ts', hts', htokens, hfaults'.trans hfaults.symm, fun {scope scope' xs} hread => ?_⟩
  obtain ⟨rfl, rfl⟩ := hread.unique (hreads scope)
  exact ⟨[], hreads' _, .nil⟩

/-- A separator with a semicolon is left. -/
theorem exists_separator (h : Derives (.phrase .separator) t) (hsemi : hasSemicolon t) :
    ∃ t', Derives (.phrase .separator) t' ∧ AllUnlined N [t] [t'] := by
  obtain ⟨b, ts', hts', hunlined⟩ :=
    exists_opt_separator (N := N) (b := true) (.cons h .nil)
  cases b with
  | true =>
    obtain ⟨t', rfl, ht'⟩ := derivesAll_singleton_iff.mp hts'
    exact ⟨t', ht', hunlined⟩
  -- Nothing would be left only if there were no semicolon.
  | false =>
    obtain rfl := derivesAll_nil_iff.mp hts'
    obtain ⟨u, hu, htext⟩ := List.any_eq_true.mp hsemi
    have hmem : u ∈ unbroken (allTokens [t]) :=
      List.mem_filter.mpr ⟨mem_allTokens (.head _) hu, by simp_all [Token.isBreak]⟩
    rw [← hunlined.tokens] at hmem
    cases hmem

/-! ### All trees -/

theorem unlined_passes (hr : r'.passes) (hphrase : r'.phrase = r.phrase)
    (hpasses : r.passes) (hts : DerivesAll r'.symbols ts') (h : AllUnlined N ts ts') :
    Unlined N (.node r ts) (.node r' ts') where
  derives hs := by
    obtain ⟨rfl, -⟩ := derives_node_iff.mp hs
    exact hphrase ▸ .node r' ts' hts
  tokens := h.tokens
  faults := by
    -- A rule that passes its reading on has no parameters.
    have hnone {r : Rule} (hr : r.passes) (ts : List Tree) : parameterFaults r ts = [] := by
      cases r <;> first | rfl | cases hr
    rw [Syntax.faults, Syntax.faults, hnone hr, hnone hpasses, h.faults]
  reads hread := by
    obtain ⟨ys, hys, hmoved⟩ := h.reads (hread.parts hpasses)
    exact ⟨ys, .pass hr hys, hmoved⟩

/-- A tree that is derived from a symbol that is left as it is has something left of it. -/
def Leaves (N : Pos → Prop) (t : Tree) : Prop :=
  ∀ s, Derives s t → s.isKept → spaced t → (∀ u ∈ t.tokens, u.isBreak → N u.pos) →
    ∃ t', Unlined N t t'

theorem exists_forall_unlined {ss : List Symbol} (ih : ∀ t ∈ ts, Leaves N t)
    (hts : DerivesAll ss ts) (hss : ss.all Symbol.isKept) (hspaced : allSpaced ts)
    (hN : ∀ u ∈ allTokens ts, u.isBreak → N u.pos) :
    ∃ ts', List.Forall₂ (Unlined N) ts ts' := by
  induction ts generalizing ss with
  | nil => exact ⟨[], .nil⟩
  | cons t ts ih' =>
    cases hts with
    | cons ht hts =>
      rw [List.all_cons, Bool.and_eq_true] at hss
      rw [allSpaced, Bool.and_eq_true] at hspaced
      -- Part by part: the breaks of a part are among those of the list.
      obtain ⟨t', ht'⟩ := ih t (.head _) _ ht hss.1 hspaced.1
        fun u hu => hN u (List.mem_append_left _ hu)
      obtain ⟨ts', hts'⟩ := ih' (fun u hu => ih u (.tail _ hu)) hts hss.2 hspaced.2
        fun u hu => hN u (List.mem_append_right _ hu)
      exact ⟨t' :: ts', .cons ht' hts'⟩

/-- All symbols of a rule are left as they are, but for the separators of statements. -/
theorem kept_or_body (hr : (Symbol.phrase r.phrase).isKept) : r.symbols.all Symbol.isKept ∨
    r = .blankBody ∨ (∃ leading more trailing, r = .body leading more trailing) ∨
      r = .secondStatement ∨ r = .anotherStatement := by
  -- By rule: the bodies and the lists of statements are the ones with separators in them.
  cases r with
  | separator | oneTerminator | anotherTerminator => cases hr
  | blankBody => exact .inr (.inl rfl)
  | body leading more trailing => exact .inr (.inr (.inl ⟨leading, more, trailing, rfl⟩))
  | secondStatement => exact .inr (.inr (.inr (.inl rfl)))
  | anotherStatement => exact .inr (.inr (.inr (.inr rfl)))
  | conditional a b | elsifClause a b => cases a <;> cases b <;> exact .inl rfl
  | methodDef a | params a | message a | name a | args a => cases a <;> exact .inl rfl
  | _ => exact .inl rfl

theorem spaced_of_mem (h : allSpaced ts) (ht : t ∈ ts) : spaced t := by
  induction ts with
  | nil => cases ht
  | cons u us ih =>
    rw [allSpaced, Bool.and_eq_true] at h
    rcases List.mem_cons.mp ht with rfl | ht
    · exact h.1
    · exact ih h.2 ht

/-- **Line breaks can be taken out** of a tree with semicolons between its statements. -/
theorem exists_unlined (t : Tree) : Leaves N t := by
  induction t using Tree.induction_parts with
  | leaf token =>
    intro s hs hkept _ _
    refine ⟨.leaf token, unlined_leaf fun hbreak => ?_⟩
    obtain rfl := hs.symbol_eq
    rw [Tree.symbol, of_decide_eq_true (Bool.and_eq_true_iff.mp hbreak).1] at hkept
    cases hkept
  | node r ts ih =>
    intro s hs hkept hspaced hN
    obtain ⟨rfl, hts⟩ := derives_node_iff.mp hs
    rw [spaced, Bool.and_eq_true] at hspaced
    obtain ⟨hseparates, hspaced⟩ := hspaced
    rw [Tree.tokens] at hN
    have hpart {u : Tree} {s : Symbol} (hu : u ∈ ts) (hd : Derives s u) (hs : s.isKept) :
        ∃ u', Unlined N u u' :=
      ih u hu s hd hs (spaced_of_mem hspaced hu) fun v hv => hN v (mem_allTokens hu hv)
    -- Rules without separators are kept with their parts. The other ones are the bodies and the
    -- lists of statements.
    rcases kept_or_body hkept with hall | rfl | ⟨leading, more, trailing, rfl⟩ | rfl | rfl
    · obtain ⟨ts', hts'⟩ := exists_forall_unlined ih hts hall hspaced hN
      exact ⟨.node r ts', unlined_node hts' hN⟩
    · obtain ⟨b, ts', hts', hunlined⟩ := exists_opt_separator (N := N) (b := true) hts
      cases b with
      | false => exact ⟨.node .emptyBody ts', unlined_passes rfl rfl rfl hts' hunlined⟩
      | true => exact ⟨.node .blankBody ts', unlined_passes rfl rfl rfl hts' hunlined⟩
    · obtain ⟨front, x, middle, back, rfl, hfront, hx, hmiddle, hback⟩ := exists_of_body hts
      obtain ⟨leading', front', hfront', hf⟩ := exists_opt_separator (N := N) hfront
      obtain ⟨trailing', back', hback', hb⟩ := exists_opt_separator (N := N) hback
      obtain ⟨x', hx'⟩ := hpart (by simp) hx rfl
      obtain ⟨middle', hm⟩ : ∃ middle', List.Forall₂ (Unlined N) middle middle' := by
        cases more with
        | false =>
          obtain rfl := derivesAll_nil_iff.mp hmiddle
          exact ⟨[], .nil⟩
        | true =>
          obtain ⟨u, rfl, hu⟩ := derivesAll_singleton_iff.mp hmiddle
          obtain ⟨u', hu'⟩ := hpart (by simp) hu rfl
          exact ⟨[u'], .cons hu' .nil⟩
      -- The flags of the rule may change where a separator has vanished.
      refine ⟨.node (.body leading' more trailing') (front' ++ x' :: (middle' ++ back')),
        unlined_passes rfl rfl rfl ?_
          (hf.append ((AllUnlined.single hx').append ((AllUnlined.of_forall hm).append hb)))⟩
      have hall := ((hfront'.append (.cons (hx'.derives hx) .nil)).append
        (derivesAll_of_forall hm hmiddle)).append hback'
      simpa [Rule.symbols] using hall
    · simp only [Rule.symbols, derivesAll_cons_iff, derivesAll_nil_iff] at hts
      obtain ⟨separator, _, rfl, hseparator, x, _, rfl, hx, rfl⟩ := hts
      obtain ⟨separator', hseparator', hf⟩ := exists_separator hseparator hseparates
      obtain ⟨x', hx'⟩ := hpart (by simp) hx rfl
      exact ⟨.node .secondStatement [separator', x'], unlined_passes rfl rfl rfl
        (.cons hseparator' (.cons (hx'.derives hx) .nil)) (hf.append (.single hx'))⟩
    · simp only [Rule.symbols, derivesAll_cons_iff, derivesAll_nil_iff] at hts
      obtain ⟨more, _, rfl, hmore, separator, _, rfl, hseparator, x, _, rfl, hx, rfl⟩ := hts
      obtain ⟨more', hm⟩ := hpart (by simp) hmore rfl
      obtain ⟨separator', hseparator', hf⟩ := exists_separator hseparator hseparates
      obtain ⟨x', hx'⟩ := hpart (by simp) hx rfl
      exact ⟨.node .anotherStatement [more', separator', x'], unlined_passes rfl rfl rfl
        (.cons (hm.derives hmore) (.cons hseparator' (.cons (hx'.derives hx) .nil)))
        ((AllUnlined.single hm).append (hf.append (.single hx')))⟩

end Syntax

end Rubylet
