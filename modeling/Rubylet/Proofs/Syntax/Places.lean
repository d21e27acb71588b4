import Rubylet.Proofs.Replay.Prescribed
import Rubylet.Proofs.Syntax.Errors
import Rubylet.Proofs.Syntax.Unlined
import Rubylet.Proofs.Token.Positions

/-!
# Where syntax stands

All that is read from a text stands at tokens of the text, and so does all that is lowered from it;
and where one of these steps fails, the error points to such a place.

Nothing is made up on the way. A piece of syntax stands at one of the tokens that it is read from; a
body without tokens of its own stands where its construct begins (`blockAt`); the instruction for a
missing receiver or a missing branch stands where its owner stands. Only the block of the whole
program stands at the start of the text, where there may be no token, and that block has no
instruction.

The proofs do not ask what is special about these positions: `Node.Stands P` and
`CompileError.PointsTo P` say of any property of positions that all positions in a piece of syntax
have it, and all that an error shows.

* `pointsTo_of_read_error`: a text that cannot be read is refused at one of its tokens, or at a
  character that begins no lexeme.
* `stands_of_read`: what is read stands at tokens.
* `Surface.points_lower`: what stands at such positions is lowered to instructions that do.
-/

namespace Rubylet

open Rubylet.Tree

variable {P Q : Pos → Prop} {e : CompileError} {α β : Type}

/-! ### What an error points to -/

/-- The spans that a diagnostic shows: its own, and those of its candidates. -/
def Diagnostic.spans (d : Diagnostic) : List Span := d.span :: d.candidates.map Candidate.span

namespace CompileError

/-- All that an error shows is at known positions, which have a property. -/
def PointsTo (P : Pos → Prop) (e : CompileError) : Prop :=
  ∀ s ∈ e.diagnostic.spans, ∃ pos, P pos ∧ s = .ofPos pos

theorem PointsTo.mono (h : e.PointsTo P) (hPQ : ∀ pos, P pos → Q pos) : e.PointsTo Q :=
  fun s hs => (h s hs).imp fun pos hpos => ⟨hPQ pos hpos.1, hpos.2⟩

theorem pointsTo_atPos {pos : Pos} (h : P pos) (cause : Cause) : (atPos pos cause).PointsTo P := by
  intro s hs
  obtain rfl := List.mem_singleton.mp hs
  exact ⟨pos, h, rfl⟩

theorem pointsTo_atOrigin_with {origin : Origin} {candidates : List Candidate} (h : P origin.pos)
    (cause : Cause) (hcandidates : ∀ c ∈ candidates, ∃ pos, P pos ∧ c.span = .ofPos pos) :
    ({ atOrigin origin cause with candidates } : CompileError).PointsTo P := by
  intro s hs
  rcases List.mem_cons.mp hs with rfl | hs
  · exact ⟨origin.pos, h, rfl⟩
  · obtain ⟨c, hc, rfl⟩ := List.mem_map.mp hs
    exact hcandidates c hc

theorem pointsTo_atOrigin {origin : Origin} (h : P origin.pos) (cause : Cause) :
    (atOrigin origin cause).PointsTo P := pointsTo_atOrigin_with h cause nofun

end CompileError

/-- A result has a property, or is an error that points to positions of a kind. -/
def PointsOr (P : Pos → Prop) (R : α → Prop) : Except CompileError α → Prop
  | .ok a => R a
  | .error e => e.PointsTo P

/-- A stage that points well, and then another one, point well in turn. -/
theorem PointsOr.bind {R : α → Prop} {S : β → Prop} {x : Except CompileError α}
    {f : α → Except CompileError β} (hx : PointsOr P R x) (hf : ∀ a, R a → PointsOr P S (f a)) :
    PointsOr P S (x >>= f) := by
  cases x with
  | error e => exact hx
  | ok a => exact hf a hx

theorem PointsOr.of_error {R : α → Prop} {x : Except CompileError α} (h : PointsOr P R x)
    (hx : x = .error e) : e.PointsTo P := by
  subst hx
  exact h

/-! ### Pieces of syntax -/

mutual

/-- All positions in a piece of syntax have a property, those of parameters included. -/
def Node.Stands (P : Pos → Prop) : Node → Prop
  | .block pos statements => P pos ∧ Node.StandAll P statements
  | .call pos receiver _ args => P pos ∧ Node.StandsOpt P receiver ∧ Node.StandAll P args
  | .argument param => P param.pos
  | .methodDef pos _ params body => P pos ∧ (∀ p ∈ params, P p.pos) ∧ Node.StandsOpt P body
  | .classDef pos _ body => P pos ∧ body.Stands P
  | .conditional pos condition thenBody elseBody =>
    P pos ∧ condition.Stands P ∧ Node.StandsOpt P thenBody ∧ Node.StandsOpt P elseBody
  | .assign pos _ value => P pos ∧ value.Stands P
  | .localRead pos _ | .integer pos _ | .text pos _ | .nil pos | .constant pos _
  | .unsupported pos _ _ => P pos
  | .foreign _ => True

/-- The same for several pieces. -/
def Node.StandAll (P : Pos → Prop) : List Node → Prop
  | [] => True
  | x :: xs => x.Stands P ∧ Node.StandAll P xs

/-- The same for a piece that may be missing. -/
def Node.StandsOpt (P : Pos → Prop) : Option Node → Prop
  | none => True
  | some x => x.Stands P

end

namespace Node

variable {x : Node} {xs ys : List Node}

theorem standAll_append : StandAll P (xs ++ ys) ↔ StandAll P xs ∧ StandAll P ys := by
  induction xs with
  | nil => simp [StandAll]
  | cons x xs ih => rw [List.cons_append, StandAll, StandAll, ih, and_assoc]

theorem StandAll.head? (h : StandAll P xs) : StandsOpt P xs.head? := by
  cases xs with
  | nil => trivial
  | cons x xs => exact h.1

end Node

namespace Syntax

/-! ### Reading -/

/-- A block stands at one of its tokens, or where its construct begins. -/
theorem stands_blockAt {fallback : Pos} {body : Tree} {xs : List Node} (h : P fallback)
    (hbody : ∀ u ∈ body.tokens, P u.pos) (hxs : Node.StandAll P xs) :
    (blockAt fallback body xs).Stands P := by
  refine ⟨?_, hxs⟩
  rw [start_eq]
  cases hu : body.tokens.head? with
  | none => exact h
  | some u => exact hbody u (List.mem_of_mem_head? hu)

/-- Every parameter is written as a token, which gives its name and its place. -/
theorem exists_token_of_mem_parameters {ts : List Token} {index : Nat} {p : Param}
    (hp : p ∈ parameters index ts) : ∃ u ∈ ts, p.name = u.text ∧ p.pos = u.pos := by
  induction ts generalizing index with
  | nil => cases hp
  | cons t ts ih =>
    rcases List.mem_cons.mp hp with rfl | hp
    · exact ⟨t, .head _, rfl, rfl⟩
    · obtain ⟨u, hu, heq⟩ := ih hp
      exact ⟨u, .tail _ hu, heq⟩

theorem mem_of_mem_nameTokens {lists : List Tree} {u : Token} (h : u ∈ nameTokens lists) :
    u ∈ allTokens lists := (List.mem_filter.mp h).1

theorem forall_mem_allTokens_append {R : Token → Prop} {ts us : List Tree} :
    (∀ u ∈ allTokens (ts ++ us), R u) ↔ (∀ u ∈ allTokens ts, R u) ∧ ∀ u ∈ allTokens us, R u := by
  induction ts with
  | nil => simp [allTokens]
  | cons t ts ih => simp only [List.cons_append, allTokens, List.forall_mem_append, ih, and_assoc]

mutual

/-- **What a tree stands for stands at tokens of the tree.** -/
theorem Reads.stands {scope scope' : Scope} {t : Tree} {xs : List Node}
    (h : Reads scope t xs scope') (ht : ∀ u ∈ t.tokens, P u.pos) : Node.StandAll P xs := by
  -- The tokens of a tree are those of its children, so every child hands its part on.
  match h with
  | .token _ _ => trivial
  | .pass _ hts => exact hts.stands ht
  | .integer _ _ | .text _ _ | .nil _ _ | .constant _ _ | .known _ =>
    exact ⟨ht _ (.head _), trivial⟩
  | .unknown _ => exact ⟨⟨ht _ (.head _), trivial, trivial⟩, trivial⟩
  | .call hargs =>
    simp only [Tree.tokens, allTokens, List.forall_mem_append, List.forall_mem_singleton] at ht
    exact ⟨⟨ht.1, trivial, hargs.stands ht.2.1⟩, trivial⟩
  | .binary _ hleft hright =>
    simp only [Tree.tokens, allTokens, List.forall_mem_append, List.forall_mem_singleton] at ht
    obtain ⟨hl, hop, hr, -⟩ := ht
    exact ⟨⟨hop, (hleft.stands hl).1, hright.stands hr⟩, trivial⟩
  | .message hreceiver hargs =>
    simp only [Tree.tokens, allTokens, List.forall_mem_append, List.forall_mem_singleton] at ht
    obtain ⟨hr, -, hname, ha⟩ := ht
    exact ⟨⟨hname, (hreceiver.stands hr).1, hargs.stands ha⟩, trivial⟩
  | .conditional _ hts _ hcondition hbody hothers =>
    subst hts
    simp only [Tree.tokens, allTokens, List.forall_mem_append, List.forall_mem_singleton,
      forall_mem_allTokens_append] at ht
    obtain ⟨hstart, hc, -, hb, ho⟩ := ht
    exact ⟨⟨hstart, (hcondition.stands hc).1, stands_blockAt hstart hb (hbody.stands hb),
      (hothers.stands ho).head?⟩, trivial⟩
  | .elsifClause _ hts _ hcondition hbody hothers =>
    subst hts
    simp only [Tree.tokens, allTokens, List.forall_mem_append, List.forall_mem_singleton,
      forall_mem_allTokens_append] at ht
    obtain ⟨hstart, hc, -, hb, ho⟩ := ht
    exact ⟨⟨hstart, ⟨hstart, (hcondition.stands hc).1, stands_blockAt hstart hb (hbody.stands hb),
      (hothers.stands ho).head?⟩, trivial⟩, trivial⟩
  | .elseClause hbody =>
    simp only [Tree.tokens, allTokens, List.forall_mem_append, List.forall_mem_singleton] at ht
    exact ⟨stands_blockAt ht.1 ht.2.1 (hbody.stands ht.2.1), trivial⟩
  | .methodDef lists hts _ _ hbody =>
    subst hts
    simp only [Tree.tokens, allTokens, List.forall_mem_append, List.forall_mem_singleton,
      forall_mem_allTokens_append] at ht
    obtain ⟨hstart, -, hlists, hb, -⟩ := ht
    refine ⟨⟨hstart, fun p hp => ?_, stands_blockAt hstart hb (hbody.stands hb)⟩, trivial⟩
    obtain ⟨u, hu, -, hpos⟩ := exists_token_of_mem_parameters hp
    exact hpos ▸ hlists u (mem_of_mem_nameTokens hu)
  | .classDef hbody =>
    simp only [Tree.tokens, allTokens, List.forall_mem_append, List.forall_mem_singleton] at ht
    obtain ⟨hstart, -, hb, -⟩ := ht
    exact ⟨⟨hstart, stands_blockAt hstart hb (hbody.stands hb)⟩, trivial⟩
  | .assign hvalue =>
    simp only [Tree.tokens, allTokens, List.forall_mem_append, List.forall_mem_singleton] at ht
    obtain ⟨hname, -, hv, -⟩ := ht
    exact ⟨⟨hname, (hvalue.stands hv).1⟩, trivial⟩

/-- Nodes stand where their tokens do. -/
theorem ReadsAll.stands {scope scope' : Scope} {ts : List Tree} {xs : List Node}
    (h : ReadsAll scope ts xs scope') (hts : ∀ u ∈ allTokens ts, P u.pos) :
    Node.StandAll P xs := by
  match h with
  | .nil _ => trivial
  | .cons ht hts' =>
    rw [allTokens, List.forall_mem_append] at hts
    exact Node.standAll_append.mpr ⟨ht.stands hts.1, hts'.stands hts.2⟩

end

/-! ### What cannot be read -/

/-- What is wrong with a tree is wrong at one of its tokens. -/
theorem pointsTo_of_mem_faults {t : Tree} (ht : ∀ u ∈ t.tokens, P u.pos)
    (he : .compile e ∈ faults t) : e.PointsTo P := by
  -- A fault is a parameter that is repeated or a literal that does not fit.
  rcases of_mem_faults t he with ⟨start, name, list, rest, before, p, after, hpart, heq, -, he⟩ |
    ⟨u, hu, hfault⟩
  · have hp : p ∈ allTokens [list] := mem_of_mem_nameTokens (heq ▸ by simp)
    have hlist : p ∈ list.tokens := by simpa [allTokens] using hp
    obtain rfl := StageError.compile.inj he
    refine CompileError.pointsTo_atPos (ht p (hpart.mem_tokens ?_)) _
    exact mem_allTokens (.tail _ (.tail _ (.head _))) hlist
  · unfold literalFaults at hfault
    split at hfault
    · split at hfault <;> simp at hfault
    · split at hfault
      · cases hfault
      · obtain rfl := StageError.compile.inj (List.mem_singleton.mp hfault)
        exact CompileError.pointsTo_atPos (ht u hu) _
    · cases hfault

/-- No tokens at all are a program. -/
theorem tree_nil : Parse.tree [] = .ok (.node .program [.node .emptyBody []]) :=
  Parse.tree_of_derives (t := .node .program [.node .emptyBody []]) (derives_of_follows _ rfl)

/-- A token that cannot be shifted is the one that is reported. -/
theorem pos_mem_of_shiftAll_error {tokens : List Token} {err : Parse.SyntaxError}
    (h : Parse.shiftAll [] tokens = .error err) : ∃ t ∈ tokens, t.pos = err.pos := by
  obtain ⟨before, t, after, stack, rfl, hbefore, hshift⟩ := Parse.exists_of_shiftAll_error h
  obtain ⟨stack', -, -, rfl⟩ := (Parse.Path.nil.shiftAll hbefore).1.of_shift_error hshift
  exact ⟨t, List.mem_append_right _ (.head _), rfl⟩

/-- The end of the input is reported at the last token. There is one, for no tokens at all are a
program. -/
theorem pos_mem_of_tree_error {tokens : List Token} {err : Parse.SyntaxError}
    (h : Parse.tree tokens = .error err) : ∃ t ∈ tokens, t.pos = err.pos := by
  obtain ⟨before, after, rfl, -, hpos, -⟩ := Parse.tree_error h
  have hne : before ++ after ≠ [] := fun hnil => by rw [hnil, tree_nil] at h; cases h
  rw [hpos]
  cases after with
  | cons t after => exact ⟨t, List.mem_append_right _ (.head _), rfl⟩
  | nil =>
    rw [List.append_nil] at hne ⊢
    exact ⟨_, List.getLast_mem hne, by rw [List.getLast?_eq_getLast_of_ne_nil hne]; rfl⟩

/-- **A syntax error is at a token**, unless the lexer has failed before. -/
theorem pointsTo_of_treeOf_error {stream : Lexer.Stream} (h : treeOf stream = .error e)
    (hP : ∀ t ∈ stream.tokens, P t.pos) : stream.error? = some e ∨ e.PointsTo P := by
  have hpoints : ∀ {err}, (∃ t ∈ stream.tokens, t.pos = err.pos) →
      (syntaxError err).PointsTo P := fun ⟨t, ht, hpos⟩ =>
    CompileError.pointsTo_atPos (hpos ▸ hP t ht) _
  obtain ⟨tokens, error?⟩ := stream
  cases error? with
  | none =>
    rw [treeOf_eq] at h
    cases ht : Parse.tree tokens with
    | ok t => rw [ht] at h; cases h
    | error err =>
      rw [ht] at h
      obtain rfl := Except.error.inj h
      exact .inr (hpoints (pos_mem_of_tree_error ht))
  | some lexical =>
    -- The parser has seen the tokens before the lexical error, and may have failed on them.
    unfold treeOf at h
    cases hs : Parse.shiftAll [] tokens with
    | ok stack =>
      rw [hs] at h
      exact .inl (congrArg some (Except.error.inj h))
    | error err =>
      rw [hs] at h
      obtain rfl := Except.error.inj h
      exact .inr (hpoints (pos_mem_of_shiftAll_error hs))

/-- **A text that cannot be read is refused at a token**, or at the character at which the lexer
stops. -/
theorem pointsTo_of_read_error {source : String} (h : read source = .error (.compile e)) :
    Lexer.RefusedAt source e ∨ e.PointsTo (Lexer.TokenAt source) := by
  rcases error_of_bind_eq_error h with h | ⟨t, ht, h⟩
  · obtain ⟨e', ht, heq⟩ := mapError_eq_error_iff.mp h
    obtain rfl := StageError.compile.inj heq
    exact (pointsTo_of_treeOf_error ht fun t => Terminator.tokenAt_of_mem_read).imp_left
      Lexer.refusedAt_of_error
  · obtain ⟨hderives, htokens⟩ := tokens_of_treeOf (mapError_eq_ok_iff.mp ht)
    refine .inr (pointsTo_of_mem_faults (fun u hu => ?_) (mem_faults_of_ofTree hderives h))
    rw [htokens] at hu
    exact Terminator.tokenAt_of_mem_read hu

/-- A program text is read from a tree that spans its tokens. -/
theorem exists_reads_of_read {source : String} {statements : List Node}
    (h : read source = .ok (.block .start statements)) :
    ∃ t scope, Derives (.phrase .program) t ∧ t.tokens = (Terminator.read source).tokens ∧
      Reads [] t statements scope := by
  obtain ⟨t, ht, h⟩ := exists_of_bind_eq_ok h
  obtain ⟨hderives, htokens⟩ := tokens_of_treeOf (mapError_eq_ok_iff.mp ht)
  obtain ⟨-, statements', scope, hreads, heq⟩ := prescribes_of_ofTree hderives h
  obtain ⟨-, rfl⟩ := Node.block.inj heq
  exact ⟨t, scope, hderives, htokens, hreads⟩

/-- **What is read stands at tokens.** -/
theorem stands_of_read {source : String} {statements : List Node}
    (h : read source = .ok (.block .start statements)) :
    Node.StandAll (Lexer.TokenAt source) statements := by
  obtain ⟨t, scope, -, htokens, hreads⟩ := exists_reads_of_read h
  refine hreads.stands fun u hu => ?_
  rw [htokens] at hu
  exact Terminator.tokenAt_of_mem_read hu

end Syntax

/-! ### Lowering -/

/-- All positions in a part have a property, and so does the place of its owner. -/
def Part.Stands (P : Pos → Prop) : Part → Prop
  | .expr x | .statement x => x.Stands P
  | .exprs xs | .statements xs => Node.StandAll P xs
  | .receiver pos r => P pos ∧ Node.StandsOpt P r
  | .body owner b => P owner.pos ∧ Node.StandsOpt P b

/-- All instructions come from positions with a property. -/
def ComeFrom (P : Pos → Prop) (code : List Instruction) : Prop := ∀ i ∈ code, P i.origin.pos

theorem comeFrom_append {code code' : List Instruction} :
    ComeFrom P (code ++ code') ↔ ComeFrom P code ∧ ComeFrom P code' :=
  List.forall_mem_append

theorem comeFrom_singleton {i : Instruction} : ComeFrom P [i] ↔ P i.origin.pos :=
  List.forall_mem_singleton

/-- A parameter comes from where it stands. -/
theorem comeFrom_lowerParams {params : List Param} (h : ∀ p ∈ params, P p.pos) :
    ComeFrom P (params.flatMap Lowering.lowerParam) := by
  intro i hi
  obtain ⟨p, hp, hi⟩ := List.mem_flatMap.mp hi
  simp only [Lowering.lowerParam, List.mem_cons, List.not_mem_nil, or_false] at hi
  rcases hi with rfl | rfl <;> exact h p hp

/-- What is pushed behind a body comes from its last statement. -/
theorem comeFrom_closingLast {xs : List Node} (h : Node.StandAll P xs) :
    ComeFrom P (Lowering.closingLast xs) := by
  induction xs with
  | nil => exact List.forall_mem_nil _
  | cons x xs ih =>
    cases xs with
    | cons y ys =>
      rw [Lowering.closingLast_cons]
      exact ih h.2
    | nil =>
      rw [Lowering.closingLast_singleton]
      cases x with
      -- Only these leave no value, and what is pushed instead stands where they do.
      | assign | methodDef | classDef => exact comeFrom_singleton.mpr h.1.1
      | _ => exact List.forall_mem_nil _

/-- **Lowering stays at the positions of the syntax**, also when it fails. -/
theorem Surface.points_lower {p : Part} (h : Surface p) :
    ∀ {inside : Option String}, p.Stands P → PointsOr P (ComeFrom P) (p.lower inside) := by
  induction h with
  | call _ _ ihr ihargs =>
    rintro inside ⟨hpos, hr, hargs⟩
    refine (ihr ⟨hpos, hr⟩).bind fun rs hrs => (ihargs hargs).bind fun as has => ?_
    exact comeFrom_append.mpr ⟨comeFrom_append.mpr ⟨hrs, has⟩, comeFrom_singleton.mpr hpos⟩
  | conditional _ _ _ ihc iht ihe =>
    rintro inside ⟨hpos, hc, ht, he⟩
    refine (ihc hc).bind fun cs hcs => (iht ⟨hpos, ht⟩).bind fun ts hts =>
      (ihe ⟨hpos, he⟩).bind fun es hes => ?_
    simp only [pure, Except.pure, PointsOr, comeFrom_append, comeFrom_singleton]
    exact ⟨⟨⟨⟨⟨hcs, hpos⟩, hts⟩, hpos⟩, hes⟩, hpos⟩
  | localRead | integer | text | nil | constant => exact fun hpos => comeFrom_singleton.mpr hpos
  | absent => exact fun hpos => comeFrom_singleton.mpr hpos.1
  | present _ ih => exact fun hx => ih hx.2
  | expression _ ih => exact fun hx => ih hx
  | noExprs | noStatements => exact fun _ => List.forall_mem_nil _
  | moreExprs _ _ ihx ihxs | moreStatements _ _ ihx ihxs =>
    rintro inside ⟨hx, hxs⟩
    exact (ihx hx).bind fun first hfirst => (ihxs hxs).bind fun others hothers =>
      comeFrom_append.mpr ⟨hfirst, hothers⟩
  | assign _ ih =>
    rintro inside ⟨hpos, hvalue⟩
    exact (ih hvalue).bind fun vs hvs => comeFrom_append.mpr ⟨hvs, comeFrom_singleton.mpr hpos⟩
  | methodDef _ _ ih =>
    rintro inside ⟨hpos, hparams, hbody⟩
    refine (ih ⟨hpos, hbody⟩).bind fun bs hbs => ?_
    simp only [pure, Except.pure, PointsOr, comeFrom_append, comeFrom_singleton]
    exact ⟨⟨⟨hpos, comeFrom_lowerParams hparams⟩, hbs⟩, hpos⟩
  | classDef _ ih =>
    rintro inside ⟨hpos, hblock⟩
    cases inside with
    -- A class in a class is all that lowering refuses.
    | some outer => exact CompileError.pointsTo_atOrigin hpos _
    | none =>
      refine (ih hblock.2).bind fun bs hbs => ?_
      simp only [pure, Except.pure, PointsOr, comeFrom_append, comeFrom_singleton]
      exact ⟨⟨hpos, hbs⟩, hpos⟩
  | missing => exact fun hpos => comeFrom_singleton.mpr hpos.1
  | @block owner pos statements _ ih =>
    rintro inside ⟨-, hpos, hxs⟩
    cases statements with
    | nil => exact comeFrom_singleton.mpr hpos
    | cons x xs =>
      exact (ih hxs).bind fun ys hys => comeFrom_append.mpr ⟨hys, comeFrom_closingLast hxs⟩

end Rubylet
