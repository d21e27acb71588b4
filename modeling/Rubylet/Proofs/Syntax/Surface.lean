import Rubylet.Syntax.Read

/-!
# The syntax of program texts

A tree built by hand may hold anything anywhere. `Surface` says what the trees of program texts are
made of: operands and conditions are expressions, assignments and definitions are statements, the
bodies of methods, classes and branches are blocks of statements, and the parameters of a method are
numbered from zero.

* `surface_of_read`: that is all that reading a program text can yield.
-/

namespace Rubylet

/-- A part of a program. -/
inductive Part where
  | expr (x : Node)
  | exprs (xs : List Node)
  | statement (x : Node)
  | statements (xs : List Node)
  /-- The receiver of a call, which may be missing. -/
  | receiver (pos : Pos) (r : Option Node)
  /-- The body of a method or of a branch, which may be missing. -/
  | body (owner : Origin) (b : Option Node)
  deriving Inhabited

/-- Parameters that are numbered in their order. -/
def Numbered (params : List Param) : Prop :=
  ∀ (i : Nat) (p : Param), params[i]? = some p → p.index = i

/-- What program texts are made of. -/
inductive Surface : Part → Prop
  | call {pos r name args} : Surface (.receiver pos r) → Surface (.exprs args) →
      Surface (.expr (.call pos r name args))
  | conditional {pos condition thenBody elseBody} : Surface (.expr condition) →
      Surface (.body ⟨.conditional, pos⟩ thenBody) → Surface (.body ⟨.conditional, pos⟩ elseBody) →
      Surface (.expr (.conditional pos condition thenBody elseBody))
  | localRead {pos name} : Surface (.expr (.localRead pos name))
  | integer {pos value} : Surface (.expr (.integer pos value))
  | text {pos value} : Surface (.expr (.text pos value))
  | nil {pos} : Surface (.expr (.nil pos))
  | constant {pos name} : Surface (.expr (.constant pos name))
  | absent {pos} : Surface (.receiver pos none)
  | present {pos x} : Surface (.expr x) → Surface (.receiver pos (some x))
  | noExprs : Surface (.exprs [])
  | moreExprs {x xs} : Surface (.expr x) → Surface (.exprs xs) → Surface (.exprs (x :: xs))
  | expression {x} : Surface (.expr x) → Surface (.statement x)
  | assign {pos name value} : Surface (.expr value) → Surface (.statement (.assign pos name value))
  | methodDef {pos name params body} : Numbered params → Surface (.body ⟨.methodDef, pos⟩ body) →
      Surface (.statement (.methodDef pos name params body))
  | classDef {pos name start statements} : Surface (.statements statements) →
      Surface (.statement (.classDef pos name (.block start statements)))
  | noStatements : Surface (.statements [])
  | moreStatements {x xs} : Surface (.statement x) → Surface (.statements xs) →
      Surface (.statements (x :: xs))
  | missing {owner} : Surface (.body owner none)
  | block {owner pos statements} : Surface (.statements statements) →
      Surface (.body owner (some (.block pos statements)))

/-- Expressions of the surface, side by side. -/
theorem Surface.exprs_append {xs ys : List Node} (hx : Surface (.exprs xs))
    (hy : Surface (.exprs ys)) : Surface (.exprs (xs ++ ys)) := by
  induction xs with
  | nil => exact hy
  | cons x xs ih =>
    cases hx with
    | moreExprs h hs => exact .moreExprs h (ih hs)

/-- Statements of the surface, side by side. -/
theorem Surface.statements_append {xs ys : List Node} (hx : Surface (.statements xs))
    (hy : Surface (.statements ys)) : Surface (.statements (xs ++ ys)) := by
  induction xs with
  | nil => exact hy
  | cons x xs ih =>
    cases hx with
    | moreStatements h hs => exact .moreStatements h (ih hs)

namespace Syntax

/-! ### What reading yields -/

/-- Whatever the scope, what is read has a property. -/
def Yields {α : Type} (x : Reading α) (P : α → Prop) : Prop :=
  ∀ scope a scope', x.run scope = .ok (a, scope') → P a

section Yields

variable {α β : Type} {x : Reading α} {f : α → Reading β} {P : α → Prop} {Q : β → Prop}

theorem Yields.pure {a : α} (h : P a) : Yields (Pure.pure a) P := by
  intro scope b scope' hb
  obtain ⟨rfl, -⟩ := Prod.mk.inj (Except.ok.inj hb)
  exact h

theorem Yields.throw {e : StageError} : Yields (MonadExcept.throw e : Reading α) P :=
  fun _ _ _ h => nomatch h

/-- Two readings in turn. -/
theorem Yields.bind (hx : Yields x P) (hf : ∀ a, P a → Yields (f a) Q) : Yields (x >>= f) Q := by
  intro scope b scope' hb
  rw [StateT.run_bind] at hb
  cases hr : x.run scope with
  | error e => rw [hr] at hb; cases hb
  | ok r =>
    obtain ⟨a, scope₁⟩ := r
    rw [hr] at hb
    exact hf a (hx scope a scope₁ hr) scope₁ b scope' hb

/-- What does not matter for the result. -/
theorem Yields.any (x : Reading α) : Yields x fun _ => True := fun _ _ _ _ => trivial

theorem Yields.inScope {scope : Scope} (hx : Yields x P) : Yields (Syntax.inScope scope x) P :=
  (Yields.any _).bind fun _ _ => (Yields.any _).bind fun _ _ => hx.bind fun _ ha =>
    (Yields.any _).bind fun _ _ => .pure ha

end Yields

theorem yields_readInteger (t : Token) : Yields (readInteger t) fun x => Surface (.expr x) := by
  unfold readInteger
  dsimp only
  split
  · exact .throw
  · exact .pure .integer

theorem yields_readString (t : Token) : Yields (readString t) fun x => Surface (.expr x) := by
  unfold readString
  split
  · exact .pure .text
  · exact .throw

theorem yields_readName (t : Token) : Yields (readName t) fun x => Surface (.expr x) := by
  refine (Yields.any _).bind fun scope _ => ?_
  split
  · exact .pure .localRead
  · exact .pure (.call .absent .noExprs)

/-- Parameters are numbered from the index they start with. -/
theorem yields_readParams :
    ∀ (tokens : List Token) (seen : List String) (index : Nat),
      Yields (readParams seen index tokens) fun params =>
        ∀ (i : Nat) (p : Param), params[i]? = some p → p.index = (index + i : Nat) := by
  intro tokens
  induction tokens with
  | nil =>
    intro seen index
    exact .pure fun i p h => by simp at h
  | cons t rest ih =>
    intro seen index
    rw [readParams]
    split
    · exact .throw
    · refine (ih _ _).bind fun others hothers => .pure fun i p hp => ?_
      -- The first parameter has the index at hand, and the others count on from it.
      cases i with
      | zero => obtain rfl := Option.some.inj hp; rfl
      | succ i => rw [hothers i p hp, Nat.add_assoc, Nat.add_comm 1]

/-- The parameters of a definition are numbered from zero. -/
theorem yields_numbered (tokens : List Token) : Yields (readParams [] 0 tokens) Numbered := by
  intro scope params scope' h i p hp
  have hi := yields_readParams tokens [] 0 scope params scope' h i p hp
  rwa [Nat.zero_add] at hi

/-- The body of a construct, from its statements. -/
theorem Surface.blockAt {owner : Origin} {fallback : Pos} {body : Tree} {statements : List Node}
    (h : Surface (.statements statements)) :
    Surface (.body owner (some (Syntax.blockAt fallback body statements))) := .block h

mutual

/-- A body reads as statements of the surface. -/
theorem yields_readBody (t : Tree) : Yields (readBody t) fun xs => Surface (.statements xs) := by
  -- The cases of the reader: no statement, one, or several, with or without terminators around
  -- them.
  unfold readBody
  split
  · exact .pure .noStatements
  · exact .pure .noStatements
  · next first _ =>
    exact (yields_readStatement first).bind fun _ h => .pure (.moreStatements h .noStatements)
  · next first more _ =>
    exact (yields_readStatement first).bind fun _ h => (yields_readMore more).bind fun _ hs =>
      .pure (.moreStatements h hs)
  · next first _ =>
    exact (yields_readStatement first).bind fun _ h => .pure (.moreStatements h .noStatements)
  · next first more _ =>
    exact (yields_readStatement first).bind fun _ h => (yields_readMore more).bind fun _ hs =>
      .pure (.moreStatements h hs)
  · exact .throw
termination_by sizeOf t
decreasing_by all_goals (subst t; simp only [Tree.node.sizeOf_spec, List.cons.sizeOf_spec]; omega)

theorem yields_readMore (t : Tree) : Yields (readMore t) fun xs => Surface (.statements xs) := by
  unfold readMore
  split
  · next statement =>
    exact (yields_readStatement statement).bind fun _ h => .pure (.moreStatements h .noStatements)
  · next more _ statement =>
    exact (yields_readMore more).bind fun _ hs => (yields_readStatement statement).bind fun _ h =>
      .pure (hs.statements_append (.moreStatements h .noStatements))
  · exact .throw
termination_by sizeOf t
decreasing_by all_goals (subst t; simp only [Tree.node.sizeOf_spec, List.cons.sizeOf_spec]; omega)

/-- A statement reads as one of the surface. -/
theorem yields_readStatement (t : Tree) :
    Yields (readStatement t) fun x => Surface (.statement x) := by
  unfold readStatement
  -- By the rule of the statement; a tree of another shape is not read.
  split
  · next t => exact yields_readStatement t
  · next t => exact yields_readStatement t
  · next t => exact yields_readStatement t
  · next t => exact fun s x s' h => .expression (yields_readExpr t s x s' h)
  · next body _ =>
    refine (yields_readBody body).inScope.bind fun statements h => .pure ?_
    exact .methodDef (fun _ _ h => nomatch h) (Surface.blockAt h)
  · next list body _ =>
    refine (yields_numbered (paramTokens list)).bind fun params hparams => ?_
    exact (yields_readBody body).inScope.bind fun statements h =>
      .pure (.methodDef hparams (Surface.blockAt h))
  · next body _ =>
    exact (yields_readBody body).inScope.bind fun statements h => .pure (.classDef h)
  · next value =>
    exact (yields_readExpr value).bind fun _ h => (Yields.any _).bind fun _ _ => .pure (.assign h)
  · exact .throw
termination_by sizeOf t
decreasing_by all_goals (subst t; simp only [Tree.node.sizeOf_spec, List.cons.sizeOf_spec]; omega)

/-- An expression reads as one of the surface. -/
theorem yields_readExpr (t : Tree) : Yields (readExpr t) fun x => Surface (.expr x) := by
  unfold readExpr
  -- A binary rule and a message become a call with a receiver; a rule of one phrase is read as
  -- that.
  split
  · next t => exact yields_readExpr t
  · next t => exact yields_readExpr t
  · next t => exact yields_readExpr t
  · next t => exact yields_readExpr t
  · next t => exact yields_readExpr t
  · next left _ right =>
    exact (yields_readExpr left).bind fun _ hl => (yields_readExpr right).bind fun _ hr =>
      .pure (.call (.present hl) (.moreExprs hr .noExprs))
  · next left _ right =>
    exact (yields_readExpr left).bind fun _ hl => (yields_readExpr right).bind fun _ hr =>
      .pure (.call (.present hl) (.moreExprs hr .noExprs))
  · next left _ right =>
    exact (yields_readExpr left).bind fun _ hl => (yields_readExpr right).bind fun _ hr =>
      .pure (.call (.present hl) (.moreExprs hr .noExprs))
  · next left _ right =>
    exact (yields_readExpr left).bind fun _ hl => (yields_readExpr right).bind fun _ hr =>
      .pure (.call (.present hl) (.moreExprs hr .noExprs))
  · next receiver _ _ =>
    exact (yields_readExpr receiver).bind fun _ h => .pure (.call (.present h) .noExprs)
  · next receiver _ _ args =>
    exact (yields_readExpr receiver).bind fun _ h => (yields_readArgs args).bind fun _ hs =>
      .pure (.call (.present h) hs)
  · exact yields_readInteger _
  · exact yields_readString _
  · exact .pure .nil
  · exact .pure .constant
  · exact yields_readName _
  · next args => exact (yields_readArgs args).bind fun _ hs => .pure (.call .absent hs)
  · next condition body _ =>
    exact (yields_readExpr condition).bind fun _ hc => (yields_readBody body).bind fun _ h =>
      .pure (.conditional hc (Surface.blockAt h) .missing)
  · next condition _ body _ =>
    exact (yields_readExpr condition).bind fun _ hc => (yields_readBody body).bind fun _ h =>
      .pure (.conditional hc (Surface.blockAt h) .missing)
  · next condition body other _ =>
    exact (yields_readExpr condition).bind fun _ hc => (yields_readBody body).bind fun _ h =>
      (yields_readElse other _).bind fun _ ho => .pure (.conditional hc (Surface.blockAt h) ho)
  · next condition _ body other _ =>
    exact (yields_readExpr condition).bind fun _ hc => (yields_readBody body).bind fun _ h =>
      (yields_readElse other _).bind fun _ ho => .pure (.conditional hc (Surface.blockAt h) ho)
  · exact .throw
termination_by sizeOf t
decreasing_by all_goals (subst t; simp only [Tree.node.sizeOf_spec, List.cons.sizeOf_spec]; omega)

/-- What stands behind an else reads as a body. -/
theorem yields_readElse (t : Tree) (owner : Origin) :
    Yields (readElse t) fun x => Surface (.body owner (some x)) := by
  unfold readElse
  -- An `elsif` stands for a conditional of its own, alone in its block.
  split
  · next body => exact (yields_readBody body).bind fun _ h => .pure (Surface.blockAt h)
  · next condition body =>
    exact (yields_readExpr condition).bind fun _ hc => (yields_readBody body).bind fun _ h =>
      .pure (.block (.moreStatements (.expression (.conditional hc (Surface.blockAt h) .missing))
        .noStatements))
  · next condition _ body =>
    exact (yields_readExpr condition).bind fun _ hc => (yields_readBody body).bind fun _ h =>
      .pure (.block (.moreStatements (.expression (.conditional hc (Surface.blockAt h) .missing))
        .noStatements))
  · next condition body other =>
    exact (yields_readExpr condition).bind fun _ hc => (yields_readBody body).bind fun _ h =>
      (yields_readElse other _).bind fun _ ho =>
        .pure (.block (.moreStatements (.expression (.conditional hc (Surface.blockAt h) ho))
          .noStatements))
  · next condition _ body other =>
    exact (yields_readExpr condition).bind fun _ hc => (yields_readBody body).bind fun _ h =>
      (yields_readElse other _).bind fun _ ho =>
        .pure (.block (.moreStatements (.expression (.conditional hc (Surface.blockAt h) ho))
          .noStatements))
  · exact .throw
termination_by sizeOf t
decreasing_by all_goals (subst t; simp only [Tree.node.sizeOf_spec, List.cons.sizeOf_spec]; omega)

theorem yields_readArgs (t : Tree) : Yields (readArgs t) fun xs => Surface (.exprs xs) := by
  unfold readArgs
  split
  · exact .pure .noExprs
  · next first _ => exact (yields_readExpr first).bind fun _ h => .pure (.moreExprs h .noExprs)
  · next first more _ =>
    exact (yields_readExpr first).bind fun _ h => (yields_readArgs more).bind fun _ hs =>
      .pure (.moreExprs h hs)
  · next arg => exact (yields_readExpr arg).bind fun _ h => .pure (.moreExprs h .noExprs)
  -- These lists are written from the right: the last argument stands behind the others.
  · next more _ arg =>
    exact (yields_readArgs more).bind fun _ hs => (yields_readExpr arg).bind fun _ h =>
      .pure (hs.exprs_append (.moreExprs h .noExprs))
  · exact .throw
termination_by sizeOf t
decreasing_by all_goals (subst t; simp only [Tree.node.sizeOf_spec, List.cons.sizeOf_spec]; omega)

end

/-- **A program text is read as surface syntax.** -/
theorem surface_of_read {source : String} {root : Node} (h : read source = .ok root) :
    ∃ statements, root = .block .start statements ∧ Surface (.statements statements) := by
  unfold read at h
  cases ht : treeOf (Terminator.read source) with
  | error e => rw [ht] at h; cases h
  | ok t =>
    rw [ht] at h
    change ofTree t = .ok root at h
    unfold ofTree at h
    -- The root of a tree is a program, whose part is its body.
    split at h
    · next body =>
      cases hr : (readBody body).run [] with
      | error e => rw [hr] at h; cases h
      | ok r =>
        obtain ⟨statements, scope⟩ := r
        rw [hr] at h
        exact ⟨statements, (Except.ok.inj h).symm, yields_readBody body [] statements scope hr⟩
    · cases h

end Syntax

end Rubylet
