import Rubylet.Instruction.Lowering
import Rubylet.Proofs.Syntax.Surface

/-!
# The layout of lowered code

Lowering answers lists that are put together. `Layout` says where in the finished code each part of
a program stands: a part of a program is laid out from one point to a later one, its own parts
between them, and its instructions at the points that are left. Nothing is said about lists any
more, so what is true of the code of a program is proved by induction on its layout.

A block has an opener and a closer. `Layout` asks that every opener be linked to its closer, by any
relation; lowering gives the layout without one (`layout_of_lower`), loading the one that the
machine jumps by.
-/

namespace Rubylet

open Lowering

/-- The instructions stand in the code from a point on. -/
def CodeAt (code : List Instruction) (n : Nat) (xs : List Instruction) : Prop :=
  ∀ (k : Nat) (i : Instruction), xs[k]? = some i → code[n + k]? = some i

section CodeAt

variable {code xs ys : List Instruction} {i : Instruction} {n : Nat}

theorem CodeAt.self (code : List Instruction) : CodeAt code 0 code := by
  intro k i h
  rwa [Nat.zero_add]

theorem CodeAt.left (h : CodeAt code n (xs ++ ys)) : CodeAt code n xs := by
  intro k i hk
  have hlt := (List.getElem?_eq_some_iff.mp hk).1
  exact h k i (by rwa [List.getElem?_append_left hlt])

theorem CodeAt.right (h : CodeAt code n (xs ++ ys)) : CodeAt code (n + xs.length) ys := by
  intro k i hk
  rw [Nat.add_assoc]
  refine h (xs.length + k) i ?_
  rw [List.getElem?_append_right (Nat.le_add_right _ _), Nat.add_sub_cancel_left]
  exact hk

/-- What stands at the head of a list stands at its place in the code. -/
theorem CodeAt.head (h : CodeAt code n (i :: xs)) : code[n]? = some i := h 0 i rfl

theorem CodeAt.tail (h : CodeAt code n (i :: xs)) : CodeAt code (n + 1) xs := by
  intro k j hk
  rw [Nat.add_assoc, Nat.add_comm 1]
  exact h (k + 1) j hk

/-- Instructions that stand in the code end within it. -/
theorem CodeAt.le_length (h : CodeAt code n xs) (hn : n ≤ code.length) :
    n + xs.length ≤ code.length := by
  induction xs generalizing n with
  | nil => exact hn
  | cons i xs ih =>
    have hlt := (List.getElem?_eq_some_iff.mp h.head).1
    have hrest := ih h.tail hlt
    rw [List.length_cons]
    omega

end CodeAt

/-- The instructions that take the arguments into the parameters stand from a point on. -/
def ParamsAt (code : List Instruction) (n : Nat) (params : List Param) : Prop :=
  CodeAt code n (params.flatMap lowerParam)

/-- Every parameter takes two records. -/
@[simp] theorem length_lowerParams (params : List Param) :
    (params.flatMap lowerParam).length = 2 * params.length := by
  induction params with
  | nil => rfl
  | cons p ps ih =>
    rw [List.flatMap_cons, List.length_append, ih, List.length_cons]
    simp only [lowerParam, List.length_cons, List.length_nil]
    omega

/-- At most one instruction is pushed behind a body. -/
theorem closingLast_cases (xs : List Node) :
    closingLast xs = [] ∨ ∃ i, closingLast xs = [i] := by
  have hclosing : ∀ x, closing x = [] ∨ ∃ i, closing x = [i] := by
    intro x
    cases x <;> first | exact .inl rfl | exact .inr ⟨_, rfl⟩
  unfold closingLast
  split
  · exact hclosing _
  · exact .inl rfl

/-- The instruction of a piece of syntax that is one instruction. -/
def Node.leaf? : Node → Option Instruction
  | .localRead pos name => some ⟨.pushVar name, ⟨.localRead, pos⟩⟩
  | .integer pos value => some ⟨.pushInt value, ⟨.integer, pos⟩⟩
  | .text pos value => some ⟨.pushStr value, ⟨.text, pos⟩⟩
  | .nil pos => some ⟨.pushNil, ⟨.nil, pos⟩⟩
  | .constant pos name => some ⟨.pushConst name, ⟨.constant, pos⟩⟩
  | _ => none

/-- A part of a program, inside a class or not, is laid out from one point to another. -/
inductive Layout (code : List Instruction) (links : Nat → Nat → Prop) :
    Option String → Part → Nat → Nat → Prop
  | leaf {inside x i n} : x.leaf? = some i → code[n]? = some i →
      Layout code links inside (.expr x) n (n + 1)
  | call {inside pos r name args n k j} :
      Layout code links inside (.receiver pos r) n k →
      Layout code links inside (.exprs args) k j →
      code[j]? = some ⟨.send name (some args.length), ⟨.call, pos⟩⟩ →
      Layout code links inside (.expr (.call pos r name args)) n (j + 1)
  | conditional {inside pos condition thenBody elseBody n k j m} :
      Layout code links inside (.expr condition) n k →
      code[k]? = some ⟨.ifStart, ⟨.conditional, pos⟩⟩ →
      Layout code links inside (.body ⟨.conditional, pos⟩ thenBody) (k + 1) j →
      code[j]? = some ⟨.ifElse, ⟨.conditional, pos⟩⟩ →
      Layout code links inside (.body ⟨.conditional, pos⟩ elseBody) (j + 1) m →
      code[m]? = some ⟨.ifEnd, ⟨.conditional, pos⟩⟩ → links k j → links j m →
      Layout code links inside (.expr (.conditional pos condition thenBody elseBody)) n (m + 1)
  | absent {inside pos n} : code[n]? = some ⟨.pushNil, ⟨.call, pos⟩⟩ →
      Layout code links inside (.receiver pos none) n (n + 1)
  | present {inside pos x n n'} : Layout code links inside (.expr x) n n' →
      Layout code links inside (.receiver pos (some x)) n n'
  | noExprs {inside n} : Layout code links inside (.exprs []) n n
  | moreExprs {inside x xs n k n'} : Layout code links inside (.expr x) n k →
      Layout code links inside (.exprs xs) k n' → Layout code links inside (.exprs (x :: xs)) n n'
  | expression {inside x n n'} : Layout code links inside (.expr x) n n' →
      Layout code links inside (.statement x) n n'
  | assign {inside pos name value n k} : Layout code links inside (.expr value) n k →
      code[k]? = some ⟨.setVar name, ⟨.assignment, pos⟩⟩ →
      Layout code links inside (.statement (.assign pos name value)) n (k + 1)
  | methodDef {inside pos name params body n j} :
      code[n]? = some ⟨.defStart name, ⟨.methodDef, pos⟩⟩ → Numbered params →
      ParamsAt code (n + 1) params →
      Layout code links inside (.body ⟨.methodDef, pos⟩ body) (n + 1 + 2 * params.length) j →
      code[j]? = some ⟨.defEnd name, ⟨.methodDef, pos⟩⟩ → links n j →
      Layout code links inside (.statement (.methodDef pos name params body)) n (j + 1)
  | classDef {pos name start statements n j} :
      code[n]? = some ⟨.classStart name, ⟨.classDef, pos⟩⟩ →
      Layout code links (some name) (.statements statements) (n + 1) j →
      code[j]? = some ⟨.classEnd name, ⟨.classDef, pos⟩⟩ → links n j →
      Layout code links none (.statement (.classDef pos name (.block start statements))) n (j + 1)
  | noStatements {inside n} : Layout code links inside (.statements []) n n
  | moreStatements {inside x xs n k n'} : Layout code links inside (.statement x) n k →
      Layout code links inside (.statements xs) k n' →
      Layout code links inside (.statements (x :: xs)) n n'
  | missing {inside owner n} : code[n]? = some ⟨.pushNil, owner⟩ →
      Layout code links inside (.body owner none) n (n + 1)
  | empty {inside owner pos n} : code[n]? = some ⟨.pushNil, ⟨.block, pos⟩⟩ →
      Layout code links inside (.body owner (some (.block pos []))) n (n + 1)
  /-- The last statement leaves the value of the body. -/
  | left {inside owner pos xs n n'} : xs ≠ [] → Layout code links inside (.statements xs) n n' →
      closingLast xs = [] → Layout code links inside (.body owner (some (.block pos xs))) n n'
  /-- The last statement leaves no value, so one is pushed behind it. -/
  | closed {inside owner pos xs i n k} : Layout code links inside (.statements xs) n k →
      closingLast xs = [i] → code[k]? = some i →
      Layout code links inside (.body owner (some (.block pos xs))) n (k + 1)

namespace Layout

variable {code : List Instruction} {links links' : Nat → Nat → Prop} {inside : Option String}
  {p : Part} {n n' : Nat}

/-- The point that a part reaches to, under another name. -/
theorem reaches (h : Layout code links inside p n n') {m : Nat} (hm : n' = m) :
    Layout code links inside p n m := hm ▸ h

theorem le (h : Layout code links inside p n n') : n ≤ n' := by
  induction h <;> omega

/-- Only the links of openers in the part matter. -/
theorem relink (h : Layout code links inside p n n')
    (hl : ∀ a b, n ≤ a → a < n' → links a b → links' a b) : Layout code links' inside p n n' := by
  -- The parts stand within the whole, so each of them asks for links of the whole only.
  induction h with
  | leaf hx hi => exact .leaf hx hi
  | call hr hargs hi ihr ihargs =>
    have := hr.le
    have := hargs.le
    exact .call (ihr fun a b _ _ => hl a b (by omega) (by omega))
      (ihargs fun a b _ _ => hl a b (by omega) (by omega)) hi
  | conditional hc hs ht he hf hd hlt hle ihc iht ihf =>
    have := hc.le
    have := ht.le
    have := hf.le
    exact .conditional (ihc fun a b _ _ => hl a b (by omega) (by omega)) hs
      (iht fun a b _ _ => hl a b (by omega) (by omega)) he
      (ihf fun a b _ _ => hl a b (by omega) (by omega)) hd
      (hl _ _ (by omega) (by omega) hlt) (hl _ _ (by omega) (by omega) hle)
  | absent hi => exact .absent hi
  | present _ ih => exact .present (ih hl)
  | noExprs => exact .noExprs
  | moreExprs hx hxs ihx ihxs =>
    have := hx.le
    have := hxs.le
    exact .moreExprs (ihx fun a b _ _ => hl a b (by omega) (by omega))
      (ihxs fun a b _ _ => hl a b (by omega) (by omega))
  | expression _ ih => exact .expression (ih hl)
  | assign _ hi ih => exact .assign (ih fun a b _ _ => hl a b (by omega) (by omega)) hi
  | methodDef hs hn hp hb he hlink ih =>
    have := hb.le
    exact .methodDef hs hn hp (ih fun a b _ _ => hl a b (by omega) (by omega)) he
      (hl _ _ (by omega) (by omega) hlink)
  | classDef hs hb he hlink ih =>
    have := hb.le
    exact .classDef hs (ih fun a b _ _ => hl a b (by omega) (by omega)) he
      (hl _ _ (by omega) (by omega) hlink)
  | noStatements => exact .noStatements
  | moreStatements hx hxs ihx ihxs =>
    have := hx.le
    have := hxs.le
    exact .moreStatements (ihx fun a b _ _ => hl a b (by omega) (by omega))
      (ihxs fun a b _ _ => hl a b (by omega) (by omega))
  | missing hi => exact .missing hi
  | empty hi => exact .empty hi
  | left hne _ hc ih => exact .left hne (ih hl) hc
  | closed _ hc hi ih => exact .closed (ih fun a b _ _ => hl a b (by omega) (by omega)) hc hi

/-- Statements stand one after the other. -/
theorem statements_append {xs ys : List Node}
    (h : Layout code links inside (.statements (xs ++ ys)) n n') :
    ∃ k, Layout code links inside (.statements xs) n k ∧
      Layout code links inside (.statements ys) k n' := by
  induction xs generalizing n with
  | nil => exact ⟨n, .noStatements, h⟩
  | cons x xs ih =>
    cases h with
    | moreStatements hx hrest =>
      obtain ⟨k, hxs, hys⟩ := ih hrest
      exact ⟨k, .moreStatements hx hxs, hys⟩

end Layout

/-! ### Lowering lays programs out -/

/-- What a part is lowered to. -/
def Part.lower (inside : Option String) : Part → Except CompileError (List Instruction)
  | .expr x | .statement x => Lowering.lower inside x
  | .exprs xs | .statements xs => lowerAll inside xs
  | .receiver pos r => lowerReceiver inside pos r
  | .body owner b => lowerBody inside owner b

/-- **A part of a program text is laid out where its instructions stand.** -/
theorem layout_of_lower {code : List Instruction} {p : Part} (h : Surface p) :
    ∀ {inside : Option String} {n : Nat} {xs : List Instruction}, p.lower inside = .ok xs →
      CodeAt code n xs → Layout code (fun _ _ => True) inside p n (n + xs.length) := by
  induction h with
  | @call pos r name args _ _ ihr ihargs =>
    intro inside n xs hl hc
    obtain ⟨rs, hr, hl⟩ := exists_of_bind_eq_ok hl
    obtain ⟨as, has, hl⟩ := exists_of_bind_eq_ok hl
    obtain rfl := Except.ok.inj hl
    have hi := hc.right.head
    rw [List.length_append, ← Nat.add_assoc] at hi
    refine (Layout.call (ihr hr hc.left.left) (ihargs has hc.left.right) hi).reaches ?_
    simp only [List.length_append, List.length_cons, List.length_nil]
    omega
  -- What is lowered is a concatenation: `CodeAt.left` and `CodeAt.right` find its parts in the
  -- code, and what is left to show is where they begin and end.
  | @conditional pos c t e _ _ _ ihc iht ihe =>
    intro inside n xs hl hc
    obtain ⟨cs, hcs, hl⟩ := exists_of_bind_eq_ok hl
    obtain ⟨ts, hts, hl⟩ := exists_of_bind_eq_ok hl
    obtain ⟨es, hes, hl⟩ := exists_of_bind_eq_ok hl
    obtain rfl := Except.ok.inj hl
    have hif := hc.left.left.left.left.right.head
    have ht := hc.left.left.left.right
    have helse := hc.left.left.right.head
    have he := hc.left.right
    have hend := hc.right.head
    simp only [List.length_append, List.length_cons, List.length_nil, ← Nat.add_assoc,
      Nat.zero_add] at ht helse he hend
    refine (Layout.conditional (ihc hcs hc.left.left.left.left.left) hif (iht hts ht) helse
      (ihe hes he) hend trivial trivial).reaches ?_
    simp only [List.length_append, List.length_cons, List.length_nil]
    omega
  | localRead | integer | text | nil | constant =>
    intro inside n xs hl hc
    obtain rfl := Except.ok.inj hl
    exact .leaf rfl hc.head
  | absent =>
    intro inside n xs hl hc
    obtain rfl := Except.ok.inj hl
    exact .absent hc.head
  | present _ ih =>
    intro inside n xs hl hc
    exact .present (ih hl hc)
  | noExprs =>
    intro inside n xs hl hc
    obtain rfl := Except.ok.inj hl
    exact .noExprs
  | moreExprs _ _ ihx ihxs =>
    intro inside n xs hl hc
    obtain ⟨first, hfirst, hl⟩ := exists_of_bind_eq_ok hl
    obtain ⟨others, hothers, hl⟩ := exists_of_bind_eq_ok hl
    obtain rfl := Except.ok.inj hl
    rw [List.length_append, ← Nat.add_assoc]
    exact .moreExprs (ihx hfirst hc.left) (ihxs hothers hc.right)
  | expression _ ih =>
    intro inside n xs hl hc
    exact .expression (ih hl hc)
  | assign _ ih =>
    intro inside n xs hl hc
    obtain ⟨vs, hvs, hl⟩ := exists_of_bind_eq_ok hl
    obtain rfl := Except.ok.inj hl
    rw [List.length_append, ← Nat.add_assoc]
    exact .assign (ih hvs hc.left) hc.right.head
  | @methodDef pos name params body hn _ ih =>
    intro inside n xs hl hc
    obtain ⟨bs, hbs, hl⟩ := exists_of_bind_eq_ok hl
    obtain rfl := Except.ok.inj hl
    have hparams := hc.left.left.right
    have hbody := hc.left.right
    have hend := hc.right.head
    simp only [List.length_append, List.length_cons, List.length_nil, length_lowerParams,
      ← Nat.add_assoc, Nat.zero_add] at hparams hbody hend
    refine (Layout.methodDef hc.left.left.left.head hn hparams (ih hbs hbody) hend trivial).reaches ?_
    simp only [List.length_append, List.length_cons, List.length_nil, length_lowerParams]
    omega
  | @classDef pos name start statements _ ih =>
    intro inside n xs hl hc
    cases inside with
    | some outer => cases hl
    | none =>
      obtain ⟨bs, hbs, hl⟩ := exists_of_bind_eq_ok hl
      obtain rfl := Except.ok.inj hl
      have hbody := hc.left.right
      have hend := hc.right.head
      simp only [List.length_append, List.length_cons, List.length_nil, ← Nat.add_assoc,
        Nat.zero_add] at hbody hend
      refine (Layout.classDef hc.left.left.head (ih hbs hbody) hend trivial).reaches ?_
      simp only [List.length_append, List.length_cons, List.length_nil]
      omega
  -- A class in a class is not lowered.
  | noStatements =>
    intro inside n xs hl hc
    obtain rfl := Except.ok.inj hl
    exact .noStatements
  | moreStatements _ _ ihx ihxs =>
    intro inside n xs hl hc
    obtain ⟨first, hfirst, hl⟩ := exists_of_bind_eq_ok hl
    obtain ⟨others, hothers, hl⟩ := exists_of_bind_eq_ok hl
    obtain rfl := Except.ok.inj hl
    rw [List.length_append, ← Nat.add_assoc]
    exact .moreStatements (ihx hfirst hc.left) (ihxs hothers hc.right)
  | missing =>
    intro inside n xs hl hc
    obtain rfl := Except.ok.inj hl
    exact .missing hc.head
  | @block owner pos statements _ ih =>
    intro inside n xs hl hc
    cases statements with
    | nil =>
      obtain rfl := Except.ok.inj hl
      exact .empty hc.head
    | cons first rest =>
      obtain ⟨ys, hys, hl⟩ := exists_of_bind_eq_ok hl
      obtain rfl := Except.ok.inj hl
      have hstatements := ih hys hc.left
      rcases closingLast_cases (first :: rest) with hnone | ⟨i, hone⟩
      · rw [hnone, List.append_nil]
        exact .left (List.cons_ne_nil _ _) hstatements hnone
      · have hi := hc.right
        rw [hone] at hi ⊢
        rw [List.length_append, ← Nat.add_assoc]
        exact .closed hstatements hone hi.head

end Rubylet
