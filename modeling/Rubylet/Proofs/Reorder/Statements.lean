import Mathlib.Logic.Equiv.Defs
import Rubylet.Proofs.Code.Definitions
import Rubylet.Proofs.Replay.Renaming

/-!
# Statements in another order

The statements of a program may be put into another order, in which only definitions of methods pass
other statements (`Reorders`). A record goes with its statement: `relocate` counts where it stands
then. That is a permutation of the records (`Reorders.relocation`), by which the records of one
statement keep following one another (`Reorders.shifts`).

A program in which no method is defined twice declares the same methods in any order, at other
records (`Reorders.find?_eq`).
-/

namespace Rubylet

open Direct

/-! ### Statements and records -/

/-- The number of the first record of the statement at a place. -/
def Node.startOf (xs : List Node) (i : Nat) : Nat := Node.countAll (xs.take i)

/-- The place of the statement that a record belongs to, and the place of the record in it. -/
def Node.locate : List Node → Nat → Nat × Nat
  | [], n => (0, n)
  | x :: xs, n =>
    if n < x.count then (0, n)
    else ((Node.locate xs (n - x.count)).1 + 1, (Node.locate xs (n - x.count)).2)

namespace Node

variable {x y : Node} {xs : List Node} {i j k n : Nat}

@[simp] theorem startOf_zero (xs : List Node) : startOf xs 0 = 0 := rfl

@[simp] theorem startOf_cons_succ (x : Node) (xs : List Node) (i : Nat) :
    startOf (x :: xs) (i + 1) = x.count + startOf xs i := rfl

theorem startOf_of_length_le (h : xs.length ≤ i) : startOf xs i = countAll xs := by
  rw [startOf, List.take_of_length_le h]

/-- A statement ends before any later one begins. -/
theorem startOf_add_count_le (hx : xs[i]? = some x) (h : i < k) :
    startOf xs i + x.count ≤ startOf xs k := by
  -- On the statements, with both indices counted down together.
  induction xs generalizing i k with
  | nil => cases hx
  | cons y ys ih =>
    obtain ⟨k, rfl⟩ := Nat.exists_eq_succ_of_ne_zero (Nat.ne_of_gt (Nat.zero_lt_of_lt h))
    cases i with
    | zero =>
      obtain rfl := Option.some.inj hx
      simp
    | succ i =>
      have := ih (i := i) (k := k) hx (Nat.lt_of_succ_lt_succ h)
      simp only [startOf_cons_succ]
      omega

/-- A record of a statement is located there. -/
theorem locate_eq (hx : xs[i]? = some x) (hj : j < x.count) :
    locate xs (startOf xs i + j) = (i, j) := by
  induction xs generalizing i with
  | nil => cases hx
  | cons y ys ih =>
    cases i with
    | zero =>
      obtain rfl := Option.some.inj hx
      rw [startOf_zero, Nat.zero_add, locate, if_pos hj]
    | succ i =>
      -- Past the first statement, the search goes on with what is left of the distance.
      have hsub : y.count + startOf ys i + j - y.count = startOf ys i + j := by omega
      rw [startOf_cons_succ, locate, if_neg (by omega), hsub, ih hx]

/-- Every record belongs to a statement, or stands behind all of them. -/
theorem locate_cases (xs : List Node) (n : Nat) :
    (∃ i x j, xs[i]? = some x ∧ j < x.count ∧ n = startOf xs i + j) ∨
      countAll xs ≤ n ∧ locate xs n = (xs.length, n - countAll xs) := by
  induction xs generalizing n with
  | nil => exact .inr ⟨Nat.zero_le n, rfl⟩
  | cons y ys ih =>
    -- The record lies in the first statement, in a later one, or behind them all.
    rcases Nat.lt_or_ge n y.count with hn | hn
    · exact .inl ⟨0, y, n, rfl, hn, by simp⟩
    · rcases ih (n - y.count) with ⟨i, x, j, hx, hj, heq⟩ | ⟨hle, hloc⟩
      · refine .inl ⟨i + 1, x, j, hx, hj, ?_⟩
        rw [startOf_cons_succ]
        omega
      · refine .inr ⟨by rw [countAll]; omega, ?_⟩
        rw [locate, if_neg (Nat.not_lt.mpr hn), hloc, countAll, Nat.sub_sub, List.length_cons]

end Node

/-! ### Reordering -/

/-- Statements are put into another order. Only definitions of methods pass other statements, and
the last statement stays the last. -/
structure Reorders (σ : Equiv.Perm Nat) (xs ys : List Node) : Prop where
  moves : ∀ i, ys[σ i]? = xs[i]?
  keeps : ∀ i k x y, i < k → xs[i]? = some x → xs[k]? = some y → x.isMethodDef = false →
    y.isMethodDef = false → σ i < σ k
  last : σ (xs.length - 1) = ys.length - 1

/-- Where a record stands when the statements are put into another order. -/
def Node.relocate (σ : Equiv.Perm Nat) (xs ys : List Node) (n : Nat) : Nat :=
  startOf ys (σ (locate xs n).1) + (locate xs n).2

/-- The records of a statement follow one another where it goes. -/
theorem Node.shifts_relocate {σ : Equiv.Perm Nat} {xs ys : List Node} {x : Node} {i : Nat}
    (hx : xs[i]? = some x) :
    Shifts (Node.relocate σ xs ys) (Node.startOf xs i) x.count (Node.startOf ys (σ i)) := by
  intro j hj
  rw [Node.relocate, Node.locate_eq hx hj]

namespace Reorders

variable {σ : Equiv.Perm Nat} {xs ys : List Node} {x : Node} {i j : Nat}

theorem symm (h : Reorders σ xs ys) : Reorders σ.symm ys xs := by
  have hget : ∀ i, xs[σ.symm i]? = ys[i]? := fun i => by
    rw [← h.moves, Equiv.apply_symm_apply]
  refine ⟨hget, fun i k x y hik hx hy hdef hdef' => ?_, ?_⟩
  · rw [← hget] at hx hy
    -- If they had changed places, they would change back.
    rcases Nat.lt_trichotomy (σ.symm i) (σ.symm k) with hlt | heq | hlt
    · exact hlt
    · exact absurd (σ.symm.injective heq) (Nat.ne_of_lt hik)
    · have hback := h.keeps _ _ _ _ hlt hy hx hdef' hdef
      rw [Equiv.apply_symm_apply, Equiv.apply_symm_apply] at hback
      omega
  · rw [← h.last, Equiv.symm_apply_apply]

variable (h : Reorders σ xs ys)

include h

/-- Moving a record and moving it back leaves it in its place. -/
theorem relocate_relocate (n : Nat) :
    Node.relocate σ.symm ys xs (Node.relocate σ xs ys n) = n := by
  rcases Node.locate_cases xs n with ⟨i, x, j, hx, hj, rfl⟩ | ⟨hle, hloc⟩
  · have hy : ys[σ i]? = some x := (h.moves i).trans hx
    rw [Node.shifts_relocate hx j hj, Node.shifts_relocate hy j hj, Equiv.symm_apply_apply]
  -- Behind the last statement the other order has come to its end, too.
  · have beyond : ∀ {xs ys : List Node} {σ : Equiv.Perm Nat}, Reorders σ xs ys →
        Node.startOf ys (σ xs.length) = Node.countAll ys := by
      intro xs ys σ h
      refine Node.startOf_of_length_le (List.getElem?_eq_none_iff.mp ?_)
      rw [h.moves, List.getElem?_eq_none (Nat.le_refl _)]
    rw [Node.relocate.eq_def σ, hloc, beyond h]
    rcases Node.locate_cases ys (Node.countAll ys + (n - Node.countAll xs)) with
      ⟨i, y, j, hy, hj, heq⟩ | ⟨-, hloc'⟩
    · have hlt := Node.startOf_add_count_le hy (k := ys.length)
        (List.getElem?_eq_some_iff.mp hy).1
      rw [Node.startOf_of_length_le (Nat.le_refl _)] at hlt
      omega
    · rw [Node.relocate, hloc', beyond h.symm]
      omega

/-- The records go with their statements. -/
def relocation : Equiv.Perm Nat where
  toFun := Node.relocate σ xs ys
  invFun := Node.relocate σ.symm ys xs
  left_inv := h.relocate_relocate
  right_inv := h.symm.relocate_relocate

theorem shifts (hx : xs[i]? = some x) :
    Shifts h.relocation (Node.startOf xs i) x.count (Node.startOf ys (σ i)) :=
  Node.shifts_relocate hx

end Reorders

/-! ### Declarations in another order -/

namespace Direct

/-- A method at another record. -/
def Definition.renumber (π : Nat → Nat) (d : Definition) : Definition :=
  { d with record := π d.record }

/-- A declaration under other numbers. -/
def Declaration.renumber (π : Nat → Nat) : Declaration → Declaration
  | .method d => .method (d.renumber π)
  | .cls name => .cls name

/-- A body has the records of its statements, and perhaps one more. -/
theorem count_le_countBody (x : Node) : x.count ≤ Node.countBody (some x) := by
  cases x with
  | block pos statements =>
    cases statements with
    | nil => exact Nat.zero_le 1
    | cons x xs => exact Nat.le_add_right _ _
  | _ => exact Nat.le_add_right _ _

variable {π : Nat → Nat}

mutual

/-- **What a piece of syntax declares elsewhere** is the same, at other records. -/
theorem declarations_shifts {inside : Option String} : ∀ {x : Node} {n m : Nat},
    Shifts π n x.count m → declarations inside m x =
      (declarations inside n x).map (Declaration.renumber π)
  -- The recursion follows the tree: each part starts where the parts before it end, on both sides.
  | .block _ statements, _, _, h => declarationsAll_shifts h
  | .call _ receiver _ args, n, m, h => by
    rw [Node.count] at h
    rw [declarations, declarations, List.map_append, declarationsAll_shifts h.left.right,
      declarationsIn_shifts h.left.left (by rintro x rfl; exact Nat.le_refl _)]
  | .methodDef _ name params body, n, m, h => by
    rw [Node.count] at h
    have hbody := h.left.right
    rw [← Nat.add_assoc, ← Nat.add_assoc] at hbody
    rw [declarations, declarations, List.map_cons,
      declarationsIn_shifts hbody (by rintro x rfl; exact count_le_countBody x)]
    simp only [Declaration.renumber, Definition.renumber, h.head (Nat.succ_pos _)]
  | .classDef _ name body, n, m, h => by
    rw [Node.count] at h
    rw [declarations, declarations, List.map_cons, declarations_shifts h.left.right]
    rfl
  | .conditional _ condition thenBody elseBody, n, m, h => by
    rw [Node.count] at h
    have hthen := h.left.left.left.right
    have helse := h.left.right
    simp only [← Nat.add_assoc] at hthen helse
    rw [declarations, declarations, List.map_append, List.map_append,
      declarations_shifts h.left.left.left.left.left,
      declarationsIn_shifts hthen (by rintro x rfl; exact count_le_countBody x),
      declarationsIn_shifts helse (by rintro x rfl; exact count_le_countBody x)]
  | .assign _ _ value, n, m, h => by
    rw [Node.count] at h
    rw [declarations, declarations, declarations_shifts h.left]
  | .argument _, _, _, _ | .localRead _ _, _, _, _ | .integer _ _, _, _, _ | .text _ _, _, _, _
  | .nil _, _, _, _ | .constant _ _, _, _, _ | .unsupported _ _ _, _, _, _ | .foreign _, _, _, _ =>
    rfl

/-- Statements declare the same methods wherever they start, up to the place of the records. -/
theorem declarationsAll_shifts {inside : Option String} : ∀ {xs : List Node} {n m : Nat},
    Shifts π n (Node.countAll xs) m → declarationsAll inside m xs =
      (declarationsAll inside n xs).map (Declaration.renumber π)
  | [], _, _, _ => rfl
  | x :: xs, _, _, h => by
    rw [Node.countAll] at h
    rw [declarationsAll, declarationsAll, List.map_append, declarations_shifts h.left,
      declarationsAll_shifts h.right]

theorem declarationsIn_shifts {inside : Option String} : ∀ {x? : Option Node} {n m c : Nat},
    Shifts π n c m → (∀ x, x? = some x → x.count ≤ c) → declarationsIn inside m x? =
      (declarationsIn inside n x?).map (Declaration.renumber π)
  | none, _, _, _, _, _ => rfl
  | some x, _, _, _, h, hc => declarations_shifts (h.mono (hc x rfl))

end

/-- What a list declares one of its statements declares. -/
theorem mem_declarationsAll {declaration : Declaration} {inside : Option String} :
    ∀ {xs : List Node} {n : Nat}, declaration ∈ declarationsAll inside n xs ↔
      ∃ i x, xs[i]? = some x ∧ declaration ∈ declarations inside (n + Node.startOf xs i) x := by
  intro xs
  induction xs with
  | nil => intro n; simp [declarationsAll]
  | cons x xs ih =>
    intro n
    rw [declarationsAll, List.mem_append, ih]
    constructor
    -- The statement that declares is the first, or one of the rest.
    · rintro (h | ⟨i, y, hy, h⟩)
      · exact ⟨0, x, rfl, h⟩
      · exact ⟨i + 1, y, hy, by rwa [Node.startOf_cons_succ, ← Nat.add_assoc]⟩
    · rintro ⟨i, y, hy, h⟩
      cases i with
      | zero =>
        obtain rfl := Option.some.inj hy
        exact .inl h
      | succ i => exact .inr ⟨i, y, hy, by rwa [Node.startOf_cons_succ, ← Nat.add_assoc] at h⟩

/-- A declared method stands in a statement of its own program. -/
theorem mem_declared {declaration : Declaration} {xs : List Node} : declaration ∈ declared xs ↔
    ∃ i x, xs[i]? = some x ∧ declaration ∈ declarations none (Node.startOf xs i) x := by
  rw [declared, mem_declarationsAll]
  simp only [Nat.zero_add]

/-! ### Methods that are defined once -/

/-- The name of a method, with the class that it belongs to. -/
def Declaration.key? : Declaration → Option (Option String × String)
  | .method d => some (d.owner, d.name)
  | .cls _ => none

/-- No method is defined twice outside of classes, or twice in one class. -/
def NamesOnce (ds : List Declaration) : Prop := (ds.filterMap Declaration.key?).Nodup

/-- Methods are told apart by their names and classes. -/
def Distinct (ds : List Declaration) : Prop :=
  ∀ d d', .method d ∈ ds → .method d' ∈ ds → d.owner = d'.owner → d.name = d'.name → d = d'

/-- When each name is declared once, two definitions of a name are one. -/
theorem NamesOnce.distinct {ds : List Declaration} (h : NamesOnce ds) : Distinct ds := by
  induction ds with
  | nil => exact fun _ _ hd => absurd hd List.not_mem_nil
  | cons declaration ds ih =>
    have hrest : NamesOnce ds := h.sublist ((List.sublist_cons_self _ _).filterMap _)
    -- A later method of the same name would have the same key.
    have fresh : ∀ d d', declaration = .method d → .method d' ∈ ds → d.owner = d'.owner →
        d.name ≠ d'.name := by
      rintro d d' rfl hd' howner hname
      have hnot := (List.nodup_cons.mp h).1
      exact hnot (List.mem_filterMap.mpr ⟨.method d', hd', by rw [Declaration.key?, howner, hname]⟩)
    intro d d' hd hd' howner hname
    rcases List.mem_cons.mp hd with hd | hd <;> rcases List.mem_cons.mp hd' with hd' | hd'
    · exact Declaration.method.inj (hd.trans hd'.symm)
    · exact absurd hname (fresh d d' hd.symm hd' howner)
    · exact absurd hname.symm (fresh d' d hd'.symm hd howner.symm)
    · exact ih hrest d d' hd hd' howner hname

/-- Among distinct methods a look-up finds the one of the name. -/
theorem Distinct.find?_eq_some_iff {ds : List Declaration} (h : Distinct ds) {owner : Option String}
    {name : String} {d : Definition} :
    find? ds owner name = some d ↔ .method d ∈ ds ∧ d.owner = owner ∧ d.name = name := by
  constructor
  · intro hfind
    obtain ⟨earlier, later, rfl, howner, hname, -⟩ := Direct.find?_eq_some_iff.mp hfind
    exact ⟨List.mem_append_right _ (.head _), howner, hname⟩
  · rintro ⟨hd, howner, hname⟩
    cases hfind : find? ds owner name with
    | none => exact absurd ⟨howner, hname⟩ (find?_eq_none_iff.mp hfind d hd)
    | some d' =>
      obtain ⟨earlier, later, rfl, howner', hname', -⟩ := Direct.find?_eq_some_iff.mp hfind
      -- What is found has the name, so it is the method of the name.
      rw [h d d' hd (List.mem_append_right _ (.head _)) (howner.trans howner'.symm)
        (hname.trans hname'.symm)]

end Direct

namespace Reorders

variable {σ : Equiv.Perm Nat} {xs ys : List Node} (h : Reorders σ xs ys)

include h

@[simp] theorem relocation_symm : h.symm.relocation = h.relocation.symm := rfl

/-- A declaration goes with its statement. -/
theorem mem_declared {declaration : Declaration} (hd : declaration ∈ declared xs) :
    declaration.renumber h.relocation ∈ declared ys := by
  obtain ⟨i, x, hx, hd⟩ := Direct.mem_declared.mp hd
  refine Direct.mem_declared.mpr ⟨σ i, x, (h.moves i).trans hx, ?_⟩
  rw [declarations_shifts (h.shifts hx)]
  exact List.mem_map_of_mem hd

theorem distinct (hd : Distinct (declared xs)) : Distinct (declared ys) := by
  intro d d' hmem hmem' howner hname
  have heq := hd (d.renumber h.relocation.symm) (d'.renumber h.relocation.symm)
    (h.symm.mem_declared hmem) (h.symm.mem_declared hmem') howner hname
  obtain ⟨record, owner, name, params, body⟩ := d
  obtain ⟨record', owner', name', params', body'⟩ := d'
  simpa [Definition.renumber] using heq

/-- **A name means the same method in both orders**, at the record where it goes. -/
theorem find?_eq (hd : Distinct (declared xs)) (owner : Option String) (name : String) :
    find? (declared ys) owner name =
      (find? (declared xs) owner name).map (Definition.renumber h.relocation) := by
  refine Option.ext fun d => ?_
  -- With each name declared once the search does not depend on the order.
  rw [(h.distinct hd).find?_eq_some_iff, Option.map_eq_some_iff]
  constructor
  · rintro ⟨hmem, howner, hname⟩
    refine ⟨d.renumber h.relocation.symm,
      hd.find?_eq_some_iff.mpr ⟨h.symm.mem_declared hmem, howner, hname⟩, ?_⟩
    simp [Definition.renumber]
  · rintro ⟨d, hfind, rfl⟩
    obtain ⟨hmem, howner, hname⟩ := hd.find?_eq_some_iff.mp hfind
    exact ⟨h.mem_declared hmem, howner, hname⟩

/-- The same classes are declared. -/
theorem hasClass_eq (name : String) :
    hasClass (declared ys) name = hasClass (declared xs) name := by
  -- Both directions are one argument, since the order can be reversed.
  have goes : ∀ {xs ys : List Node} {σ : Equiv.Perm Nat}, Reorders σ xs ys →
      hasClass (declared xs) name → hasClass (declared ys) name := by
    intro xs ys σ h hc
    obtain ⟨declaration, hmem, hname⟩ := List.any_eq_true.mp hc
    refine List.any_eq_true.mpr ⟨_, h.mem_declared hmem, ?_⟩
    cases declaration with
    | method d => exact hname
    | cls c => exact hname
  exact Bool.eq_iff_iff.mpr ⟨goes h.symm, goes h⟩

end Reorders

end Rubylet
