import Mathlib.Algebra.BigOperators.Fin
import Mathlib.Algebra.BigOperators.Intervals
import Rubylet.Proofs.Typing.Relation

/-!
# The search for class names

`Graph.className` answers the one class that a record may stand for, and is content with the names
that a search finds. It finds all of them (`mem_classNames`): every record that is taken from the
worklist is seen from then on, its successors are put on the worklist at once, and there are enough
steps to follow every edge once. It finds nothing else (`exists_of_mem_classNames`), so the class that
is answered is the one class that is named by what the record stands for (`className_eq_ok_iff`).
-/

namespace Rubylet.Graph

variable {g : Graph} {targets : Table Nat Target}

/-- The records that an unnamed record leads to. -/
def successors (g : Graph) (targets : Table Nat Target) (n : Nat) : List Nat :=
  (g.record n).dependencies.flatMap (leadsTo targets)

/-- The search has been at a record, or will come to it. -/
def Met (g : Graph) (work seen : List Nat) (names : List String) (n : Nat) : Prop :=
  n ∈ work ∨ n ∈ seen ∨ ∃ name ∈ names, g.classNamed? n = some name

/-- The edges that the search has yet to follow. -/
def edgesLeft (g : Graph) (seen : List Nat) : Nat :=
  ∑ n ∈ Finset.range g.records.size, if n ∈ seen then 0 else (g.record n).dependencies.length

theorem edgesLeft_cons {n : Nat} {seen : List Nat} (hn : n ∉ seen) :
    g.edgesLeft (n :: seen) + (g.record n).dependencies.length = g.edgesLeft seen := by
  unfold edgesLeft
  by_cases hsize : n < g.records.size
  · have hmem : n ∈ Finset.range g.records.size := Finset.mem_range.mpr hsize
    rw [← Finset.add_sum_erase _ _ hmem, ← Finset.add_sum_erase _ _ hmem, if_pos (.head _),
      if_neg hn, Nat.zero_add, Nat.add_comm]
    congr 1
    refine Finset.sum_congr rfl fun k hk => ?_
    simp [Finset.ne_of_mem_erase hk]
  -- A number that no record has leads nowhere, and is not counted.
  · have hnone : (g.record n).dependencies = [] := by
      simp [record, Array.getD_eq_getD_getElem?, Array.getElem?_eq_none (Nat.le_of_not_lt hsize)]
      rfl
    rw [hnone, List.length_nil, Nat.add_zero]
    refine Finset.sum_congr rfl fun k hk => ?_
    have hne : k ≠ n := fun h => hsize (h ▸ Finset.mem_range.mp hk)
    simp [hne]

/-- A record has at most one successor for each dependency. -/
theorem length_successors_le (n : Nat) :
    (g.successors targets n).length ≤ (g.record n).dependencies.length := by
  unfold successors
  -- A dependency leads to one record, or to none.
  have hle : ∀ d, (leadsTo targets d).length ≤ 1 := by
    intro d
    unfold leadsTo
    split
    · exact Nat.le_refl 1
    · exact Nat.zero_le 1
    · split <;> simp
  induction (g.record n).dependencies with
  | nil => exact Nat.le_refl 0
  | cons d ds ih =>
    rw [List.flatMap_cons, List.length_append, List.length_cons]
    have := hle d
    omega

/-- The bound of the search is above the number of edges. -/
theorem edgeSteps_eq : g.edgeSteps = g.edgesLeft [] + 2 := by
  -- The fold adds up the lengths of the dependency lists.
  have hfold : ∀ (rs : List Record) (k : Nat),
      rs.foldl (fun total r => total + r.dependencies.length) k =
        (rs.map fun r => r.dependencies.length).sum + k := by
    intro rs
    induction rs with
    | nil => intro k; simp
    | cons r rs ih => intro k; rw [List.foldl_cons, ih, List.map_cons, List.sum_cons]; omega
  rw [edgeSteps, hfold, edgesLeft, Finset.sum_range, ← Fin.sum_univ_fun_getElem, ← Array.length_toList]
  congr 1
  refine Finset.sum_congr rfl fun k _ => ?_
  simp [record, Array.getD_eq_getD_getElem?]

/-! ### What a step of the search keeps -/

section Met

variable {n m : Nat} {work seen : List Nat} {names : List String} {name : String}

/-- A named record is done with: its name is noted. -/
theorem Met.named (h : g.Met (n :: work) seen names m) (hc : g.classNamed? n = some name) :
    g.Met work seen (if names.contains name then names else name :: names) m := by
  -- The name is kept, whether it was there before or not.
  have hnew : name ∈ if names.contains name then names else name :: names := by
    split
    · next h => simpa using h
    · exact .head _
  have hkept : ∀ c ∈ names, c ∈ if names.contains name then names else name :: names := by
    intro c hmem
    split
    · exact hmem
    · exact .tail _ hmem
  rcases h with hm | hm | ⟨c, hmem, hm⟩
  · rcases List.mem_cons.mp hm with rfl | hm
    · exact .inr (.inr ⟨name, hnew, hc⟩)
    · exact .inl hm
  · exact .inr (.inl hm)
  · exact .inr (.inr ⟨c, hkept c hmem, hm⟩)

/-- A record that was seen before is done with. -/
theorem Met.again (h : g.Met (n :: work) seen names m) (hn : n ∈ seen) :
    g.Met work seen names m := by
  rcases h with hm | hm
  · rcases List.mem_cons.mp hm with rfl | hm
    · exact .inr (.inl hn)
    · exact .inl hm
  · exact .inr hm

/-- A record that is seen for the first time gives way to other records. -/
theorem Met.replaced (h : g.Met (n :: work) seen names m) (others : List Nat) :
    g.Met (others ++ work) (n :: seen) names m := by
  rcases h with hm | hm | hm
  · rcases List.mem_cons.mp hm with rfl | hm
    · exact .inr (.inl (.head _))
    · exact .inl (List.mem_append_right _ hm)
  · exact .inr (.inl (.tail _ hm))
  · exact .inr (.inr hm)

end Met

/-- **A search with enough steps leaves nothing out**: where it ends, all that it has met is seen or
named, and so is all that is met from there. -/
theorem collectClasses_closed : ∀ (steps : Nat) (work seen : List Nat) (names : List String),
    work.length + g.edgesLeft seen < steps →
    (∀ n ∈ seen, g.classNamed? n = none ∧ ∀ m ∈ g.successors targets n, g.Met work seen names m) →
    ∃ seen', (∀ n, g.Met work seen names n →
        g.Met [] seen' (g.collectClasses targets steps work seen names) n) ∧
      ∀ n ∈ seen', g.classNamed? n = none ∧ ∀ m ∈ g.successors targets n,
        g.Met [] seen' (g.collectClasses targets steps work seen names) m := by
  intro steps
  induction steps with
  | zero => exact fun work seen names h _ => absurd h (Nat.not_lt_zero _)
  | succ steps ih =>
    intro work seen names hsteps hseen
    cases work with
    | nil => exact ⟨seen, fun n h => h, hseen⟩
    | cons n work =>
      rw [List.length_cons] at hsteps
      rw [collectClasses]
      cases hc : g.classNamed? n with
      | some name =>
        obtain ⟨seen', hkeep, hclosed⟩ := ih work seen _ (by omega)
          fun m hm => ⟨(hseen m hm).1, fun k hk => ((hseen m hm).2 k hk).named hc⟩
        exact ⟨seen', fun m hm => hkeep m (hm.named hc), hclosed⟩
      | none =>
        dsimp only
        split
        · next hold =>
          have hn : n ∈ seen := by simpa using hold
          obtain ⟨seen', hkeep, hclosed⟩ := ih work seen names (by omega)
            fun m hm => ⟨(hseen m hm).1, fun k hk => ((hseen m hm).2 k hk).again hn⟩
          exact ⟨seen', fun m hm => hkeep m (hm.again hn), hclosed⟩
        · next hold =>
          -- The record costs as many steps as it has edges, and puts no more on the worklist.
          have hedges := edgesLeft_cons (g := g) (show n ∉ seen by simpa using hold)
          have hlen : (g.successors targets n).length ≤ (g.record n).dependencies.length :=
            length_successors_le n
          have hnext : ∀ m ∈ n :: seen, g.classNamed? m = none ∧ ∀ k ∈ g.successors targets m,
              g.Met (g.successors targets n ++ work) (n :: seen) names k := by
            intro m hm
            rcases List.mem_cons.mp hm with rfl | hm
            · exact ⟨hc, fun k hk => .inl (List.mem_append_left _ hk)⟩
            · exact ⟨(hseen m hm).1, fun k hk => ((hseen m hm).2 k hk).replaced _⟩
          obtain ⟨seen', hkeep, hclosed⟩ := ih (g.successors targets n ++ work) (n :: seen) names
            (by rw [List.length_append]; omega) hnext
          exact ⟨seen', fun m hm => hkeep m (hm.replaced _), hclosed⟩

/-- **The search finds every class name** that a record may stand for. -/
theorem mem_classNames {start n : Nat} {name : String} (h : g.Stands targets start n)
    (hname : g.classNamed? n = some name) : name ∈ g.classNames targets start := by
  obtain ⟨seen, hmet, hclosed⟩ := @collectClasses_closed g targets g.edgeSteps
    [start] [] [] (by rw [edgeSteps_eq, List.length_singleton]; omega) nofun
  -- Every record the search stands on has been met, since what is met is closed under following.
  have hall : ∀ m, g.Stands targets start m →
      g.Met [] seen (g.collectClasses targets g.edgeSteps [start] [] []) m := by
    intro m hm
    induction hm with
    | start => exact hmet start (.inl (.head _))
    | @follow k m d _ hk hd hm ih =>
      rcases ih with hnil | hmem | ⟨c, -, hc⟩
      · cases hnil
      · exact (hclosed k hmem).2 m (List.mem_flatMap.mpr ⟨d, hd, hm⟩)
      · rw [hk] at hc
        cases hc
  rw [classNames, List.mem_mergeSort]
  -- A record with a name is met by its name only.
  rcases hall n h with hnil | hmem | ⟨c, hc, hcn⟩
  · cases hnil
  · have := (hclosed n hmem).1
    rw [hname] at this
    cases this
  · obtain rfl := Option.some.inj (hname.symm.trans hcn)
    exact hc

/-- The search collects nothing else, and no name twice. -/
theorem collectClasses_sound {start : Nat} : ∀ (steps : Nat) (work seen : List Nat)
    (names : List String), (∀ n ∈ work, g.Stands targets start n) →
    (∀ c ∈ names, ∃ n, g.Stands targets start n ∧ g.classNamed? n = some c) → names.Nodup →
    (∀ c ∈ g.collectClasses targets steps work seen names,
      ∃ n, g.Stands targets start n ∧ g.classNamed? n = some c) ∧
    (g.collectClasses targets steps work seen names).Nodup := by
  intro steps
  induction steps with
  | zero => exact fun _ _ _ _ hnames hnodup => ⟨hnames, hnodup⟩
  | succ steps ih =>
    intro work seen names hwork hnames hnodup
    cases work with
    | nil => exact ⟨hnames, hnodup⟩
    | cons n work =>
      have hn : g.Stands targets start n := hwork n (.head _)
      have hrest : ∀ m ∈ work, g.Stands targets start m := fun m hm => hwork m (.tail _ hm)
      rw [collectClasses]
      -- A record with a name ends its branch of the search, and one without is followed.
      cases hc : g.classNamed? n with
      | some name =>
        dsimp only
        split
        · exact ih _ _ _ hrest hnames hnodup
        · next hnew =>
          refine ih _ _ _ hrest (List.forall_mem_cons.mpr ⟨⟨n, hn, hc⟩, hnames⟩) ?_
          exact List.nodup_cons.mpr ⟨by simpa using hnew, hnodup⟩
      | none =>
        dsimp only
        split
        · exact ih _ _ _ hrest hnames hnodup
        · refine ih _ _ _ (fun m hm => ?_) hnames hnodup
          rcases List.mem_append.mp hm with hm | hm
          · obtain ⟨d, hd, hm⟩ := List.mem_flatMap.mp hm
            exact .follow hn hc hd hm
          · exact hrest m hm

/-- **The search finds nothing else**: every name belongs to a record on the way. -/
theorem exists_of_mem_classNames {start : Nat} {c : String} (h : c ∈ g.classNames targets start) :
    ∃ n, g.Stands targets start n ∧ g.classNamed? n = some c := by
  rw [classNames, List.mem_mergeSort] at h
  exact (collectClasses_sound g.edgeSteps [start] [] [] (by simpa using Stands.start) (by simp)
    .nil).1 c h

/-- No class is named twice. -/
theorem nodup_classNames (g : Graph) (targets : Table Nat Target) (start : Nat) :
    (g.classNames targets start).Nodup :=
  (List.mergeSort_perm _ _).nodup_iff.mpr (collectClasses_sound g.edgeSteps [start] [] []
    (by simpa using Stands.start) (by simp) .nil).2

/-- A record stands for a class if that is the one class that is named on the search. -/
theorem className_eq_ok_iff {start : Nat} {c : String} : g.className targets start = .ok c ↔
    (∃ n, g.Stands targets start n ∧ g.classNamed? n = some c) ∧
      ∀ n other, g.Stands targets start n → g.classNamed? n = some other → other = c := by
  have honly : g.className targets start = .ok c ↔ g.classNames targets start = [c] := by
    unfold className
    split
    · next name h => simp [h]
    · next h => exact iff_of_false (by simp) (h c)
  rw [honly]
  constructor
  · intro h
    refine ⟨exists_of_mem_classNames (h ▸ .head _), fun n other hn hother => ?_⟩
    have := mem_classNames hn hother
    rw [h] at this
    exact List.mem_singleton.mp this
  · rintro ⟨⟨n, hn, hc⟩, hall⟩
    -- Neither list has a name twice, so they are the same if they have the same members.
    refine List.perm_singleton.mp ((List.perm_ext_iff_of_nodup (nodup_classNames g targets start)
      (List.nodup_singleton c)).mpr fun other => ?_)
    rw [List.mem_singleton]
    constructor
    · intro hother
      obtain ⟨m, hm, hname⟩ := exists_of_mem_classNames hother
      exact hall m other hm hname
    · rintro rfl
      exact mem_classNames hn hc

/-! ### Class names by the edges alone -/

/-- A record may stand for a class, by the edges of the graph and the targets of its calls. -/
inductive Yields (g : Graph) : Nat → String → Prop
  | named {n : Nat} {name : String} : g.classNamed? n = some name → Yields g n name
  | record {n m : Nat} {name : String} : g.classNamed? n = none →
      .record m ∈ (g.record n).dependencies → Yields g m name → Yields g n name
  | method {n m : Nat} {name : String} {site : CallSite} : g.classNamed? n = none →
      .send site ∈ (g.record n).dependencies → g.HasTarget site (.method m) → Yields g m name →
      Yields g n name

/-- What a record may stand for is met on the search from it. -/
theorem Yields.exists_stands {start : Nat} {name : String} (h : g.Yields start name)
    (hright : ∀ n other t, .send other ∈ (g.record n).dependencies →
      targets.get? other.call = some t → g.HasTarget other t)
    (hcov : g.Covers targets start) :
    ∃ m, g.Stands targets start m ∧ g.classNamed? m = some name := by
  have hall : ∀ n c, g.Yields n c → g.Stands targets start n →
      ∃ m, g.Stands targets start m ∧ g.classNamed? m = some c := by
    intro n c hn
    induction hn with
    | named hc => exact fun hs => ⟨_, hs, hc⟩
    | record hc hd _ ih => exact fun hs => ih (.follow hs hc hd (.head _))
    | @method n m name site hc hd ht _ ih =>
      intro hs
      obtain ⟨t, hget⟩ := Option.isSome_iff_exists.mp (hcov n hs hc site hd)
      -- The target that is written down is the one that the call has.
      obtain rfl := (hright n site t hd hget).unique ht
      exact ih (.follow hs hc hd (by rw [leadsTo, hget]; exact .head _))
  exact hall start name h .start

/-- **The class that `new` instantiates** is that of any value which reaches the record. -/
theorem Yields.eq_of_className {start : Nat} {name found : String} (h : g.Yields start name)
    (hright : ∀ n other t, .send other ∈ (g.record n).dependencies →
      targets.get? other.call = some t → g.HasTarget other t)
    (hcov : g.Covers targets start) (hfound : g.className targets start = .ok found) :
    name = found := by
  obtain ⟨m, hm, hname⟩ := h.exists_stands hright hcov
  exact (className_eq_ok_iff.mp hfound).2 m name hm hname

end Rubylet.Graph
