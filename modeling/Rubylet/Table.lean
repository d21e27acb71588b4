/-!
# Tables in insertion order

A `Table` maps keys to values and remembers in which order its keys were first set: setting a
key again changes its value and keeps its place. Listings of methods, classes and call sites
are read in that order.

`get?_set` is the law of look-up after an update.
-/

namespace Rubylet

/-- A finite map whose keys keep the order in which they were first set. -/
structure Table (κ α : Type) where
  /-- The entries, oldest key first. -/
  entries : List (κ × α)
  deriving Repr

namespace Table

variable {κ α : Type} [DecidableEq κ]

/-- The table with no keys. -/
def empty : Table κ α := ⟨[]⟩

instance : Inhabited (Table κ α) := ⟨empty⟩

/-- The value of the first entry for `k`. -/
def find (k : κ) : List (κ × α) → Option α
  | [] => none
  | (k', v) :: rest => if k' = k then some v else find k rest

/-- Replaces the value of `k` in place, or appends a new entry. -/
def update (k : κ) (v : α) : List (κ × α) → List (κ × α)
  | [] => [(k, v)]
  | (k', v') :: rest => if k' = k then (k, v) :: rest else (k', v') :: update k v rest

/-- The value of a key. -/
def get? (t : Table κ α) (k : κ) : Option α := find k t.entries

/-- Sets the value of a key. -/
def set (t : Table κ α) (k : κ) (v : α) : Table κ α := ⟨update k v t.entries⟩

/-- Is the key set? -/
def contains (t : Table κ α) (k : κ) : Bool := (t.get? k).isSome

/-- The keys, oldest first. -/
def keys (t : Table κ α) : List κ := t.entries.map Prod.fst

/-- The number of keys. -/
def size (t : Table κ α) : Nat := t.entries.length

@[simp] theorem get?_empty (k : κ) : (empty : Table κ α).get? k = none := rfl

theorem find_update (k k' : κ) (v : α) (es : List (κ × α)) :
    find k' (update k v es) = if k = k' then some v else find k' es := by
  fun_induction update k v es <;> grind [find]

/-- Look-up after an update: the key that was set has the new value, others are untouched. -/
theorem get?_set (t : Table κ α) (k k' : κ) (v : α) :
    (t.set k v).get? k' = if k = k' then some v else t.get? k' :=
  find_update k k' v t.entries

@[simp] theorem get?_set_self (t : Table κ α) (k : κ) (v : α) : (t.set k v).get? k = some v := by
  simp [get?_set]

theorem mem_keys_of_get? {t : Table κ α} {k : κ} {v : α} (h : t.get? k = some v) : k ∈ t.keys := by
  obtain ⟨entries⟩ := t
  change find k entries = some v at h
  change k ∈ entries.map Prod.fst
  induction entries with
  | nil => cases h
  | cons entry rest ih =>
    obtain ⟨k', v'⟩ := entry
    rw [find] at h
    rw [List.map_cons, List.mem_cons]
    split at h
    · next heq => exact .inl heq.symm
    · exact .inr (ih h)

end Table

end Rubylet
