/-!
# Finite tables keyed by text

A table has at most one value a key. `get?` is the view of a table: each operation is described by
what it does to `get?` and to the keys.
-/

namespace StateEngine

universe u

/-- A finite table. The newest entry stands first; no key stands twice. -/
structure Table (α : Type u) where
  entries : List (String × α)
  distinct : (entries.map Prod.fst).Nodup

namespace Table

variable {α : Type u}

def empty : Table α := ⟨[], by simp⟩

def keys (t : Table α) : List String := t.entries.map Prod.fst

def size (t : Table α) : Nat := t.entries.length

def get? (t : Table α) (key : String) : Option α := t.entries.lookup key

def contains (t : Table α) (key : String) : Bool := (t.get? key).isSome

def erase (t : Table α) (key : String) : Table α where
  entries := t.entries.filter fun e => e.1 ≠ key
  distinct := t.distinct.sublist (List.filter_sublist.map Prod.fst)

def insert (t : Table α) (key : String) (a : α) : Table α where
  entries := (key, a) :: (t.erase key).entries
  distinct := by
    rw [List.map_cons, List.nodup_cons]
    exact ⟨by simp [erase], (t.erase key).distinct⟩

/-- Changes the value at `key`, if there is one, and leaves the keys alone. -/
def modify (t : Table α) (key : String) (f : α → α) : Table α where
  entries := t.entries.map fun e => (e.1, if e.1 = key then f e.2 else e.2)
  distinct := by
    rw [List.map_map]
    exact t.distinct

/-- The keys in code point order. -/
def sortedKeys (t : Table α) : List String := t.keys.mergeSort fun a b => !decide (b < a)

def sorted (t : Table α) : List (String × α) :=
  t.entries.mergeSort fun a b => !decide (b.1 < a.1)

@[simp] theorem get?_empty (key : String) : (empty : Table α).get? key = none := rfl

theorem lookup_cons_self (key : String) (a : α) (rest : List (String × α)) :
    ((key, a) :: rest).lookup key = some a := by
  simp

theorem lookup_cons_of_ne {key other : String} (h : other ≠ key) (a : α)
    (rest : List (String × α)) : ((key, a) :: rest).lookup other = rest.lookup other := by
  rw [List.lookup_cons, beq_eq_false_iff_ne.mpr h]

theorem lookup_filter_ne (entries : List (String × α)) (key other : String) :
    (entries.filter fun e => e.1 ≠ key).lookup other =
      if other = key then none else entries.lookup other := by
  induction entries with
  | nil => simp
  | cons e rest ih =>
    obtain ⟨k, a⟩ := e
    by_cases hk : k = key
    · rw [List.filter_cons_of_neg (by simp [hk]), ih]
      split
      · rfl
      · rw [lookup_cons_of_ne (by simpa [hk])]
    · rw [List.filter_cons_of_pos (by simp [hk])]
      by_cases ho : other = k
      · rw [ho, lookup_cons_self, if_neg hk, lookup_cons_self]
      · rw [lookup_cons_of_ne ho, ih, lookup_cons_of_ne ho]

theorem get?_erase (t : Table α) (key other : String) :
    (t.erase key).get? other = if other = key then none else t.get? other :=
  lookup_filter_ne t.entries key other

theorem get?_insert (t : Table α) (key other : String) (a : α) :
    (t.insert key a).get? other = if other = key then some a else t.get? other := by
  by_cases ho : other = key
  · rw [ho, if_pos rfl]
    exact lookup_cons_self key a _
  · rw [get?, insert, lookup_cons_of_ne ho, if_neg ho]
    exact (t.get?_erase key other).trans (if_neg ho)

theorem get?_modify (t : Table α) (key other : String) (f : α → α) :
    (t.modify key f).get? other =
      if other = key then (t.get? other).map f else t.get? other := by
  obtain ⟨entries, distinct⟩ := t
  simp only [get?, modify]
  clear distinct
  induction entries with
  | nil => simp
  | cons e rest ih =>
    obtain ⟨k, a⟩ := e
    by_cases ho : other = k
    · subst ho
      by_cases hk : other = key <;> simp [hk]
    · rw [List.map_cons, lookup_cons_of_ne ho, lookup_cons_of_ne ho, ih]

@[simp] theorem keys_modify (t : Table α) (key : String) (f : α → α) :
    (t.modify key f).keys = t.keys := by
  simp [keys, modify]

end Table

end StateEngine
