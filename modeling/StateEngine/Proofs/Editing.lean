import StateEngine.Proofs.Recording

/-!
# Histories under edits

A history is edited by recording in it and by clearing it. Neither changes its limit, and recording
makes room for one record only. So a history that is within its limit stays there, and one that has
more records than its limit keeps them all until it is cleared.
-/

namespace StateEngine.History

/-- What can be done to a history. -/
inductive Edit where
  | record (r : Record)
  | clear
  deriving DecidableEq

def edit (h : History) : Edit → History
  | .record r => h.record r
  | .clear => h.clear

def editAll (h : History) (edits : List Edit) : History := edits.foldl edit h

def Edit.record? : Edit → Option Record
  | .record r => some r
  | .clear => none

/-- The records that edits add. -/
def Edit.added (edits : List Edit) : List Record := edits.filterMap Edit.record?

@[simp] theorem editAll_nil (h : History) : h.editAll [] = h := rfl

@[simp] theorem editAll_cons (h : History) (e : Edit) (edits : List Edit) :
    h.editAll (e :: edits) = (h.edit e).editAll edits := rfl

@[simp] theorem limit_edit (h : History) (e : Edit) : (h.edit e).limit = h.limit := by
  cases e with
  | record r => exact h.limit_record r
  | clear => rfl

@[simp] theorem limit_editAll (h : History) (edits : List Edit) :
    (h.editAll edits).limit = h.limit := by
  induction edits generalizing h with
  | nil => rfl
  | cons e edits ih => rw [editAll_cons, ih, limit_edit]

/-- Only a history that is exactly full makes room. -/
theorem record_of_overfull {h : History} (hl : h.limit ≠ 0) (hover : h.limit < h.records.length)
    (r : Record) : h.record r = { h with records := h.records ++ [r] } := by
  rw [record, if_neg hl, if_neg (by omega)]

/-- Recording takes no history over its limit, and brings none back under it. -/
theorem length_record_le_iff (h : History) (r : Record) :
    (h.record r).records.length ≤ h.limit ↔ h.records.length ≤ h.limit := by
  by_cases hl : h.limit = 0
  · rw [record_of_disabled hl]
  rcases Nat.lt_trichotomy h.records.length h.limit with hroom | hfull | hover
  · rw [record_of_room hroom]
    simp only [List.length_append, List.length_singleton]
    omega
  · rw [record_of_full hl hfull]
    simp only [List.length_append, List.length_drop, List.length_singleton]
    omega
  · rw [record_of_overfull hl hover]
    simp only [List.length_append, List.length_singleton]
    omega

/-- A history ends within its limit just if it started there or was cleared on the way. -/
theorem length_editAll_le_iff (h : History) (edits : List Edit) :
    (h.editAll edits).records.length ≤ h.limit ↔
      h.records.length ≤ h.limit ∨ .clear ∈ edits := by
  induction edits generalizing h with
  | nil => simp only [editAll_nil, List.not_mem_nil, or_false]
  | cons e edits ih =>
    have hrest := ih (h.edit e)
    rw [limit_edit] at hrest
    rw [editAll_cons, hrest, List.mem_cons]
    cases e with
    | record r =>
      rw [edit, length_record_le_iff]
      simp only [reduceCtorEq, false_or]
    | clear => simp [edit, clear]

/-- Over its limit a history is not bounded: it keeps every record and counts none as dropped. -/
theorem editAll_of_overfull {h : History} (hl : h.limit ≠ 0) (hover : h.limit < h.records.length)
    {edits : List Edit} (hclear : .clear ∉ edits) :
    h.editAll edits = { h with records := h.records ++ Edit.added edits } := by
  induction edits generalizing h with
  | nil =>
    rw [editAll_nil, Edit.added, List.filterMap_nil, List.append_nil]
  | cons e edits ih =>
    obtain ⟨hne, hrest⟩ := not_or.mp (mt List.mem_cons.mpr hclear)
    cases e with
    | clear => exact absurd rfl hne
    | record r =>
      have hmore : h.limit < (h.records ++ [r]).length := by
        rw [List.length_append]
        omega
      rw [editAll_cons, edit, record_of_overfull hl hover,
        ih (h := { h with records := h.records ++ [r] }) hl hmore hrest]
      simp only [Edit.added, List.filterMap_cons, Edit.record?, List.append_assoc,
        List.singleton_append]

end StateEngine.History
