import StateEngine.Proofs.HistoryText

/-!
# The bound of a history

A history comes into being empty, or with whatever records and limit its text gives. The bound holds
of the ones that come empty. A text that gives more records than its limit makes a history that goes
on growing, and only clearing it brings it back.
-/

namespace StateEngine.History

/-- Where a history comes from. A copy has the origin and the edits of what it is copied from. -/
inductive Origin where
  | default
  | withLimit (limit : Nat)
  | read (text : String)
  deriving DecidableEq

/-- The history that is made first, if there is one. -/
def Origin.made? : Origin → Option History
  | .default => some (History.withLimit defaultLimit)
  | .withLimit limit => some (History.withLimit limit)
  | .read text => ofText? text

/-- Holds of a text that gives a history more records than its limit. -/
def Origin.IsOverfull (origin : Origin) : Prop :=
  ∃ text h, origin = .read text ∧ ofText? text = some h ∧ h.limit < h.records.length

theorem Origin.isOverfull_iff {origin : Origin} {h : History} (made : origin.made? = some h) :
    origin.IsOverfull ↔ h.limit < h.records.length := by
  cases origin with
  | default | withLimit =>
    cases made
    refine iff_of_false (fun ⟨_, _, horigin, _⟩ => ?_) (Nat.not_lt_zero _)
    cases horigin
  | read text =>
    have hread : ofText? text = some h := made
    constructor
    · rintro ⟨_, back, horigin, hback, hover⟩
      cases horigin
      obtain rfl := Option.some.inj (hread.symm.trans hback)
      exact hover
    · exact fun hover => ⟨text, h, rfl, hread, hover⟩

/-- The retained records are within the limit after a record unless the history was read from a text
that is over its limit and has not been cleared since. Such a history then has all the records that
it was read with and all that were added, with none counted as dropped, if it records at all. -/
theorem bound_holds_iff {origin : Origin} {h : History} (made : origin.made? = some h)
    (edits : List Edit) (r : Record) :
    (((h.editAll edits).record r).records.length ≤ ((h.editAll edits).record r).limit ↔
      ¬ origin.IsOverfull ∨ .clear ∈ edits) ∧
    (origin.IsOverfull → .clear ∉ edits → h.limit ≠ 0 →
      (h.editAll edits).record r =
        { h with records := h.records ++ (Edit.added edits ++ [r]) }) := by
  rw [origin.isOverfull_iff made]
  constructor
  · have hlimit := h.limit_editAll edits
    have hrecord := (h.editAll edits).length_record_le_iff r
    rw [limit_record, hrecord, hlimit, length_editAll_le_iff, Nat.not_lt]
  · intro hover hclear hl
    have hmore : h.limit < (h.records ++ Edit.added edits).length := by
      rw [List.length_append]
      omega
    rw [editAll_of_overfull hl hover hclear,
      record_of_overfull (h := { h with records := h.records ++ Edit.added edits }) hl hmore]
    simp only [List.append_assoc]

/-- Two records under the limit one. -/
def overfull : History where
  records := [⟨Key.uninitialized, Key.iterate, 0, .epoch⟩, ⟨Key.iterate, Key.pop, 1, .epoch⟩]
  limit := 1
  dropped := 0

theorem made?_read_overfull : (Origin.read overfull.toText).made? = some overfull := by
  refine ofText?_toText ⟨by simp [overfull], by simp [overfull], fun r hr => ?_⟩
  simp only [overfull, List.mem_cons, List.not_mem_nil, or_false] at hr
  rcases hr with rfl | rfl <;> decide

theorem bound_holds_iff_of_overfull :
    (Origin.read overfull.toText).made? = some overfull ∧
    ((overfull.editAll [.clear]).record ⟨Key.pop, Key.done, 2, .epoch⟩).records.length ≤ 1 ∧
    ¬ ((overfull.editAll []).record ⟨Key.pop, Key.done, 2, .epoch⟩).records.length ≤ 1 := by
  have made := made?_read_overfull
  have hover := (Origin.isOverfull_iff made).mpr (by decide)
  refine ⟨made, (bound_holds_iff made [.clear] _).1.mpr (.inr List.mem_cons_self), fun hle => ?_⟩
  rcases (bound_holds_iff made [] _).1.mp hle with hin | hclear
  · exact hin hover
  · exact absurd hclear List.not_mem_nil

/-- A text with two records and the limit one is read, and the next record is kept as the third. -/
theorem overfull_outgrows_limit :
    (Origin.read overfull.toText).made? = some overfull ∧
    (overfull.record ⟨Key.pop, Key.done, 2, .epoch⟩).limit = 1 ∧
    (overfull.record ⟨Key.pop, Key.done, 2, .epoch⟩).records.length = 3 ∧
    (overfull.record ⟨Key.pop, Key.done, 2, .epoch⟩).dropped = 0 :=
  ⟨made?_read_overfull, by decide, by decide, by decide⟩

end StateEngine.History
