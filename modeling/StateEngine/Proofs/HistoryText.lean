import StateEngine.History.Json
import StateEngine.Proofs.Editing
import StateEngine.Proofs.JsonText
import StateEngine.Proofs.MomentText

/-!
# Histories read back from their text

The text of a history is read as that history, whatever its records hold and however many of them
there are. It need not be one that recording can lead to.
-/

namespace StateEngine

namespace Json

theorem count?_ofNat {n : Nat} (h : n < Nat.pow 2 64) : count? (.ofNat n) = some n :=
  Text.count?_toString h

theorem Plain.ofFields {fields : List (String × Json)} (h : ∀ f ∈ fields, f.2.Plain) :
    (Json.ofFields fields).Plain := by
  refine .object fun f hf => ?_
  obtain ⟨g, hg, rfl⟩ := List.mem_map.mp hf
  exact h g hg

end Json

namespace Record

theorem plain_toJson (r : Record) : r.toJson.Plain := by
  refine Json.Plain.ofFields fun f hf => ?_
  simp only [List.mem_cons, List.not_mem_nil, or_false] at hf
  rcases hf with rfl | rfl | rfl | rfl
  · exact .string _
  · exact .string _
  · exact .ofNat _
  · exact .string _

theorem ofJson?_toJson {r : Record} (h : r.step < Nat.pow 2 64) : ofJson? r.toJson = some r := by
  have hparts : r.toJson.parts? fieldNames =
      some [.text r.source, .text r.target, .ofNat r.step, .text r.time.toText] := rfl
  simp only [ofJson?, hparts, Option.bind_eq_bind, Option.bind_some, Json.text, Json.text?,
    Json.count?_ofNat h, Timestamp.ofText?_toText]

end Record

namespace History

/-- Holds when every number in the history is one of 64 bits. -/
structure IsCounted (h : History) : Prop where
  limit : h.limit < Nat.pow 2 64
  dropped : h.dropped < Nat.pow 2 64
  steps : ∀ r ∈ h.records, r.step < Nat.pow 2 64

theorem plain_recordsJson (h : History) : h.recordsJson.Plain := by
  refine .array fun j hj => ?_
  obtain ⟨r, -, rfl⟩ := List.mem_map.mp hj
  exact r.plain_toJson

theorem plain_toJson (h : History) : h.toJson.Plain := by
  refine Json.Plain.ofFields fun f hf => ?_
  simp only [List.mem_cons, List.not_mem_nil, or_false] at hf
  rcases hf with rfl | rfl | rfl
  · exact h.plain_recordsJson
  · exact .ofNat _
  · exact .ofNat _

theorem recordsOfJson?_recordsJson {h : History} (steps : ∀ r ∈ h.records, r.step < Nat.pow 2 64) :
    recordsOfJson? h.recordsJson = some h.records := by
  have hread : ∀ rs : List Record, (∀ r ∈ rs, r.step < Nat.pow 2 64) →
      (rs.map Record.toJson).mapM Record.ofJson? = some rs := by
    intro rs hrs
    induction rs with
    | nil => rfl
    | cons r rs ih =>
      obtain ⟨hr, hrest⟩ := List.forall_mem_cons.mp hrs
      rw [List.map_cons, List.mapM_cons, Record.ofJson?_toJson hr, ih hrest]
      rfl
  exact hread h.records steps

theorem ofJson?_toJson {h : History} (counted : h.IsCounted) : ofJson? h.toJson = some h := by
  have hparts : h.toJson.parts? fieldNames =
      some [h.recordsJson, .ofNat h.limit, .ofNat h.dropped] := rfl
  simp only [ofJson?, hparts, Option.bind_eq_bind, Option.bind_some,
    recordsOfJson?_recordsJson counted.steps, Json.count?_ofNat counted.limit,
    Json.count?_ofNat counted.dropped]

theorem ofText?_toText {h : History} (counted : h.IsCounted) : ofText? h.toText = some h := by
  rw [ofText?, toText, Json.parse?_renderText h.plain_toJson]
  exact ofJson?_toJson counted

end History

end StateEngine
