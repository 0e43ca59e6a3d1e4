import StateEngine.History
import StateEngine.Json.Reader
import StateEngine.Text.Digits
import StateEngine.Timestamp.Text

/-!
# Histories as JSON

Records and histories as JSON. Writing puts the fields in a fixed order. Reading takes an object
with every field once, in any order and with other fields among them, or an array with exactly the
fields in order.
-/

namespace StateEngine

namespace Json

def only? (name : String) (fields : List (Option String × Json)) : Option Json :=
  match fields.filter fun f => f.1 = some name with
  | [f] => some f.2
  | _ => none

/-- The values of the named fields, in the order of the names. -/
def parts? (names : List String) : Json → Option (List Json)
  | .object fields =>
    if fields.all fun f => f.1.isSome then names.mapM (only? · fields) else none
  | .array items => if items.length = names.length then some items else none
  | _ => none

def text? : Json → Option String
  | .string content => content
  | _ => none

/-- A whole number of 64 bits without sign. -/
def count? : Json → Option Nat
  | .number literal => Text.count? literal
  | _ => none

end Json

namespace Record

def fieldNames : List String := ["from", "to", "step", "timestamp"]

def toJsonWith (stamp : Timestamp → String) (r : Record) : Json :=
  .ofFields [("from", .text r.source), ("to", .text r.target), ("step", .ofNat r.step),
    ("timestamp", .text (stamp r.time))]

def toJson (r : Record) : Json := r.toJsonWith Timestamp.toText

def ofJson? (j : Json) : Option Record := do
  match ← j.parts? fieldNames with
  | [source, target, step, time] =>
    some {
      source := ← source.text?
      target := ← target.text?
      step := ← step.count?
      time := ← Timestamp.ofText? (← time.text?) }
  | _ => none

end Record

namespace History

def fieldNames : List String := ["records", "limit", "dropped"]

def recordsJsonWith (stamp : Timestamp → String) (h : History) : Json :=
  .array (h.records.map (Record.toJsonWith stamp))

def recordsJson (h : History) : Json := h.recordsJsonWith Timestamp.toText

def toJson (h : History) : Json :=
  .ofFields [("records", h.recordsJson), ("limit", .ofNat h.limit), ("dropped", .ofNat h.dropped)]

def recordsOfJson? : Json → Option (List Record)
  | .array items => items.mapM Record.ofJson?
  | _ => none

/-- The history is taken as it stands, even with more records than its limit. -/
def ofJson? (j : Json) : Option History := do
  match ← j.parts? fieldNames with
  | [records, limit, dropped] =>
    some {
      records := ← recordsOfJson? records
      limit := ← limit.count?
      dropped := ← dropped.count? }
  | _ => none

def ofText? (s : String) : Option History := Json.parse? s >>= ofJson?

def toText (h : History) : String := h.toJson.renderText

end History

end StateEngine
