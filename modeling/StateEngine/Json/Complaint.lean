import StateEngine.Text.Digits

/-!
# What is wrong with a JSON text

A complaint says what is wrong and, if it knows, in which line and column. It can be read off the
sentence that makes it: the place then stands at the very end.
-/

namespace StateEngine.Json

/-- What is wrong with a JSON text, and the line and column where. -/
structure Complaint where
  text : String
  place : Option (Nat × Nat)
  deriving DecidableEq

namespace Complaint

def splitLast? (mark : List Char) : List Char → Option (List Char × List Char)
  | [] => none
  | c :: rest =>
    match splitLast? mark rest with
    | some (before, after) => some (c :: before, after)
    | none =>
      if mark.isPrefixOf (c :: rest) then some ([], (c :: rest).drop mark.length) else none

/-- The words before the line and before the column of a place. -/
def lineMark : List Char := " at line ".toList
def columnMark : List Char := " column ".toList

def readPlace (cs : List Char) : Option (Nat × Nat) :=
  let rest := cs.dropWhile Char.isDigit
  if columnMark.isPrefixOf rest then do
    let line ← Text.count? (String.ofList (cs.takeWhile Char.isDigit))
    let column ← Text.count? (String.ofList (rest.drop columnMark.length))
    some (line, column)
  else none

/-- The complaint that a sentence makes. A place in line zero is no place. -/
def ofSentence (s : String) : Complaint :=
  match splitLast? lineMark s.toList with
  | none => ⟨s, none⟩
  | some (before, after) =>
    match readPlace after with
    | none => ⟨s, none⟩
    | some (line, column) =>
      ⟨String.ofList before, if line = 0 then none else some (line, column)⟩

def sentence (c : Complaint) : String :=
  match c.place with
  | none => c.text
  | some (line, column) =>
    c.text ++ String.ofList lineMark ++ toString line ++ String.ofList columnMark ++
      toString column

end Complaint

end StateEngine.Json
