import StateEngine.Text.Blank
import StateEngine.Text.Digits
import StateEngine.Timestamp

/-!
# The text of a moment

A moment is written as the calendar date, the time of day with as many digits of the fraction as it
needs (none, three, six or nine), and the zone. Writing names universal time only; reading takes any
zone less than a day away, and blanks between the parts.
-/

namespace StateEngine.Timestamp

open Text (digitsValue dropBlanks padded)

/-- A year outside four digits is written with its sign. -/
def renderYear (year : Int) : List Char :=
  if 0 ≤ year && year ≤ 9999 then padded 4 year.toNat
  else (if year < 0 then '-' else '+') :: padded 4 year.natAbs

def renderFraction (nano : Nat) : List Char :=
  if nano = 0 then []
  else if nano % 1000000 = 0 then '.' :: padded 3 (nano / 1000000)
  else if nano % 1000 = 0 then '.' :: padded 6 (nano / 1000)
  else '.' :: padded 9 nano

def render (t : Timestamp) : List Char :=
  renderYear t.date.year ++ '-' :: padded 2 t.date.month ++ '-' :: padded 2 t.date.day ++
    'T' :: padded 2 t.hour ++ ':' :: padded 2 t.minute ++ ':' :: padded 2 t.second ++
    renderFraction t.nano ++ ['Z']

def toText (t : Timestamp) : String := String.ofList t.render

/-- The digits at the front, at most `width` of them and at least one. -/
def readDigits (width : Nat) (cs : List Char) : Option (List Char × List Char) :=
  let ds := (cs.take width).takeWhile Char.isDigit
  if ds.isEmpty then none else some (ds, cs.drop ds.length)

def readNumber (width : Nat) (cs : List Char) : Option (Nat × List Char) :=
  (readDigits width (dropBlanks cs)).map fun (ds, rest) => (digitsValue ds, rest)

/-- A year of at most four digits, or of any number of digits after a sign. -/
def readYear (cs : List Char) : Option (Int × List Char) :=
  match dropBlanks cs with
  | '-' :: rest => (readDigits rest.length rest).map fun (ds, rest) => (-digitsValue ds, rest)
  | '+' :: rest => (readDigits rest.length rest).map fun (ds, rest) => (digitsValue ds, rest)
  | cs => (readDigits 4 cs).map fun (ds, rest) => (digitsValue ds, rest)

def readMark (mark : Char) (cs : List Char) : Option (List Char) :=
  match cs with
  | c :: rest => if c = mark then some rest else none
  | [] => none

def readDate (cs : List Char) : Option (Date × List Char) := do
  let (year, cs) ← readYear cs
  let cs ← readMark '-' (dropBlanks cs)
  let (month, cs) ← readNumber 2 cs
  let cs ← readMark '-' (dropBlanks cs)
  let (day, cs) ← readNumber 2 cs
  some (⟨year, month, day⟩, cs)

def readSeparator : List Char → Option (List Char)
  | c :: rest => if c = 't' || c = 'T' || c = ' ' then some rest else none
  | [] => none

/-- A fraction in nanoseconds; digits after the ninth are dropped. -/
def readFraction : List Char → Option (Nat × List Char)
  | '.' :: rest =>
    (readDigits 9 rest).map fun (ds, rest) =>
      (digitsValue ds * Nat.pow 10 (9 - ds.length), rest.dropWhile Char.isDigit)
  | cs => some (0, cs)

/-- Hours and minutes of a zone, with colons and blanks between them. -/
def readOffset (cs : List Char) : Option (Nat × List Char) :=
  match cs with
  | a :: b :: rest =>
    if a.isDigit && b.isDigit then
      match rest.dropWhile fun c => c = ':' || Text.isBlank c with
      | c :: d :: rest =>
        if c.isDigit && d.isDigit && digitsValue [c, d] < 60 then
          some (digitsValue [a, b] * 60 + digitsValue [c, d], rest)
        else none
      | _ => none
    else none
  | _ => none

/-- The minutes by which a zone is ahead of universal time. -/
def readZone (cs : List Char) : Option (Int × List Char) :=
  match cs with
  | 'z' :: rest => some (0, rest)
  | 'Z' :: rest => some (0, rest)
  | '+' :: rest => (readOffset rest).map fun (n, rest) => ((n : Int), rest)
  | '-' :: rest => (readOffset rest).map fun (n, rest) => (-(n : Int), rest)
  | '\u2212' :: rest => (readOffset rest).map fun (n, rest) => (-(n : Int), rest)
  | a :: b :: c :: rest =>
    if a.toUpper = 'U' && b.toUpper = 'T' && c.toUpper = 'C' then some (0, rest) else none
  | _ => none

/-- The moment that a text names, if it names one that the calendar has. -/
def ofText? (s : String) : Option Timestamp := do
  let (date, cs) ← readDate s.toList
  let cs ← readSeparator cs
  let (hour, cs) ← readNumber 2 cs
  let cs ← readMark ':' (dropBlanks cs)
  let (minute, cs) ← readNumber 2 cs
  let cs ← readMark ':' (dropBlanks cs)
  let (second, cs) ← readNumber 2 cs
  let (nano, cs) ← readFraction cs
  let (offset, cs) ← readZone (dropBlanks cs)
  if (dropBlanks cs).isEmpty && offset.natAbs < 1440 then
    (← ofParts? date hour minute second nano).shiftBack? offset
  else none

end StateEngine.Timestamp
