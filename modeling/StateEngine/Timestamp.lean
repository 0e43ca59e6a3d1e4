/-!
# Moments of universal time

A moment is kept as the calendar names it, to the nanosecond. A moment inside a leap second has the
second 60.
-/

namespace StateEngine

/-- A day of the Gregorian calendar, carried back before its introduction. -/
structure Date where
  year : Int
  month : Nat
  day : Nat
  deriving DecidableEq

namespace Date

def isLeapYear (year : Int) : Bool := year % 4 = 0 && (year % 100 ≠ 0 || year % 400 = 0)

def daysInMonth (year : Int) (month : Nat) : Nat :=
  if month = 2 then (if isLeapYear year then 29 else 28)
  else if month = 4 || month = 6 || month = 9 || month = 11 then 30
  else 31

def minYear : Int := -262143
def maxYear : Int := 262142

/-- Holds of the days that the calendar has, within the years that can be named. -/
def IsValid (d : Date) : Prop :=
  minYear ≤ d.year ∧ d.year ≤ maxYear ∧ 1 ≤ d.month ∧ d.month ≤ 12 ∧
    1 ≤ d.day ∧ d.day ≤ daysInMonth d.year d.month

instance (d : Date) : Decidable d.IsValid :=
  inferInstanceAs (Decidable (_ ∧ _ ∧ _ ∧ _ ∧ _ ∧ _))

def next (d : Date) : Date :=
  if d.day < daysInMonth d.year d.month then { d with day := d.day + 1 }
  else if d.month < 12 then { d with month := d.month + 1, day := 1 }
  else { year := d.year + 1, month := 1, day := 1 }

def previous (d : Date) : Date :=
  if 1 < d.day then { d with day := d.day - 1 }
  else if 1 < d.month then
    { d with month := d.month - 1, day := daysInMonth d.year (d.month - 1) }
  else { year := d.year - 1, month := 12, day := 31 }

end Date

/-- A moment of universal time to the nanosecond. -/
structure Timestamp where
  date : Date
  hour : Nat
  minute : Nat
  second : Nat
  nano : Nat
  valid : date.IsValid ∧ hour < 24 ∧ minute < 60 ∧ second ≤ 60 ∧ nano < 1000000000
  deriving DecidableEq

namespace Timestamp

def epoch : Timestamp where
  date := ⟨1970, 1, 1⟩
  hour := 0
  minute := 0
  second := 0
  nano := 0
  valid := by decide

/-- The moment with the given parts, if the calendar has it. -/
def ofParts? (date : Date) (hour minute second nano : Nat) : Option Timestamp :=
  if h : date.IsValid ∧ hour < 24 ∧ minute < 60 ∧ second ≤ 60 ∧ nano < 1000000000 then
    some ⟨date, hour, minute, second, nano, h⟩
  else none

/-- The moment at which a clock `offset` minutes ahead of universal time shows `t`. Less than a day
lies between the two clocks, so that the days differ by one at most. -/
def shiftBack? (t : Timestamp) (offset : Int) : Option Timestamp :=
  let total : Int := t.hour * 60 + t.minute - offset
  let date :=
    if total < 0 then t.date.previous
    else if 1440 ≤ total then t.date.next
    else t.date
  let rest := (total % 1440).toNat
  ofParts? date (rest / 60) (rest % 60) t.second t.nano

end Timestamp

end StateEngine
