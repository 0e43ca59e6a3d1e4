import StateEngine.Proofs.Digits
import StateEngine.Timestamp.Text

/-!
# Moments read back from their text

Each part of the text of a moment ends before a mark that is no digit, and is read up to that mark.
So the text of every moment that the calendar has is read as that moment, also before the year zero,
beyond the year 9999, and inside a leap second.
-/

namespace StateEngine

namespace Text

theorem isBlank_of_isDigit {c : Char} (h : c.isDigit = true) : isBlank c = false := by
  have hrange : 48 ≤ c.toNat ∧ c.toNat ≤ 57 := by
    simpa [Char.isDigit, UInt32.le_iff_toNat_le] using h
  simp only [isBlank, blankRanges, List.any_cons, List.any_nil, Bool.or_false, Bool.or_eq_false_iff,
    Bool.and_eq_false_iff, decide_eq_false_iff_not]
  omega

theorem dropBlanks_cons {c : Char} (h : isBlank c = false) (cs : List Char) :
    dropBlanks (c :: cs) = c :: cs := by
  rw [dropBlanks, List.dropWhile_cons, h, if_neg (by decide)]

theorem padded_eq_cons (width n : Nat) : ∃ c ds, padded width n = c :: ds ∧ c.isDigit = true := by
  cases hd : padded width n with
  | nil => exact absurd hd (padded_ne_nil width n)
  | cons c ds => exact ⟨c, ds, rfl, isDigit_of_mem_padded (hd ▸ List.mem_cons_self)⟩

/-- Digits are not passed over as blanks. -/
theorem dropBlanks_padded (width n : Nat) (rest : List Char) :
    dropBlanks (padded width n ++ rest) = padded width n ++ rest := by
  obtain ⟨c, ds, hd, hdigit⟩ := padded_eq_cons width n
  rw [hd, List.cons_append, dropBlanks_cons (isBlank_of_isDigit hdigit)]

theorem NoDigit.take {cs : List Char} (h : NoDigit cs) (n : Nat) : NoDigit (cs.take n) := by
  cases cs with
  | nil =>
    rw [List.take_nil]
    exact noDigit_nil
  | cons c cs =>
    cases n with
    | zero => exact noDigit_nil
    | succ n => exact noDigit_cons (h c rfl) _

end Text

namespace Timestamp

open Text

theorem readDigits_padded {width digits n : Nat} (hle : (padded digits n).length ≤ width)
    {rest : List Char} (h : NoDigit rest) :
    readDigits width (padded digits n ++ rest) = some (padded digits n, rest) := by
  have htake : ((padded digits n ++ rest).take width).takeWhile Char.isDigit = padded digits n := by
    rw [List.take_append, List.take_of_length_le hle,
      takeWhile_digits (fun _ hc => isDigit_of_mem_padded hc) (h.take _)]
  rw [readDigits, htake, if_neg (by simpa using padded_ne_nil digits n), List.drop_left]

theorem readNumber_padded (n : Nat) (hn : n < 100) {rest : List Char} (h : NoDigit rest) :
    readNumber 2 (padded 2 n ++ rest) = some (n, rest) := by
  have hlength : (padded 2 n).length = 2 := length_padded (by decide) hn
  have hread := readDigits_padded (Nat.le_of_eq hlength) h
  rw [readNumber, dropBlanks_padded, hread]
  exact congrArg (fun n => some (n, rest)) (digitsValue_padded 2 n)

theorem readYear_renderYear (year : Int) {rest : List Char} (h : NoDigit rest) :
    readYear (renderYear year ++ rest) = some (year, rest) := by
  have hsigned : ∀ n, readDigits (padded 4 n ++ rest).length (padded 4 n ++ rest) =
      some (padded 4 n, rest) := fun n =>
    readDigits_padded (by rw [List.length_append]; omega) h
  unfold renderYear
  by_cases hfour : (0 ≤ year && year ≤ 9999) = true
  · rw [if_pos hfour]
    simp only [Bool.and_eq_true, decide_eq_true_eq] at hfour
    obtain ⟨c, ds, hd, hdigit⟩ := padded_eq_cons 4 year.toNat
    have hlength : (padded 4 year.toNat).length = 4 :=
      length_padded (by decide) (show year.toNat < 10000 by omega)
    have hread := readDigits_padded (Nat.le_of_eq hlength) h
    rw [readYear, dropBlanks_padded]
    split
    case h_3 =>
      simp only [hread, Option.map_some, digitsValue_padded]
      congr 2
      omega
    -- The first digit is taken for no sign.
    all_goals
      rename_i tail htail
      rw [hd, List.cons_append] at htail
      rw [(List.cons.inj htail).1] at hdigit
      exact absurd hdigit (by decide)
  · rw [if_neg hfour]
    simp only [Bool.and_eq_true, decide_eq_true_eq] at hfour
    by_cases hneg : year < 0
    · rw [if_pos hneg, List.cons_append, readYear, dropBlanks_cons (by decide)]
      simp only [hsigned, Option.map_some, digitsValue_padded]
      congr 2
      omega
    · rw [if_neg hneg, List.cons_append, readYear, dropBlanks_cons (by decide)]
      simp only [hsigned, Option.map_some, digitsValue_padded]
      congr 2
      omega

theorem readFraction_renderFraction {nano : Nat} (h : nano < 1000000000) :
    readFraction (renderFraction nano ++ ['Z']) = some (nano, ['Z']) := by
  have hread : ∀ width n, 0 < width → width ≤ 9 → n < Nat.pow 10 width →
      readFraction ('.' :: padded width n ++ ['Z']) = some (n * Nat.pow 10 (9 - width), ['Z']) := by
    intro width n hw hle hn
    have hlength := length_padded hw hn
    have hdigits : readDigits 9 (padded width n ++ ['Z']) = some (padded width n, ['Z']) :=
      readDigits_padded (by omega) (noDigit_cons rfl [])
    rw [List.cons_append, readFraction, hdigits]
    simp only [Option.map_some, digitsValue_padded, hlength]
    rfl
  unfold renderFraction
  split
  · rename_i hzero
    rw [hzero]
    rfl
  split
  · rename_i hmilli
    rw [hread 3 (nano / 1000000) (by decide) (by decide) (show nano / 1000000 < 1000 by omega)]
    congr 2
    change nano / 1000000 * 1000000 = nano
    omega
  split
  · rename_i hmicro
    rw [hread 6 (nano / 1000) (by decide) (by decide) (show nano / 1000 < 1000000 by omega)]
    congr 2
    change nano / 1000 * 1000 = nano
    omega
  · rw [hread 9 nano (by decide) (by decide) h]
    congr 2
    exact Nat.mul_one nano

theorem ofParts?_self (t : Timestamp) :
    ofParts? t.date t.hour t.minute t.second t.nano = some t := by
  rw [ofParts?, dif_pos t.valid]

/-- In the zone of universal time a clock shows universal time. -/
theorem shiftBack?_zero (t : Timestamp) : t.shiftBack? 0 = some t := by
  obtain ⟨-, hhour, hminute, -⟩ := t.valid
  have hnow : ¬ ((t.hour : Int) * 60 + t.minute - 0 < 0) := by omega
  have htoday : ¬ (1440 ≤ (t.hour : Int) * 60 + t.minute - 0) := by omega
  have hrest : (((t.hour : Int) * 60 + t.minute - 0) % 1440).toNat = t.hour * 60 + t.minute := by
    omega
  simp only [shiftBack?, hnow, htoday, if_false, hrest]
  rw [show (t.hour * 60 + t.minute) / 60 = t.hour by omega,
    show (t.hour * 60 + t.minute) % 60 = t.minute by omega]
  exact ofParts?_self t

/-- A mark that is neither a blank nor a digit ends the number before it. -/
theorem readMark_dropBlanks {mark : Char} (h : isBlank mark = false) (rest : List Char) :
    readMark mark (dropBlanks (mark :: rest)) = some rest := by
  rw [dropBlanks_cons h, readMark, if_pos rfl]

theorem daysInMonth_le (year : Int) (month : Nat) : Date.daysInMonth year month ≤ 31 := by
  unfold Date.daysInMonth
  split
  · split <;> omega
  · split <;> omega

theorem readDate_render {d : Date} (valid : d.IsValid) {rest : List Char} (h : NoDigit rest) :
    readDate (renderYear d.year ++
      '-' :: (padded 2 d.month ++ '-' :: (padded 2 d.day ++ rest))) = some (d, rest) := by
  obtain ⟨-, -, -, hmonth, -, hday⟩ := valid
  have hdays := daysInMonth_le d.year d.month
  have hdash : ∀ cs, NoDigit ('-' :: cs) := fun cs => noDigit_cons (by decide) cs
  simp only [readDate, readYear_renderYear d.year (hdash _),
    readMark_dropBlanks (show isBlank '-' = false by decide),
    readNumber_padded d.month (by omega) (hdash _),
    readNumber_padded d.day (by omega) h,
    Option.bind_eq_bind, Option.bind_some]

/-- A moment is read back from its text. -/
theorem ofText?_toText (t : Timestamp) : ofText? t.toText = some t := by
  obtain ⟨hdate, hhour, hminute, hsecond, hnano⟩ := t.valid
  have htext : t.render = renderYear t.date.year ++
      '-' :: (padded 2 t.date.month ++ '-' :: (padded 2 t.date.day ++
        'T' :: (padded 2 t.hour ++ ':' :: (padded 2 t.minute ++ ':' :: (padded 2 t.second ++
          (renderFraction t.nano ++ ['Z'])))))) := by
    simp only [render, List.append_assoc, List.cons_append]
  have hcolon : ∀ cs, NoDigit (':' :: cs) := fun cs => noDigit_cons (by decide) cs
  have hletter : ∀ cs, NoDigit ('T' :: cs) := fun cs => noDigit_cons (by decide) cs
  have hfraction : NoDigit (renderFraction t.nano ++ ['Z']) := by
    unfold renderFraction
    split
    · exact noDigit_cons rfl _
    split
    · exact noDigit_cons rfl _
    split
    · exact noDigit_cons rfl _
    · exact noDigit_cons rfl _
  have hzone : readZone (dropBlanks ['Z']) = some (0, []) := rfl
  have hseparator : ∀ cs, readSeparator ('T' :: cs) = some cs := fun _ => rfl
  simp only [ofText?, toText, String.toList_ofList, htext,
    readDate_render hdate (hletter _), hseparator,
    readMark_dropBlanks (show isBlank ':' = false by decide),
    readNumber_padded t.hour (by omega) (hcolon _),
    readNumber_padded t.minute (by omega) (hcolon _),
    readNumber_padded t.second (by omega) hfraction,
    readFraction_renderFraction hnano, hzone, ofParts?_self, shiftBack?_zero,
    Option.bind_eq_bind, Option.bind_some]
  rfl

end Timestamp

end StateEngine
