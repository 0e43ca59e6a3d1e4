import StateEngine.Json.Reader
import StateEngine.Proofs.Digits

/-!
# Values read back from their text

The text of a JSON value is read as that value, whatever characters its strings hold. A value inside
another one is read up to the mark that follows it, so the statements speak of a text with more
behind it, and of the fuel that the length of the text provides.
-/

namespace StateEngine.Json

/-! ## Strings -/

theorem hexValue?_hexDigit : ∀ n < 16, hexValue? (hexDigit n) = some n := by decide

/-- The characters below the space that have an escape of their own. -/
def namedControls : List Char := ['\x08', '\t', '\n', '\x0c', '\r']

/-- How a character of a string is read back: by its number if it has to be written so. -/
def pieceOf (c : Char) : Piece :=
  if 0x20 ≤ c.toNat ∨ c ∈ namedControls then .plain c else .code c.toNat

theorem readPieces_plain {c : Char} (hq : c ≠ '"') (hb : c ≠ '\\') (hc : 0x20 ≤ c.toNat)
    (rest : List Char) :
    readPieces (c :: rest) = (readPieces rest).map fun r => (.plain c :: r.1, r.2) := by
  rw [readPieces, if_neg (by omega)]
  · cases readPieces rest <;> rfl
  · exact hq
  · rintro _ _ _ _ _ rfl
    exact absurd rfl hb
  · rintro _ _ rfl
    exact absurd rfl hb

theorem readPieces_escapedChar (c : Char) (rest : List Char) :
    readPieces (escapedChar c ++ rest) =
      (readPieces rest).map fun r => (pieceOf c :: r.1, r.2) := by
  by_cases hq : c = '"'
  · subst hq
    cases h : readPieces rest <;> simp [escapedChar, readPieces, pieceOf, h]
  by_cases hb : c = '\\'
  · subst hb
    cases h : readPieces rest <;> simp [escapedChar, readPieces, pieceOf, h]
  by_cases hc : 0x20 ≤ c.toNat
  · simp only [escapedChar, hq, hb, hc, if_true, if_false, pieceOf, true_or]
    exact readPieces_plain hq hb hc rest
  by_cases hn : c ∈ namedControls
  · simp only [namedControls, List.mem_cons, List.not_mem_nil, or_false] at hn
    rcases hn with rfl | rfl | rfl | rfl | rfl <;>
      cases h : readPieces rest <;> simp [escapedChar, readPieces, pieceOf, namedControls, h]
  have hlow := hexValue?_hexDigit (c.toNat % 16) (by omega)
  have hhigh := hexValue?_hexDigit (c.toNat / 16) (by omega)
  have hzero : hexValue? '0' = some 0 := rfl
  have hcode : c.toNat / 16 * 16 + c.toNat % 16 = c.toNat := by omega
  have hescape : escapedChar c =
      ['\\', 'u', '0', '0', hexDigit (c.toNat / 16), hexDigit (c.toNat % 16)] := by
    simp only [namedControls, List.mem_cons, List.not_mem_nil, or_false, not_or] at hn
    simp only [escapedChar, hq, hb, hc, hn, if_false]
  rw [hescape, pieceOf, if_neg (by simp [hc, hn])]
  cases h : readPieces rest <;> simp [readPieces, hzero, hhigh, hlow, hcode, h]

/-- The pieces of a written string are those of its characters, up to the quote that ends it. -/
theorem readPieces_escaped (cs rest : List Char) :
    readPieces (cs.flatMap escapedChar ++ '"' :: rest) = some (cs.map pieceOf, rest) := by
  induction cs with
  | nil => rfl
  | cons c cs ih =>
    rw [List.flatMap_cons, List.append_assoc, readPieces_escapedChar, ih]
    rfl

theorem joinPieces_pieceOf (c : Char) (ps : List Piece) :
    joinPieces (pieceOf c :: ps) = (joinPieces ps).map (c :: ·) := by
  unfold pieceOf
  split
  · rfl
  · rename_i hc
    have hlow : c.toNat < 0x20 := by
      have := not_or.mp hc
      omega
    -- A control character is no half of a pair, so it stands by itself whatever follows.
    have hh : isHighHalf c.toNat = false := by simp [isHighHalf]; omega
    have hl : isLowHalf c.toNat = false := by simp [isLowHalf]; omega
    cases ps with
    | nil => simp [joinPieces, hh, hl]
    | cons p ps => cases p <;> simp [joinPieces, hh, hl]

theorem joinPieces_pieces (cs : List Char) : joinPieces (cs.map pieceOf) = some cs := by
  induction cs with
  | nil => rfl
  | cons c cs ih =>
    rw [List.map_cons, joinPieces_pieceOf, ih]
    rfl

/-- A string is read back up to the quote that ends it; so is a string that no text contains. -/
theorem readString_renderString (content : Option String) (rest : List Char) :
    ∃ cs, renderString content ++ rest = '"' :: cs ∧ readString cs = some (content, rest) := by
  cases content with
  | none =>
    have hlone : renderString none = ['"', '\\', 'u', 'd', '8', '0', '0', '"'] := by decide
    refine ⟨'\\' :: 'u' :: 'd' :: '8' :: '0' :: '0' :: '"' :: rest, by rw [hlone]; rfl, ?_⟩
    simp [readString, readPieces, joinPieces, hexValue?, isHighHalf]
  | some s =>
    refine ⟨s.toList.flatMap escapedChar ++ '"' :: rest, ?_, ?_⟩
    · change '"' :: (s.toList.flatMap escapedChar ++ ['"'] ++ rest) = _
      rw [List.append_assoc, List.singleton_append]
    · simp only [readString, readPieces_escaped, Option.map_some, joinPieces_pieces,
        String.ofList_toList]

/-! ## Numbers -/

/-- What may stand behind a value: a comma, the end of what it is a part of, or nothing. -/
def Closes (rest : List Char) : Prop := ∀ c ∈ rest.head?, c = ',' ∨ c = ']' ∨ c = '\x7d'

theorem closes_nil : Closes [] := nofun

theorem closes_cons {c : Char} (h : c = ',' ∨ c = ']' ∨ c = '\x7d') (rest : List Char) :
    Closes (c :: rest) := by
  intro d hd
  obtain rfl : c = d := by simpa using hd
  exact h

theorem Closes.noDigit {rest : List Char} (h : Closes rest) : Text.NoDigit rest := by
  intro c hc
  rcases h c hc with rfl | rfl | rfl <;> rfl

theorem Closes.readFraction {rest : List Char} (h : Closes rest) :
    readFraction rest = some ([], rest) := by
  cases rest with
  | nil => rfl
  | cons c rest => rcases h c rfl with rfl | rfl | rfl <;> rfl

theorem Closes.readExponent {rest : List Char} (h : Closes rest) :
    readExponent rest = some ([], rest) := by
  cases rest with
  | nil => rfl
  | cons c rest => rcases h c rfl with rfl | rfl | rfl <;> rfl

/-- A whole number is written without a zero in front, so none of its digits are left over. -/
theorem readWhole_toDigits (n : Nat) {rest : List Char} (h : Closes rest) :
    readWhole (Nat.toDigits 10 n ++ rest) = some (Nat.toDigits 10 n, rest) := by
  have digits : ∀ c ∈ Nat.toDigits 10 n, c.isDigit = true :=
    fun c hc => Text.isDigit_of_mem_toDigits hc
  have hread : readDigits (Nat.toDigits 10 n ++ rest) = some (Nat.toDigits 10 n, rest) := by
    rw [readDigits, Text.takeWhile_digits digits h.noDigit, Text.dropWhile_digits digits h.noDigit,
      if_neg (by simp [Nat.toDigits_ne_nil])]
  by_cases hn : n = 0
  · subst hn
    rfl
  have hhead := Text.head?_toDigits_ne_zero (Nat.pos_of_ne_zero hn)
  rw [readWhole]
  · exact hread
  · intro tail htail
    obtain ⟨c, ds, hd, -⟩ := Text.toDigits_eq_cons n
    rw [hd] at htail hhead
    exact hhead (congrArg some (List.cons.inj htail).1)

theorem readNumber_toDigits (n : Nat) {rest : List Char} (h : Closes rest) :
    readNumber (Nat.toDigits 10 n ++ rest) = some (toString n, rest) := by
  rw [readNumber]
  · rw [Nat.toString_eq_ofList_toDigits]
    simp [readWhole_toDigits n h, h.readFraction, h.readExponent]
  · intro tail htail
    obtain ⟨c, ds, hd, hdigit⟩ := Text.toDigits_eq_cons n
    rw [hd] at htail
    rw [(List.cons.inj htail).1] at hdigit
    exact absurd hdigit (by decide)

/-! ## Values -/

/-- Values whose numbers are counts. -/
inductive Plain : Json → Prop where
  | null : Plain .null
  | bool (b : Bool) : Plain (.bool b)
  | ofNat (n : Nat) : Plain (.ofNat n)
  | string (content : Option String) : Plain (.string content)
  | array {items : List Json} : (∀ j ∈ items, Plain j) → Plain (.array items)
  | object {fields : List (Option String × Json)} : (∀ f ∈ fields, Plain f.2) →
      Plain (.object fields)

theorem render_ofNat (n : Nat) : render (.ofNat n) = Nat.toDigits 10 n := by
  rw [ofNat, render, Text.toList_toString]

theorem skipSpace_cons {c : Char} (h : isSpace c = false) (cs : List Char) :
    skipSpace (c :: cs) = c :: cs := by
  rw [skipSpace, List.dropWhile_cons, h, if_neg (by decide)]

theorem isSpace_of_isDigit {c : Char} (h : c.isDigit = true) : isSpace c = false := by
  cases hs : isSpace c with
  | false => rfl
  | true =>
    have hspace : c = ' ' ∨ c = '\n' ∨ c = '\t' ∨ c = '\r' := by
      simpa [isSpace, or_assoc] using hs
    rcases hspace with rfl | rfl | rfl | rfl <;> exact absurd h (by decide)

/-- The text of a value begins with neither a blank nor the end of a list. -/
theorem Plain.render_eq_cons {j : Json} (plain : j.Plain) :
    ∃ c cs, render j = c :: cs ∧ isSpace c = false ∧ c ≠ ']' := by
  cases plain with
  | null => exact ⟨'n', ['u', 'l', 'l'], rfl, rfl, by decide⟩
  | bool b =>
    cases b with
    | true => exact ⟨'t', ['r', 'u', 'e'], rfl, rfl, by decide⟩
    | false => exact ⟨'f', ['a', 'l', 's', 'e'], rfl, rfl, by decide⟩
  | ofNat n =>
    obtain ⟨c, ds, hd, hdigit⟩ := Text.toDigits_eq_cons n
    refine ⟨c, ds, (render_ofNat n).trans hd, isSpace_of_isDigit hdigit, ?_⟩
    rintro rfl
    exact absurd hdigit (by decide)
  | string content =>
    obtain ⟨cs, hcs, -⟩ := readString_renderString content []
    rw [List.append_nil] at hcs
    exact ⟨'"', cs, by rw [render, hcs], rfl, by decide⟩
  | @array items => exact ⟨'[', renderItems items, by rw [render], rfl, by decide⟩
  | @object fields => exact ⟨'\x7b', renderFields fields, by rw [render], rfl, by decide⟩

theorem readValue_of_isDigit {c : Char} (h : c.isDigit = true) (fuel : Nat) (cs : List Char) :
    readValue (fuel + 1) (c :: cs) = (readNumber (c :: cs)).map fun r => (.number r.1, r.2) := by
  rw [readValue, skipSpace_cons (isSpace_of_isDigit h)]
  split
  case h_7 => rfl
  all_goals
    rename_i heq
    rw [(List.cons.inj heq).1] at h
    exact absurd h (by decide)

/-- How much of a text a value takes, given fuel for its length. -/
def ReadBack (j : Json) : Prop :=
  ∀ (fuel : Nat) {rest : List Char}, 2 * (render j).length ≤ fuel → Closes rest →
    readValue fuel (render j ++ rest) = some (j, rest)

theorem readItems_renderItems {items : List Json} (hne : items ≠ [])
    (read : ∀ j ∈ items, j.ReadBack) (fuel : Nat) (hfuel : 2 * (renderItems items).length ≤ fuel)
    (rest : List Char) : readItems fuel (renderItems items ++ rest) = some (items, rest) := by
  induction items generalizing fuel with
  | nil => exact absurd rfl hne
  | cons item more ih =>
    cases more with
    | nil =>
      rw [renderItems] at hfuel ⊢
      simp only [List.length_append, List.length_singleton] at hfuel
      obtain ⟨fuel, rfl⟩ : ∃ n, fuel = n + 1 := ⟨fuel - 1, by omega⟩
      have hitem := read item List.mem_cons_self fuel (by omega)
        (closes_cons (.inr (.inl rfl)) rest)
      rw [List.append_assoc, List.singleton_append, readItems, hitem]
      rfl
    | cons next more =>
      rw [renderItems] at hfuel ⊢
      simp only [List.length_append, List.length_cons] at hfuel
      obtain ⟨fuel, rfl⟩ : ∃ n, fuel = n + 1 := ⟨fuel - 1, by omega⟩
      have hitem := read item List.mem_cons_self fuel (by omega)
        (closes_cons (.inl rfl) (renderItems (next :: more) ++ rest))
      have hmore := ih nofun (fun j hj => read j (List.mem_cons_of_mem _ hj)) fuel
        (by omega)
      rw [List.append_assoc, List.cons_append, readItems, hitem]
      simp [skipSpace_cons, isSpace, hmore]

theorem readFields_renderFields {fields : List (Option String × Json)} (hne : fields ≠ [])
    (read : ∀ f ∈ fields, f.2.ReadBack) (fuel : Nat)
    (hfuel : 2 * (renderFields fields).length ≤ fuel) (rest : List Char) :
    readFields fuel (renderFields fields ++ rest) = some (fields, rest) := by
  induction fields generalizing fuel with
  | nil => exact absurd rfl hne
  | cons field more ih =>
    obtain ⟨name, value⟩ := field
    cases more with
    | nil =>
      rw [renderFields] at hfuel ⊢
      simp only [List.length_append, List.length_cons] at hfuel
      obtain ⟨fuel, rfl⟩ : ∃ n, fuel = n + 1 := ⟨fuel - 1, by omega⟩
      obtain ⟨cs, hcs, hname⟩ := readString_renderString name
        (':' :: (render value ++ '\x7d' :: rest))
      have hvalue := read (name, value) List.mem_cons_self fuel
        (show 2 * (render value).length ≤ fuel by omega) (closes_cons (.inr (.inr rfl)) rest)
      have htext : renderString name ++ ':' :: render value ++ ['\x7d'] ++ rest = '"' :: cs := by
        rw [← hcs]
        simp
      rw [htext, readFields]
      simp [skipSpace_cons, isSpace, hname, hvalue]
    | cons next more =>
      rw [renderFields] at hfuel ⊢
      simp only [List.length_append, List.length_cons] at hfuel
      obtain ⟨fuel, rfl⟩ : ∃ n, fuel = n + 1 := ⟨fuel - 1, by omega⟩
      have hmore := ih nofun (fun f hf => read f (List.mem_cons_of_mem _ hf)) fuel
        (by omega)
      obtain ⟨cs, hcs, hname⟩ := readString_renderString name
        (':' :: (render value ++ ',' :: (renderFields (next :: more) ++ rest)))
      have hvalue := read (name, value) List.mem_cons_self fuel
        (show 2 * (render value).length ≤ fuel by omega)
        (closes_cons (.inl rfl) (renderFields (next :: more) ++ rest))
      have htext : renderString name ++ ':' :: render value ++
          ',' :: renderFields (next :: more) ++ rest = '"' :: cs := by
        rw [← hcs]
        simp
      rw [htext, readFields]
      simp [skipSpace_cons, isSpace, hname, hvalue, hmore]

/-- The text of a value is never empty, so there is fuel to begin with. -/
theorem Plain.readBack_of_succ {j : Json} (plain : j.Plain)
    (read : ∀ {fuel : Nat} {rest : List Char}, 2 * (render j).length ≤ fuel + 1 → Closes rest →
      readValue (fuel + 1) (render j ++ rest) = some (j, rest)) : j.ReadBack := by
  intro fuel rest hfuel hrest
  obtain ⟨c, cs, hcs, -⟩ := plain.render_eq_cons
  obtain ⟨fuel, rfl⟩ : ∃ n, fuel = n + 1 := by
    rw [hcs, List.length_cons] at hfuel
    exact ⟨fuel - 1, by omega⟩
  exact read hfuel hrest

/-- Every value is read back, up to what closes it. -/
theorem Plain.readBack {j : Json} (plain : j.Plain) : j.ReadBack := by
  induction plain with
  | null => exact Plain.null.readBack_of_succ fun _ _ => rfl
  | bool b => exact (Plain.bool b).readBack_of_succ fun _ _ => by cases b <;> rfl
  | ofNat n =>
    refine (Plain.ofNat n).readBack_of_succ fun _ hrest => ?_
    obtain ⟨c, ds, hd, hdigit⟩ := Text.toDigits_eq_cons n
    rw [render_ofNat, hd, List.cons_append, readValue_of_isDigit hdigit, ← List.cons_append, ← hd,
      readNumber_toDigits n hrest]
    rfl
  | string content =>
    refine (Plain.string content).readBack_of_succ fun {fuel rest} _ _ => ?_
    obtain ⟨cs, hcs, hread⟩ := readString_renderString content rest
    rw [render, hcs, readValue]
    simp [skipSpace_cons, isSpace, hread]
  | @array items plain ih =>
    refine (Plain.array plain).readBack_of_succ fun {fuel rest} hfuel _ => ?_
    rw [render, List.length_cons] at hfuel
    cases hitems : items with
    | nil => simp [render, renderItems, readValue, skipSpace_cons, isSpace]
    | cons item more =>
      obtain ⟨c, cs, hcs, hspace, hne⟩ := (plain item (hitems ▸ List.mem_cons_self)).render_eq_cons
      have hread := readItems_renderItems (hitems ▸ List.cons_ne_nil item more) ih fuel
        (by omega) rest
      obtain ⟨tail, htail⟩ : ∃ tail, renderItems items ++ rest = c :: tail := by
        rw [hitems]
        cases more <;> simp [renderItems, hcs]
      rw [htail] at hread
      rw [← hitems, render, List.cons_append, htail, readValue, skipSpace_cons (by decide)]
      simp only [skipSpace_cons hspace]
      split
      · rename_i tail' htail'
        exact absurd (List.cons.inj htail').1 hne
      · rw [hread]
        rfl
  | @object fields plain ih =>
    refine (Plain.object plain).readBack_of_succ fun {fuel rest} hfuel _ => ?_
    rw [render, List.length_cons] at hfuel
    cases hfields : fields with
    | nil => simp [render, renderFields, readValue, skipSpace_cons, isSpace]
    | cons field more =>
      have hread := readFields_renderFields (hfields ▸ List.cons_ne_nil field more) ih
        fuel (by omega) rest
      obtain ⟨tail, htail⟩ : ∃ tail, renderFields fields ++ rest = '"' :: tail := by
        obtain ⟨name, value⟩ := field
        obtain ⟨cs, hcs, -⟩ := readString_renderString name []
        rw [List.append_nil] at hcs
        rw [hfields]
        cases more <;> simp [renderFields, hcs]
      rw [htail] at hread
      rw [← hfields, render, List.cons_append, htail, readValue]
      simp [skipSpace_cons, isSpace, hread]

theorem parse?_renderText {j : Json} (plain : j.Plain) : parse? j.renderText = some j := by
  have hread := plain.readBack (2 * (render j).length + 2) (by omega) closes_nil
  rw [List.append_nil] at hread
  simp only [parse?, renderText, String.toList_ofList, hread]
  rfl

end StateEngine.Json
