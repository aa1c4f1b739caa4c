import PolarPlot.Document.Json.Printer
import PolarPlot.Proofs.Documents
import PolarPlot.Proofs.Numerals
import PolarPlot.Proofs.Printing

/-!
# JSON read back

Data comes back from its JSON text, on one line or with any indent (`Json.read_text`), as long as it
has nothing that JSON cannot say (`Datum.Lossless`).
-/

namespace PolarPlot.Document

open Number Text

namespace Json

/-! ## Strings -/

theorem toList_hex {n : Nat} (h : n < 0x20) :
    (hex 4 n).toList = ['0', '0', (n / 16).digitChar, (n % 16).digitChar] := by
  have hrow : ∀ n < 0x20, List.replicate (4 - (Nat.toDigits 16 n).length) '0' ++ Nat.toDigits 16 n =
      ['0', '0', (n / 16).digitChar, (n % 16).digitChar] := by decide
  rw [← hrow n h]
  simp [hex]

theorem hexFour?_hex {n : Nat} (h : n < 0x20) (c : Char) (cs : List Char) :
    hexFour? ((hex 4 n).toList ++ c :: cs) = some n := by
  have hdigit : ∀ n < 0x20, hexDigit? (n / 16).digitChar = some (n / 16) ∧
      hexDigit? (n % 16).digitChar = some (n % 16) := by decide
  obtain ⟨hhigh, hlow⟩ := hdigit n h
  have hzero : hexDigit? '0' = some 0 := rfl
  rw [toList_hex h]
  simp only [List.cons_append, List.nil_append, hexFour?, hzero, hhigh, hlow]
  exact congrArg some (by omega)

/-- A control character is no half of a pair, so its escape is read alone. -/
theorem readUnicode_hex {n : Nat} (h : n < 0x20) (c : Char) (cs : List Char) (offset : Nat) :
    readUnicode ⟨'u' :: ((hex 4 n).toList ++ c :: cs), offset⟩ =
      .ok (n, ⟨c :: cs, offset + 5⟩) := by
  have hafter : Place.drop ⟨'u' :: ((hex 4 n).toList ++ c :: cs), offset⟩ 5 =
      ⟨c :: cs, offset + 5⟩ := by
    rw [toList_hex h]
    rfl
  have hhigh : isHighSurrogate n = false := by
    simp only [isHighSurrogate, Bool.and_eq_false_iff, decide_eq_false_iff_not]
    omega
  simp only [readUnicode, List.drop_succ_cons, List.drop_zero, hexFour?_hex h, hafter]
  split
  · rw [hhigh]
    rfl
  · rfl

section Codes

variable {start fuel offset : Nat} {seen : List Nat}

theorem readCodes_unicode {cs : List Char} {code : Nat} {p : Place}
    (h : readUnicode ⟨'u' :: cs, offset + 1⟩ = .ok (code, p)) :
    readCodes start (fuel + 1) ⟨'\\' :: 'u' :: cs, offset⟩ seen =
      readCodes start fuel p (code :: seen) := by
  have hdrop : Place.drop ⟨'\\' :: 'u' :: cs, offset⟩ 1 = ⟨'u' :: cs, offset + 1⟩ := rfl
  simp only [readCodes, hdrop, h]

theorem readCodes_plain {c : Char} (hquote : c ≠ '"') (hbackslash : c ≠ '\\')
    (hcontrol : ¬ c.toNat < 0x20) (rest : List Char) :
    readCodes start (fuel + 1) ⟨c :: rest, offset⟩ seen =
      readCodes start fuel ⟨rest, offset + 1⟩ (c.toNat :: seen) := by
  rw [readCodes]
  split
  · rename_i heq
    cases heq
  · rename_i heq
    cases heq
    exact (hquote rfl).elim
  · rename_i heq
    cases heq
    exact (hbackslash rfl).elim
  · rename_i heq
    cases heq
    exact (hbackslash rfl).elim
  · rename_i heq
    cases heq
    exact (hbackslash rfl).elim
  · rename_i heq
    cases heq
    rw [if_neg hcontrol]
    rfl

/-- A character of a string comes back from its escape. -/
theorem readCodes_escapeChar (start fuel offset : Nat) (seen : List Nat) (c : Char)
    {rest : List Char} (hrest : rest ≠ []) :
    ∃ offset',
    readCodes start (fuel + 1) ⟨(escapeChar c).toList ++ rest, offset⟩ seen =
      readCodes start fuel ⟨rest, offset'⟩ (c.toNat :: seen) := by
  unfold escapeChar
  split
  · exact ⟨_, rfl⟩
  · exact ⟨_, rfl⟩
  · exact ⟨_, rfl⟩
  · exact ⟨_, rfl⟩
  · exact ⟨_, rfl⟩
  · exact ⟨_, rfl⟩
  · exact ⟨_, rfl⟩
  · rename_i hquote hbackslash _ _ _ _ _
    split
    · rename_i hcontrol
      obtain ⟨r, rs, rfl⟩ := List.exists_cons_of_ne_nil hrest
      have hunicode := readUnicode_hex hcontrol r rs (offset + 1)
      rw [String.toList_append]
      exact ⟨_, readCodes_unicode hunicode⟩
    · rename_i hcontrol
      rw [String.toList_singleton]
      exact ⟨_, readCodes_plain hquote hbackslash hcontrol rest⟩

/-- The characters of a string as they are written. -/
def escaped (cs : List Char) : List Char := cs.flatMap fun c => (escapeChar c).toList

theorem readCodes_escaped (cs rest : List Char) (hfuel : cs.length < fuel) : ∃ offset',
    readCodes start fuel ⟨escaped cs ++ '"' :: rest, offset⟩ seen =
      .ok (seen.reverse ++ cs.map Char.toNat, ⟨rest, offset'⟩) := by
  induction cs generalizing fuel seen offset with
  | nil =>
    obtain ⟨fuel, rfl⟩ := Nat.exists_eq_succ_of_ne_zero (Nat.ne_zero_of_lt hfuel)
    exact ⟨offset + 1, by simp [escaped, readCodes, Place.drop]⟩
  | cons c cs ih =>
    obtain ⟨fuel, rfl⟩ := Nat.exists_eq_succ_of_ne_zero (Nat.ne_zero_of_lt hfuel)
    have hne : escaped cs ++ '"' :: rest ≠ [] := by simp
    obtain ⟨middle, hc⟩ := readCodes_escapeChar start fuel offset seen c hne
    obtain ⟨last, hcs⟩ := @ih fuel middle (c.toNat :: seen) (Nat.lt_of_succ_lt_succ hfuel)
    refine ⟨last, ?_⟩
    rw [escaped, List.flatMap_cons, List.append_assoc]
    refine hc.trans (hcs.trans ?_)
    simp

end Codes

theorem toList_stringText (s : String) :
    (stringText s).toList = '"' :: (escaped s.toList ++ ['"']) := by
  simp [stringText, escaped, List.flatMap_map]

theorem length_le_escaped (cs : List Char) : cs.length ≤ (escaped cs).length := by
  have hchar : ∀ c, 0 < (escapeChar c).toList.length := by
    intro c
    unfold escapeChar
    split
    · decide
    · decide
    · decide
    · decide
    · decide
    · decide
    · decide
    · split <;> simp
  induction cs with
  | nil => exact Nat.le_refl _
  | cons c cs ih =>
    rw [escaped, List.flatMap_cons, List.length_append, List.length_cons, Nat.add_comm]
    exact Nat.add_le_add (hchar c) ih

theorem readString_stringText (s : String) (rest : List Char) (offset : Nat) : ∃ offset',
    readString ⟨(stringText s).toList ++ rest, offset⟩ =
      .ok (s.toList.map Char.toNat, ⟨rest, offset'⟩) := by
  have hfuel : s.toList.length < ((stringText s).toList ++ rest).length + 1 := by
    have hlength := length_le_escaped s.toList
    rw [toList_stringText, List.length_append, List.length_cons, List.length_append]
    omega
  have hdrop : Place.drop ⟨(stringText s).toList ++ rest, offset⟩ 1 =
      ⟨escaped s.toList ++ '"' :: rest, offset + 1⟩ := by
    simp [toList_stringText, Place.drop]
  rw [readString, hdrop]
  exact readCodes_escaped _ _ hfuel

theorem textScalar_toNat (s : String) : textScalar (s.toList.map Char.toNat) = .str s := by
  have hsurrogate : ∀ c : Char, isSurrogate c.toNat = false := by
    intro c
    have hvalid : c.toNat.isValidChar := c.valid
    simp only [isSurrogate, Bool.and_eq_false_iff, decide_eq_false_iff_not]
    unfold Nat.isValidChar at hvalid
    omega
  have hany : (s.toList.map Char.toNat).any isSurrogate = false := by
    simp [hsurrogate]
  have hchars : (s.toList.map Char.toNat).map codeChar = s.toList := by
    rw [List.map_map]
    refine (List.map_congr_left fun c _ => ?_).trans (List.map_id _)
    simp [codeChar, hsurrogate]
  rw [textScalar, hany, hchars]
  simp

/-! ## Numbers and words -/

/-- No word starts as a number does. -/
theorem not_isPrefixOf_chars {n : Numeral} (h : n.Sound) (rest : List Char) :
    ∀ word ∈ words, word.1.toList.isPrefixOf (n.chars ++ rest) = false := by
  obtain ⟨c, cs, hwhole, hc⟩ := h.head?_body
  have hne : ∀ l : Char, l.isDigit = false → (l == c) = false := by
    intro l hl
    rw [beq_eq_false_iff_ne]
    rintro rfl
    rw [hc] at hl
    cases hl
  have hletters : ('n' == c) = false ∧ ('t' == c) = false ∧ ('f' == c) = false ∧
      ('N' == c) = false ∧ ('I' == c) = false ∧ ('-' == c) = false :=
    ⟨hne _ rfl, hne _ rfl, hne _ rfl, hne _ rfl, hne _ rfl, hne _ rfl⟩
  obtain ⟨hn, ht, hf, hN, hI, hminus⟩ := hletters
  cases hnegative : n.negative <;>
    simp [words, Numeral.chars, Numeral.signChars, hnegative, hwhole, List.isPrefixOf, hn, ht,
      hf, hN, hI, hminus]

theorem readScalar_chars {n : Numeral} (h : n.Sound) (rest : List Char) (offset : Nat) :
    readScalar ⟨n.chars ++ rest, offset⟩ = readNumber ⟨n.chars ++ rest, offset⟩ := by
  have hnone : (words.find? fun word => word.1.toList.isPrefixOf (n.chars ++ rest)) = none := by
    rw [List.find?_eq_none]
    intro word hword
    exact Bool.eq_false_iff.mp (not_isPrefixOf_chars h rest word hword)
  simp only [readScalar, hnone]

/-- The text of a finite number is read as the number. -/
theorem readScalar_num {x : Float} (hx : IsFinite x) {rest : List Char} (hrest : EndsNumber rest)
    (offset : Nat) : ∃ offset',
      readScalar ⟨(shortest x).numeral.chars ++ rest, offset⟩ = .ok (.num x, ⟨rest, offset'⟩) := by
  refine ⟨offset + (shortest x).numeral.chars.length, ?_⟩
  rw [readScalar_chars (Decimal.sound_numeral _), readNumber_chars (Decimal.sound_numeral _) hrest,
    if_neg (Decimal.numeral_fraction _), Decimal.toFloat_numeral, toFloat_shortest hx]

/-- The digits of an integer. -/
def integerNumeral (n : Int) : Numeral := ⟨decide (n < 0), Nat.toDigits 10 n.natAbs, [], none⟩

theorem toList_integer (n : Int) : (toString n).toList = (integerNumeral n).chars := by
  rw [Int.toString_eq_repr, Int.repr_eq_if]
  by_cases hn : 0 ≤ n
  · have hnegative : ¬ n < 0 := Int.not_lt.mpr hn
    have habs : n.toNat = n.natAbs := by omega
    simp [if_pos hn, habs, integerNumeral, Numeral.chars, Numeral.signChars, Numeral.fractionChars,
      Numeral.exponentChars, hnegative]
  · have hnegative : n < 0 := Int.not_le.mp hn
    have habs : (-n).toNat = n.natAbs := by omega
    simp [if_neg hn, habs, integerNumeral, Numeral.chars, Numeral.signChars, Numeral.fractionChars,
      Numeral.exponentChars, hnegative]

theorem sound_integerNumeral (n : Int) : (integerNumeral n).Sound where
  whole := isDigit_toDigits _
  whole_ne := Nat.toDigits_ne_nil
  leading h := by
    have hzero : n.natAbs = 0 := toDigits_of_head? h
    simp [integerNumeral, hzero]
  fraction := by simp [integerNumeral]
  exponent := by simp [integerNumeral]

theorem readInteger?_integer (n : Int) : readInteger? (integerNumeral n).chars = some n := by
  have hbody : (integerNumeral n).body = Nat.toDigits 10 n.natAbs := by
    simp [Numeral.body, integerNumeral, Numeral.fractionChars, Numeral.exponentChars]
  have hall : (Nat.toDigits 10 n.natAbs).all isDigit :=
    List.all_eq_true.mpr fun c hc => isDigit_of_isDigit (isDigit_toDigits _ c hc)
  have hne : (Nat.toDigits 10 n.natAbs).isEmpty = false := by
    simp [Nat.toDigits_ne_nil]
  simp only [readInteger?, (sound_integerNumeral n).splitSign_chars, hbody, hall, hne,
    digitsValue_toDigits]
  have hsign : (if decide (n < 0) then -(n.natAbs : Int) else n.natAbs) = n := by
    simp only [decide_eq_true_eq]
    split <;> omega
  exact congrArg some hsign

/-- The text of an integer is read as the integer. -/
theorem readScalar_int {n : Int} (hn : (Nat.toDigits 10 n.natAbs).length ≤ integerDigitLimit)
    {rest : List Char} (hrest : EndsNumber rest) (offset : Nat) : ∃ offset',
      readScalar ⟨(toString n).toList ++ rest, offset⟩ = .ok (.int n, ⟨rest, offset'⟩) := by
  refine ⟨offset + (integerNumeral n).chars.length, ?_⟩
  have hsound := sound_integerNumeral n
  have hlimit : ¬ integerDigitLimit < (integerNumeral n).whole.length := Nat.not_lt.mpr hn
  rw [toList_integer, readScalar_chars hsound, readNumber_chars hsound hrest, if_pos ⟨rfl, rfl⟩,
    if_neg hlimit, readInteger?_integer]
  rfl

end Json

/-! ## Data that JSON can say -/

/-- A scalar that JSON can say, with few enough digits to be read. -/
def Scalar.Lossless : Scalar → Prop
  | .int n => (Nat.toDigits 10 n.natAbs).length ≤ integerDigitLimit
  | .rough _ | .date _ => False
  | _ => True

mutual

/-- Data that JSON can say. -/
def Datum.Lossless : Datum → Prop
  | .scalar s => s.Lossless
  | .list items => Datum.AllLossless items
  | .obj fields => (fields.map (·.1)).Nodup ∧ Datum.FieldsLossless fields

def Datum.AllLossless : List Datum → Prop
  | [] => True
  | d :: ds => d.Lossless ∧ Datum.AllLossless ds

def Datum.FieldsLossless : List (String × Datum) → Prop
  | [] => True
  | (_, d) :: fields => d.Lossless ∧ Datum.FieldsLossless fields

end

theorem Datum.allLossless_iff {ds : List Datum} : Datum.AllLossless ds ↔ ∀ d ∈ ds, d.Lossless := by
  induction ds with
  | nil => simp [AllLossless]
  | cons d ds ih => rw [AllLossless, ih, List.forall_mem_cons]

theorem Datum.fieldsLossless_iff {fields : List (String × Datum)} :
    Datum.FieldsLossless fields ↔ ∀ f ∈ fields, f.2.Lossless := by
  induction fields with
  | nil => simp [FieldsLossless]
  | cons f fields ih =>
    obtain ⟨key, d⟩ := f
    rw [FieldsLossless, ih, List.forall_mem_cons]

namespace Json

/-- A text says some data: it is read as the data, up to its end. Two steps of fuel for each
character are enough. -/
structure Says (cs : List Char) (d : Datum) : Prop where
  first : ∃ c rest, cs = c :: rest ∧ isSpace c = false ∧ c ∉ [']', '\x7d', '\ufeff']
  read : ∀ {fuel : Nat} {rest : List Char}, 2 * cs.length ≤ fuel → EndsNumber rest → ∀ offset,
    ∃ offset', readValue fuel ⟨cs ++ rest, offset⟩ = .ok (d, ⟨rest, offset'⟩)

/-! ## Scalars -/

theorem readValue_scalar {c : Char} (hc : c ∉ ['"', '[', '\x7b']) (fuel : Nat) (cs : List Char)
    (offset : Nat) : readValue (fuel + 1) ⟨c :: cs, offset⟩ =
      (readScalar ⟨c :: cs, offset⟩).map fun (s, p) => (.scalar s, p) := by
  rw [readValue]
  split
  · rename_i heq
    cases heq
    exact (hc (by decide)).elim
  · rename_i heq
    cases heq
    exact (hc (by decide)).elim
  · rename_i heq
    cases heq
    exact (hc (by decide)).elim
  · rfl

/-- A text that is read as a scalar says it. -/
theorem says_scalar {c : Char} {cs : List Char} {s : Scalar} (hspace : isSpace c = false)
    (hc : c ∉ ['"', '[', '\x7b'] ++ [']', '\x7d', '\ufeff'])
    (h : ∀ {rest : List Char}, EndsNumber rest → ∀ offset,
      ∃ offset', readScalar ⟨c :: cs ++ rest, offset⟩ = .ok (s, ⟨rest, offset'⟩)) :
    Says (c :: cs) (.scalar s) where
  first := ⟨c, cs, rfl, hspace, fun hmem => hc (List.mem_append_right _ hmem)⟩
  read := by
    intro fuel rest hfuel hrest offset
    rw [List.length_cons] at hfuel
    obtain ⟨fuel, rfl⟩ : ∃ n, fuel = n + 1 := ⟨fuel - 1, by omega⟩
    obtain ⟨offset', hread⟩ := h hrest offset
    refine ⟨offset', ?_⟩
    rw [List.cons_append] at hread ⊢
    rw [readValue_scalar (fun hmem => hc (List.mem_append_left _ hmem)), hread]
    rfl

theorem says_chars {n : Numeral} (hn : n.Sound) {s : Scalar}
    (h : ∀ {rest : List Char}, EndsNumber rest → ∀ offset,
      ∃ offset', readScalar ⟨n.chars ++ rest, offset⟩ = .ok (s, ⟨rest, offset'⟩)) :
    Says n.chars (.scalar s) := by
  have hdigit : ∀ c : Char, c.isDigit → isSpace c = false ∧
      c ∉ ['"', '[', '\x7b'] ++ [']', '\x7d', '\ufeff'] := by
    intro c hc
    have hmarks : ∀ m ∈ [' ', '\t', '\n', '\r', '"', '[', '\x7b', ']', '\x7d', '\ufeff'],
        c ≠ m := by
      rintro m hm rfl
      have hnone : ∀ m ∈ [' ', '\t', '\n', '\r', '"', '[', '\x7b', ']', '\x7d', '\ufeff'],
          m.isDigit = false := by simp [Char.isDigit]
      rw [hnone c hm] at hc
      cases hc
    simpa [isSpace, and_assoc] using hmarks
  obtain ⟨c, cs, hwhole, hc⟩ := hn.head?_body
  rw [Numeral.chars] at h ⊢
  cases hnegative : n.negative with
  | true =>
    rw [hnegative] at h
    exact says_scalar rfl (by decide) h
  | false =>
    rw [hnegative, hwhole] at h
    rw [hwhole]
    exact says_scalar (hdigit c hc).1 (hdigit c hc).2 h

theorem says_num (x : Float) : Says (numberText x).toList (.scalar (.num x)) := by
  rw [numberText]
  split
  · rename_i hnan
    rw [eq_nan hnan]
    exact says_scalar rfl (by decide) fun _ _ => ⟨_, rfl⟩
  · rename_i hnan
    split
    · rename_i hinf
      obtain rfl | rfl := eq_infinity hinf
      · rw [if_neg (by decide)]
        exact says_scalar rfl (by decide) fun _ _ => ⟨_, rfl⟩
      · rw [if_pos (by decide)]
        exact says_scalar rfl (by decide) fun _ _ => ⟨_, rfl⟩
    · rename_i hinf
      have hplain : plainText x = Layout.plain.text (shortest x) := by
        rw [plainText, withSpecial, if_neg hnan, if_neg hinf]
      have hfinite : IsFinite x :=
        isFinite_of (Bool.eq_false_iff.mpr hnan) (Bool.eq_false_iff.mpr hinf)
      rw [hplain, toList_plain]
      exact says_chars (Decimal.sound_numeral _) fun hrest => readScalar_num hfinite hrest

theorem says_str (s : String) : Says (stringText s).toList (.scalar (.str s)) where
  first := ⟨'"', _, toList_stringText s, rfl, by decide⟩
  read := by
    intro fuel rest hfuel _ offset
    rw [toList_stringText, List.length_cons] at hfuel
    obtain ⟨fuel, rfl⟩ : ∃ n, fuel = n + 1 := ⟨fuel - 1, by omega⟩
    obtain ⟨offset', hread⟩ := readString_stringText s rest offset
    have hvalue : readValue (fuel + 1) ⟨(stringText s).toList ++ rest, offset⟩ =
        (readString ⟨(stringText s).toList ++ rest, offset⟩).map fun r =>
          (.scalar (textScalar r.1), r.2) := by
      rw [toList_stringText, List.cons_append, readValue]
      rfl
    refine ⟨offset', ?_⟩
    rw [hvalue, hread]
    simp only [Except.map, textScalar_toNat]

theorem says_scalarText {s : Scalar} (h : s.Lossless) : Says (scalarText s).toList (.scalar s) := by
  cases s with
  | null => exact says_scalar rfl (by decide) fun _ _ => ⟨_, rfl⟩
  | bool b => cases b <;> exact says_scalar rfl (by decide) fun _ _ => ⟨_, rfl⟩
  | int n =>
    have hread := fun {rest} hrest => @readScalar_int n h rest hrest
    rw [toList_integer] at hread
    rw [scalarText, toList_integer]
    exact says_chars (sound_integerNumeral n) hread
  | num x => exact says_num x
  | str s => exact says_str s
  | rough | date => cases h

/-! ## Parts between brackets -/

theorem skipSpace_append {blank : List Char} (hblank : ∀ c ∈ blank, isSpace c) {c : Char}
    (hc : isSpace c = false) (cs : List Char) (offset : Nat) :
    Place.skipSpace ⟨blank ++ c :: cs, offset⟩ = ⟨c :: cs, offset + blank.length⟩ := by
  have htake : (blank ++ c :: cs).takeWhile isSpace = blank := by
    rw [List.takeWhile_append_of_pos hblank, List.takeWhile_cons_of_neg (Bool.eq_false_iff.mp hc),
      List.append_nil]
  simp only [Place.skipSpace, Place.drop, htake, List.drop_left]

theorem Says.skipSpace {cs : List Char} {d : Datum} (h : Says cs d) {blank : List Char}
    (hblank : ∀ c ∈ blank, isSpace c) (rest : List Char) (offset : Nat) :
    Place.skipSpace ⟨blank ++ (cs ++ rest), offset⟩ = ⟨cs ++ rest, offset + blank.length⟩ := by
  obtain ⟨c, tail, rfl, hc, -⟩ := h.first
  exact skipSpace_append hblank hc _ offset

theorem endsNumber_cons {c : Char} (h : isSpace c ∨ c ∈ [',', ']', '\x7d']) (cs : List Char) :
    EndsNumber (c :: cs) := by
  rintro _ ⟨⟩
  have hmarks : c ∈ [' ', '\t', '\n', '\r', ',', ']', '\x7d'] := by
    simpa [isSpace, or_assoc] using h
  have hends : ∀ c ∈ [' ', '\t', '\n', '\r', ',', ']', '\x7d'],
      isDecimal c = false ∧ c ≠ '.' ∧ c ≠ 'e' ∧ c ≠ 'E' := by simp [isDecimal]
  exact hends c hmarks

/-- The parts after the first, and what closes them. -/
def spread (gap closing : List Char) (parts : List (List Char)) : List Char :=
  parts.flatMap (fun part => ',' :: (gap ++ part)) ++ closing

theorem spread_nil (gap closing : List Char) : spread gap closing [] = closing := rfl

theorem spread_cons (gap closing part : List Char) (parts : List (List Char)) :
    spread gap closing (part :: parts) = ',' :: (gap ++ (part ++ spread gap closing parts)) := by
  simp [spread]

theorem endsNumber_spread (gap : List Char) {blank : List Char} (hblank : ∀ c ∈ blank, isSpace c)
    {last : Char} (hlast : last ∈ [']', '\x7d']) (parts : List (List Char)) (rest : List Char) :
    EndsNumber (spread gap (blank ++ [last]) parts ++ rest) := by
  cases parts with
  | nil =>
    cases blank with
    | nil => exact endsNumber_cons (.inr (.tail _ hlast)) _
    | cons c blank => exact endsNumber_cons (.inl (hblank c (.head _))) _
  | cons part parts =>
    rw [spread_cons]
    exact endsNumber_cons (.inr (.head _)) _

/-- On one line or on many, only blanks stand between the brackets, the commas and the parts. -/
theorem toList_enclose (opening closing : String) (indent : Option Nat) (depth : Nat)
    (part : String) (parts : List String) :
    ∃ before gap after : List Char, (∀ c ∈ before ++ gap ++ after, isSpace c) ∧
      (enclose opening closing indent depth (part :: parts)).toList =
        opening.toList ++ (before ++ (part.toList ++
          spread gap (after ++ closing.toList) (parts.map String.toList))) := by
  cases indent with
  | none =>
    refine ⟨[], [' '], [], by simp [isSpace], ?_⟩
    simp [enclose, lineBreak, -String.toList_intercalate, Grammar.toList_intercalate_cons, spread,
      List.flatMap_map]
  | some n =>
    refine ⟨(lineBreak (some n) (depth + 1)).toList, (lineBreak (some n) (depth + 1)).toList,
      (lineBreak (some n) depth).toList, ?_, ?_⟩
    · have hbreak : ∀ k, ∀ c ∈ (lineBreak (some n) k).toList, isSpace c := by
        intro k c hc
        simp only [lineBreak, String.toList_append, String.toList_ofList, List.mem_append,
          List.mem_replicate] at hc
        obtain hc | ⟨-, rfl⟩ := hc
        · obtain rfl : c = '\n' := by simpa using hc
          rfl
        · rfl
      intro c hc
      obtain hc | hc := List.mem_append.mp hc
      · obtain hc | hc := List.mem_append.mp hc <;> exact hbreak _ c hc
      · exact hbreak _ c hc
    · simp [enclose, -String.toList_intercalate, Grammar.toList_intercalate_cons, spread,
        List.flatMap_map]

section Containers

variable {fuel offset : Nat} {p q : Place} {d : Datum} {cs rest : List Char}

theorem readItems_last (hvalue : readValue fuel p = .ok (d, q))
    (hq : q.skipSpace = ⟨']' :: cs, offset⟩) :
    readItems (fuel + 1) p = .ok ([d], ⟨cs, offset + 1⟩) := by
  simp only [readItems, hvalue, hq]
  rfl

theorem readItems_next (hvalue : readValue fuel p = .ok (d, q))
    (hq : q.skipSpace = ⟨',' :: cs, offset⟩) :
    readItems (fuel + 1) p =
      (readItems fuel (Place.skipSpace ⟨cs, offset + 1⟩)).map fun (ds, p) => (d :: ds, p) := by
  simp only [readItems, hvalue, hq]
  rfl

theorem skipSpace_cons {c : Char} (hc : isSpace c = false) (cs : List Char) (offset : Nat) :
    Place.skipSpace ⟨c :: cs, offset⟩ = ⟨c :: cs, offset⟩ :=
  @skipSpace_append [] (by simp) c hc cs offset

variable {gap blank : List Char} {value : Datum → List Char}

theorem readItems_spread (hgap : ∀ c ∈ gap, isSpace c) (hblank : ∀ c ∈ blank, isSpace c)
    {ds : List Datum} (h : ∀ x ∈ d :: ds, Says (value x) x)
    (hfuel : 2 * (value d ++ spread gap (blank ++ [']']) (ds.map value)).length ≤ fuel)
    (rest : List Char) (offset : Nat) : ∃ offset',
      readItems fuel ⟨value d ++ (spread gap (blank ++ [']']) (ds.map value) ++ rest), offset⟩ =
        .ok (d :: ds, ⟨rest, offset'⟩) := by
  have hlast : ']' ∈ [']', '\x7d'] := .head _
  -- the comma before each further item pays for the step that reads it
  induction ds generalizing d fuel offset with
  | nil =>
    rw [List.map_nil, spread_nil, List.length_append, List.length_append,
      List.length_singleton] at hfuel
    obtain ⟨fuel, rfl⟩ : ∃ n, fuel = n + 1 := ⟨fuel - 1, by omega⟩
    have hvalue : 2 * (value d).length ≤ fuel := by omega
    obtain ⟨middle, hd⟩ :=
      (h d (.head _)).read hvalue (endsNumber_spread gap hblank hlast [] rest) offset
    have hclose := skipSpace_append hblank (c := ']') rfl rest middle
    rw [spread_nil, List.append_assoc] at hd
    rw [List.map_nil, spread_nil, List.append_assoc]
    exact ⟨_, readItems_last hd hclose⟩
  | cons e ds ih =>
    rw [List.map_cons, spread_cons, List.length_append, List.length_cons,
      List.length_append] at hfuel
    obtain ⟨fuel, rfl⟩ : ∃ n, fuel = n + 1 := ⟨fuel - 1, by omega⟩
    have hvalue : 2 * (value d).length ≤ fuel := by omega
    have hvalues : 2 * (value e ++ spread gap (blank ++ [']']) (ds.map value)).length ≤ fuel := by
      omega
    obtain ⟨middle, hd⟩ :=
      (h d (.head _)).read hvalue
        (endsNumber_spread gap hblank hlast ((e :: ds).map value) rest) offset
    have hopen := (h e (.tail _ (.head _))).skipSpace hgap
      (spread gap (blank ++ [']']) (ds.map value) ++ rest) (middle + 1)
    obtain ⟨last, hds⟩ := ih (fun x hx => h x (.tail _ hx)) hvalues (middle + 1 + gap.length)
    refine ⟨last, ?_⟩
    rw [List.map_cons, spread_cons, List.cons_append, List.append_assoc, List.append_assoc] at hd ⊢
    rw [readItems_next hd (skipSpace_cons rfl _ _), hopen, hds]
    rfl

theorem readValue_list (h : Place.skipSpace ⟨cs, offset + 1⟩ = q)
    (hq : ∃ c tail, q.rest = c :: tail ∧ c ≠ ']') :
    readValue (fuel + 1) ⟨'[' :: cs, offset⟩ =
      (readItems fuel q).map fun (items, p) => (.list items, p) := by
  have hdrop : Place.drop ⟨'[' :: cs, offset⟩ 1 = ⟨cs, offset + 1⟩ := rfl
  obtain ⟨c, tail, htail, hc⟩ := hq
  simp only [readValue, hdrop, h, htail]
  split
  · rename_i heq
    cases heq
    exact (hc rfl).elim
  · rfl

/-- The text of a field. -/
def fieldChars (value : Datum → List Char) (f : String × Datum) : List Char :=
  (stringText f.1).toList ++ ':' :: ' ' :: value f.2

theorem length_le_fieldChars (value : Datum → List Char) (f : String × Datum) :
    (value f.2).length ≤ (fieldChars value f).length := by
  rw [fieldChars, List.length_append, List.length_cons, List.length_cons]
  omega

theorem skipSpace_fieldChars (hgap : ∀ c ∈ gap, isSpace c) (value : Datum → List Char)
    (f : String × Datum) (rest : List Char) (offset : Nat) :
    Place.skipSpace ⟨gap ++ (fieldChars value f ++ rest), offset⟩ =
      ⟨fieldChars value f ++ rest, offset + gap.length⟩ := by
  rw [fieldChars, toList_stringText]
  exact skipSpace_append hgap rfl _ offset

/-- A field is read, and what stands after it says whether there are more. -/
theorem readFields_field {f : String × Datum} (h : Says (value f.2) f.2)
    (hfuel : 2 * (value f.2).length ≤ fuel) (hrest : EndsNumber rest) (offset : Nat)
    (seen : List (String × Datum)) : ∃ middle,
      (∀ {cs last}, Place.skipSpace ⟨rest, middle⟩ = ⟨'\x7d' :: cs, last⟩ →
        readFields (fuel + 1) ⟨fieldChars value f ++ rest, offset⟩ seen =
          .ok (setField f.1 f.2 seen, ⟨cs, last + 1⟩)) ∧
      ∀ {cs last}, Place.skipSpace ⟨rest, middle⟩ = ⟨',' :: cs, last⟩ →
        readFields (fuel + 1) ⟨fieldChars value f ++ rest, offset⟩ seen =
          readFields fuel (Place.skipSpace ⟨cs, last + 1⟩) (setField f.1 f.2 seen) := by
  obtain ⟨colon, hkey⟩ := readString_stringText f.1 (':' :: ' ' :: (value f.2 ++ rest)) offset
  have hcolon := skipSpace_cons (c := ':') rfl (' ' :: (value f.2 ++ rest)) colon
  have hspace : Place.skipSpace ⟨' ' :: (value f.2 ++ rest), colon + 1⟩ =
      ⟨value f.2 ++ rest, colon + 1 + 1⟩ :=
      @Says.skipSpace _ _ h [' '] (by simp [isSpace]) rest (colon + 1)
  obtain ⟨middle, hvalue⟩ := h.read hfuel hrest (colon + 1 + 1)
  have hdrop : ∀ c cs offset, Place.drop ⟨c :: cs, offset⟩ 1 = ⟨cs, offset + 1⟩ := fun _ _ _ => rfl
  rw [fieldChars, List.append_assoc, List.cons_append, List.cons_append]
  rw [toList_stringText, List.cons_append] at hkey ⊢
  refine ⟨middle, ?_, ?_⟩
  · intro cs last hlast
    simp only [readFields, hkey, textScalar_toNat, Scalar.display, hcolon, hdrop, hspace,
      hvalue, hlast]
  · intro cs last hlast
    simp only [readFields, hkey, textScalar_toNat, Scalar.display, hcolon, hdrop, hspace,
      hvalue, hlast]

theorem setField_of_nodup {f : String × Datum} {seen fields : List (String × Datum)}
    (h : ((seen ++ f :: fields).map (·.1)).Nodup) : setField f.1 f.2 seen = seen ++ [f] := by
  induction seen with
  | nil => rfl
  | cons g seen ih =>
    rw [List.cons_append, List.map_cons, List.nodup_cons] at h
    have hne : g.1 ≠ f.1 := by
      intro heq
      exact h.1 (by simp [heq])
    rw [setField, if_neg (by simpa using hne), ih h.2, List.cons_append]

theorem readFields_spread (hgap : ∀ c ∈ gap, isSpace c) (hblank : ∀ c ∈ blank, isSpace c)
    {f : String × Datum} {fields seen : List (String × Datum)}
    (hkeys : ((seen ++ f :: fields).map (·.1)).Nodup) (h : ∀ g ∈ f :: fields, Says (value g.2) g.2)
    (hfuel : 2 * (fieldChars value f ++
      spread gap (blank ++ ['\x7d']) (fields.map (fieldChars value))).length ≤ fuel)
    (rest : List Char) (offset : Nat) : ∃ offset',
      readFields fuel ⟨fieldChars value f ++
        (spread gap (blank ++ ['\x7d']) (fields.map (fieldChars value)) ++ rest), offset⟩ seen =
          .ok (seen ++ f :: fields, ⟨rest, offset'⟩) := by
  have hlast : '\x7d' ∈ [']', '\x7d'] := .tail _ (.head _)
  induction fields generalizing f seen fuel offset with
  | nil =>
    rw [List.map_nil, spread_nil, List.length_append, List.length_append,
      List.length_singleton] at hfuel
    obtain ⟨fuel, rfl⟩ : ∃ n, fuel = n + 1 := ⟨fuel - 1, by omega⟩
    have hvalue : 2 * (value f.2).length ≤ fuel := by
      have hlength := length_le_fieldChars value f
      omega
    obtain ⟨middle, hread, -⟩ := readFields_field (h f (.head _)) hvalue
      (endsNumber_spread gap hblank hlast [] rest) offset seen
    have hclose := skipSpace_append hblank (c := '\x7d') rfl rest middle
    rw [spread_nil, List.append_assoc, setField_of_nodup hkeys] at hread
    rw [List.map_nil, spread_nil, List.append_assoc]
    exact ⟨_, hread hclose⟩
  | cons g fields ih =>
    rw [List.map_cons, spread_cons, List.length_append, List.length_cons,
      List.length_append] at hfuel
    obtain ⟨fuel, rfl⟩ : ∃ n, fuel = n + 1 := ⟨fuel - 1, by omega⟩
    have hvalue : 2 * (value f.2).length ≤ fuel := by
      have hlength := length_le_fieldChars value f
      omega
    have hvalues : 2 * (fieldChars value g ++
        spread gap (blank ++ ['\x7d']) (fields.map (fieldChars value))).length ≤ fuel := by omega
    obtain ⟨middle, -, hread⟩ := readFields_field (h f (.head _)) hvalue
      (endsNumber_spread gap hblank hlast ((g :: fields).map (fieldChars value)) rest) offset seen
    have hopen := skipSpace_fieldChars hgap value g
      (spread gap (blank ++ ['\x7d']) (fields.map (fieldChars value)) ++ rest) (middle + 1)
    have hseen : seen ++ f :: g :: fields = (seen ++ [f]) ++ g :: fields := by simp
    rw [hseen] at hkeys ⊢
    obtain ⟨last, hfields⟩ :=
      ih hkeys (fun x hx => h x (.tail _ hx)) hvalues (middle + 1 + gap.length)
    refine ⟨last, ?_⟩
    rw [List.map_cons, spread_cons, List.cons_append, List.append_assoc,
      List.append_assoc] at hread ⊢
    rw [hread (skipSpace_cons rfl _ _), hopen, setField_of_nodup (hseen ▸ hkeys), hfields]

theorem readValue_obj (h : Place.skipSpace ⟨cs, offset + 1⟩ = q)
    (hq : ∃ c tail, q.rest = c :: tail ∧ c ≠ '\x7d') :
    readValue (fuel + 1) ⟨'\x7b' :: cs, offset⟩ =
      (readFields fuel q []).map fun (fields, p) => (.obj fields, p) := by
  have hdrop : Place.drop ⟨'\x7b' :: cs, offset⟩ 1 = ⟨cs, offset + 1⟩ := rfl
  obtain ⟨c, tail, htail, hc⟩ := hq
  simp only [readValue, hdrop, h, htail]
  split
  · rename_i heq
    cases heq
    exact (hc rfl).elim
  · rfl

theorem says_items {before : List Char} (hbefore : ∀ c ∈ before, isSpace c)
    (hgap : ∀ c ∈ gap, isSpace c) (hblank : ∀ c ∈ blank, isSpace c) {ds : List Datum}
    (h : ∀ x ∈ d :: ds, Says (value x) x) :
    Says ('[' :: (before ++ (value d ++ spread gap (blank ++ [']']) (ds.map value))))
      (.list (d :: ds)) where
  first := ⟨'[', _, rfl, rfl, by decide⟩
  read := by
    intro fuel rest hfuel _ offset
    rw [List.length_cons, List.length_append] at hfuel
    obtain ⟨fuel, rfl⟩ : ∃ n, fuel = n + 1 := ⟨fuel - 1, by omega⟩
    have hparts : 2 * (value d ++ spread gap (blank ++ [']']) (ds.map value)).length ≤ fuel := by
      omega
    have hd := h d (.head _)
    have hopen :=
      hd.skipSpace hbefore (spread gap (blank ++ [']']) (ds.map value) ++ rest) (offset + 1)
    obtain ⟨last, hitems⟩ := readItems_spread hgap hblank h hparts rest (offset + 1 + before.length)
    have hfirst : ∃ c tail, value d ++ (spread gap (blank ++ [']']) (ds.map value) ++ rest) =
        c :: tail ∧ c ≠ ']' := by
      obtain ⟨c, tail, hvalue, -, hc⟩ := hd.first
      exact ⟨c, _, by rw [hvalue]; rfl, fun heq => hc (heq ▸ .head _)⟩
    refine ⟨last, ?_⟩
    rw [List.cons_append, List.append_assoc, List.append_assoc, readValue_list hopen hfirst, hitems]
    rfl

theorem says_fields {before : List Char} (hbefore : ∀ c ∈ before, isSpace c)
    (hgap : ∀ c ∈ gap, isSpace c) (hblank : ∀ c ∈ blank, isSpace c) {f : String × Datum}
    {fields : List (String × Datum)} (hkeys : ((f :: fields).map (·.1)).Nodup)
    (h : ∀ g ∈ f :: fields, Says (value g.2) g.2) :
    Says ('\x7b' :: (before ++ (fieldChars value f ++
      spread gap (blank ++ ['\x7d']) (fields.map (fieldChars value))))) (.obj (f :: fields)) where
  first := ⟨'\x7b', _, rfl, rfl, by decide⟩
  read := by
    intro fuel rest hfuel _ offset
    rw [List.length_cons, List.length_append] at hfuel
    obtain ⟨fuel, rfl⟩ : ∃ n, fuel = n + 1 := ⟨fuel - 1, by omega⟩
    have hparts : 2 * (fieldChars value f ++
        spread gap (blank ++ ['\x7d']) (fields.map (fieldChars value))).length ≤ fuel := by omega
    have hopen := skipSpace_fieldChars hbefore value f
      (spread gap (blank ++ ['\x7d']) (fields.map (fieldChars value)) ++ rest) (offset + 1)
    have hunseen : (([] ++ f :: fields).map Prod.fst).Nodup := hkeys
    obtain ⟨last, hfields⟩ :=
      readFields_spread hgap hblank hunseen h hparts rest (offset + 1 + before.length)
    have hfirst : ∃ c tail, fieldChars value f ++
        (spread gap (blank ++ ['\x7d']) (fields.map (fieldChars value)) ++ rest) = c :: tail ∧
          c ≠ '\x7d' := by
      rw [fieldChars, toList_stringText]
      exact ⟨'"', _, rfl, by decide⟩
    refine ⟨last, ?_⟩
    rw [List.cons_append, List.append_assoc, List.append_assoc, readValue_obj hopen hfirst, hfields]
    rfl

end Containers

/-- Items that their texts say make a list that its text says. -/
theorem says_list (indent : Option Nat) (depth : Nat) {text : Datum → String} {items : List Datum}
    (h : ∀ d ∈ items, Says (text d).toList d) :
    Says (enclose "[" "]" indent depth (items.map text)).toList (.list items) := by
  cases items with
  | nil =>
    have hnil : (enclose "[" "]" indent depth []).toList = ['[', ']'] := by simp [enclose]
    rw [List.map_nil, hnil]
    refine ⟨⟨'[', _, rfl, rfl, by decide⟩, ?_⟩
    intro fuel rest hfuel _ offset
    rw [List.length_cons] at hfuel
    obtain ⟨fuel, rfl⟩ : ∃ n, fuel = n + 1 := ⟨fuel - 1, by omega⟩
    exact ⟨offset + 2, rfl⟩
  | cons d ds =>
    obtain ⟨before, gap, after, hspace, htext⟩ :=
      toList_enclose "[" "]" indent depth (text d) (ds.map text)
    simp only [List.forall_mem_append] at hspace
    rw [List.map_cons, htext, List.map_map]
    have hitems := says_items hspace.1.1 hspace.1.2 hspace.2 h
    exact hitems

/-- Values that their texts say make an object that its text says. -/
theorem says_obj (indent : Option Nat) (depth : Nat) {text : Datum → String}
    {fields : List (String × Datum)} (hkeys : (fields.map (·.1)).Nodup)
    (h : ∀ f ∈ fields, Says (text f.2).toList f.2) :
    Says (enclose "\x7b" "\x7d" indent depth
      (fields.map fun f => stringText f.1 ++ ": " ++ text f.2)).toList (.obj fields) := by
  cases fields with
  | nil =>
    have hnil : (enclose "\x7b" "\x7d" indent depth []).toList = ['\x7b', '\x7d'] := by
      simp [enclose]
    rw [List.map_nil, hnil]
    refine ⟨⟨'\x7b', _, rfl, rfl, by decide⟩, ?_⟩
    intro fuel rest hfuel _ offset
    rw [List.length_cons] at hfuel
    obtain ⟨fuel, rfl⟩ : ∃ n, fuel = n + 1 := ⟨fuel - 1, by omega⟩
    exact ⟨offset + 2, rfl⟩
  | cons f fields =>
    obtain ⟨before, gap, after, hspace, htext⟩ :=
      toList_enclose "\x7b" "\x7d" indent depth (stringText f.1 ++ ": " ++ text f.2)
        (fields.map fun f => stringText f.1 ++ ": " ++ text f.2)
    have hfield : ∀ f : String × Datum, (stringText f.1 ++ ": " ++ text f.2).toList =
        fieldChars (fun d => (text d).toList) f := by
      intro f
      simp [fieldChars]
    simp only [List.forall_mem_append] at hspace
    rw [List.map_cons, htext, List.map_map, hfield]
    have hparts : fields.map (String.toList ∘ fun f => stringText f.1 ++ ": " ++ text f.2) =
        fields.map (fieldChars fun d => (text d).toList) := List.map_congr_left fun f _ => hfield f
    rw [hparts]
    exact says_fields hspace.1.1 hspace.1.2 hspace.2 hkeys h

theorem writeItems_eq (indent : Option Nat) (depth : Nat) (ds : List Datum) :
    writeItems indent depth ds = ds.map (write indent depth) := by
  induction ds with
  | nil => rfl
  | cons d ds ih => rw [writeItems, ih, List.map_cons]

theorem writeFields_eq (indent : Option Nat) (depth : Nat) (fields : List (String × Datum)) :
    writeFields indent depth fields =
      fields.map fun f => stringText f.1 ++ ": " ++ write indent depth f.2 := by
  induction fields with
  | nil => rfl
  | cons f fields ih => rw [writeFields, ih, List.map_cons]

/-- What is written says what it was written for. -/
theorem says_write {d : Datum} (h : d.Lossless) (indent : Option Nat) (depth : Nat) :
    Says (write indent depth d).toList d := by
  induction d generalizing depth with
  | scalar s =>
    rw [Datum.Lossless] at h
    exact says_scalarText h
  | list items ih =>
    rw [Datum.Lossless, Datum.allLossless_iff] at h
    rw [write, writeItems_eq]
    exact says_list indent depth fun d hd => ih d hd (h d hd) (depth + 1)
  | obj fields ih =>
    rw [Datum.Lossless, Datum.fieldsLossless_iff] at h
    rw [write, writeFields_eq]
    exact says_obj indent depth h.1 fun f hf => ih f hf (h.2 f hf) (depth + 1)

/-- Data comes back from its text, on one line or with any indent. -/
theorem read_text {d : Datum} (h : d.Lossless) (indent : Option Nat) :
    Json.read (Json.text indent d).toList = .ok d := by
  have hsays := says_write h indent 0
  obtain ⟨c, tail, htext, hspace, hc⟩ := hsays.first
  have hskip : Place.skipSpace ⟨(write indent 0 d).toList, 0⟩ = ⟨(write indent 0 d).toList, 0⟩ := by
    rw [htext]
    exact skipSpace_cons hspace tail 0
  have hend : EndsNumber [] := by rintro _ ⟨⟩
  obtain ⟨last, hvalue⟩ := hsays.read (Nat.le_add_right _ 2) hend 0
  rw [List.append_nil] at hvalue
  rw [text, Json.read, hskip, hvalue]
  · rfl
  · intro rest hmark
    rw [htext] at hmark
    cases hmark
    exact hc (.tail _ (.tail _ (.head _)))

end Json

end PolarPlot.Document
