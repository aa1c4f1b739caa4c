import PolarPlot.Document.Json.Reader
import PolarPlot.Proofs.Rounding

/-!
# Numbers as they are written

A `Numeral` is a number in ordinary or scientific form. It is read as the decimal that it spells
(`Numeral.Sound.read?_chars`), also with more text after it (`Json.readNumber_chars`). The text of a
decimal is the text of a numeral (`toList_plain`) that spells the same number
(`Decimal.toFloat_numeral`).
-/

namespace PolarPlot.Number

open Text

/-! ## Rows of digits -/

section Digits

variable {c : Char} {cs : List Char} {n : Nat}

theorem digit?_of_isDigit (h : c.isDigit) : digit? c = some (c.toNat - '0'.toNat) := by
  have hrange : '0' ≤ c ∧ c ≤ '9' := by
    rw [Char.isDigit, Bool.and_eq_true, decide_eq_true_eq, decide_eq_true_eq] at h
    exact h
  rw [digit?, if_pos hrange]

theorem isDigit_of_isDigit (h : c.isDigit) : isDigit c := by
  rw [isDigit, digit?_of_isDigit h]
  rfl

theorem digitsValue_eq_ofDigitChars (h : ∀ c ∈ cs, c.isDigit) :
    digitsValue cs = Nat.ofDigitChars 10 cs 0 := by
  apply List.foldl_ext
  intro n c hc
  rw [digit?_of_isDigit (h c hc)]
  rfl

theorem isDigit_toDigits (n : Nat) : ∀ c ∈ Nat.toDigits 10 n, c.isDigit :=
  fun _ hc => Nat.isDigit_of_mem_toDigits (by norm_num) le_rfl hc

theorem digitsValue_toDigits (n : Nat) : digitsValue (Nat.toDigits 10 n) = n := by
  rw [digitsValue_eq_ofDigitChars (isDigit_toDigits n), Nat.ofDigitChars_ten_toDigits]

theorem digitsValue_concat (cs : List Char) (c : Char) :
    digitsValue (cs ++ [c]) = 10 * digitsValue cs + (digit? c).getD 0 := by
  simp [digitsValue]

theorem digitsValue_zeros_append (k : Nat) (cs : List Char) :
    digitsValue (List.replicate k '0' ++ cs) = digitsValue cs := by
  induction k with
  | zero => rfl
  | succ k ih => exact ih

theorem digitsValue_append_zeros (cs : List Char) (k : Nat) :
    digitsValue (cs ++ List.replicate k '0') = digitsValue cs * 10 ^ k := by
  induction k with
  | zero => simp
  | succ k ih =>
    rw [List.replicate_succ', ← List.append_assoc, digitsValue_concat, ih,
      digit?_of_isDigit (by decide), pow_succ]
    simp
    ring

theorem head?_toDigits (hn : n ≠ 0) : (Nat.toDigits 10 n).head? ≠ some '0' := by
  have hdigit : ∀ n < 10, n ≠ 0 → [n.digitChar].head? ≠ some '0' := by decide
  induction n using Nat.strongRecOn with
  | ind n ih =>
    by_cases hlt : n < 10
    · rw [Nat.toDigits_of_lt_base hlt]
      exact hdigit n hlt hn
    · rw [Nat.toDigits_of_base_le (by norm_num) (by omega),
        List.head?_append_of_ne_nil _ Nat.toDigits_ne_nil]
      exact ih (n / 10) (by omega) (by omega)

end Digits

/-! ## Numerals -/

/-- A number as it is written: digits, a fraction that may be empty, and perhaps an exponent with
its sign. -/
structure Numeral where
  negative : Bool
  whole : List Char
  fraction : List Char
  exponent : Option (Bool × List Char)

namespace Numeral

def signChars (negative : Bool) : List Char := if negative then ['-'] else []

def fractionChars : List Char → List Char
  | [] => []
  | cs => '.' :: cs

theorem fractionChars_of_ne {cs : List Char} (h : cs ≠ []) : fractionChars cs = '.' :: cs := by
  cases cs with
  | nil => exact (h rfl).elim
  | cons => rfl

def exponentChars : Option (Bool × List Char) → List Char
  | none => []
  | some (negative, cs) => 'e' :: (if negative then '-' else '+') :: cs

def chars (n : Numeral) : List Char :=
  signChars n.negative ++ n.whole ++ fractionChars n.fraction ++ exponentChars n.exponent

def exponentValue : Option (Bool × List Char) → Int
  | none => 0
  | some (negative, cs) => if negative then -(digitsValue cs : Int) else digitsValue cs

/-- The decimal that a numeral spells. -/
def toDecimal (n : Numeral) : Decimal :=
  ⟨n.negative, digitsValue (n.whole ++ n.fraction),
    -(n.fraction.length : Int) + exponentValue n.exponent⟩

/-- Digits wherever they belong, without zeros at the front. -/
structure Sound (n : Numeral) : Prop where
  whole : ∀ c ∈ n.whole, c.isDigit
  whole_ne : n.whole ≠ []
  leading : n.whole.head? = some '0' → n.whole = ['0']
  fraction : ∀ c ∈ n.fraction, c.isDigit
  exponent : ∀ e ∈ n.exponent, (∀ c ∈ e.2, c.isDigit) ∧ e.2 ≠ []

variable {n : Numeral}

theorem splitSign_digits {cs : List Char} (h : ∀ c ∈ cs.head?, c.isDigit) :
    splitSign cs = (false, cs) := by
  cases cs with
  | nil => rfl
  | cons c cs =>
    have hc : c.isDigit := h c rfl
    unfold splitSign
    split
    · rename_i heq
      cases heq
      cases hc
    · rename_i heq
      cases heq
      cases hc
    · rfl

theorem readInteger?_exponent {negative : Bool} {cs : List Char} (h : ∀ c ∈ cs, c.isDigit)
    (hne : cs ≠ []) : readInteger? ((if negative then '-' else '+') :: cs) =
      some (exponentValue (some (negative, cs))) := by
  have hall : cs.all isDigit := List.all_eq_true.mpr fun c hc => isDigit_of_isDigit (h c hc)
  cases negative <;> simp [readInteger?, splitSign, exponentValue, hall, hne]

/-- What a numeral has after its sign. -/
def body (n : Numeral) : List Char :=
  n.whole ++ fractionChars n.fraction ++ exponentChars n.exponent

theorem chars_eq (n : Numeral) : n.chars = signChars n.negative ++ n.body := by
  simp [chars, body]

theorem isDigit_ne {c : Char} (h : c.isDigit) : c ≠ '.' ∧ c ≠ 'e' ∧ c ≠ 'E' ∧ c ≠ '-' := by
  refine ⟨?_, ?_, ?_, ?_⟩ <;> rintro rfl <;> cases h

theorem Sound.head?_body (h : n.Sound) : ∃ c cs, n.whole = c :: cs ∧ c.isDigit := by
  obtain ⟨c, cs, hwhole⟩ := List.exists_cons_of_ne_nil h.whole_ne
  exact ⟨c, cs, hwhole, h.whole c (hwhole ▸ .head _)⟩

theorem Sound.splitSign_chars (h : n.Sound) : splitSign n.chars = (n.negative, n.body) := by
  rw [chars_eq]
  cases hnegative : n.negative with
  | true => rfl
  | false =>
    obtain ⟨c, cs, hwhole, hc⟩ := h.head?_body
    apply splitSign_digits
    intro d hd
    rw [signChars, body, hwhole] at hd
    cases hd
    exact hc

theorem Sound.takeWhile_body (h : n.Sound) :
    n.body.takeWhile (fun c => c ≠ 'e' && c ≠ 'E') = n.whole ++ fractionChars n.fraction := by
  have hexponent : (exponentChars n.exponent).takeWhile (fun c => c ≠ 'e' && c ≠ 'E') = [] := by
    cases n.exponent <;> rfl
  rw [body, List.takeWhile_append_of_pos, hexponent, List.append_nil]
  intro c hc
  obtain hc | hc := List.mem_append.mp hc
  · obtain ⟨-, he, hE, -⟩ := isDigit_ne (h.whole c hc)
    simp [he, hE]
  · have hfraction := h.fraction
    cases hn : n.fraction with
    | nil =>
      rw [hn] at hc
      cases hc
    | cons d ds =>
      rw [hn] at hc hfraction
      obtain rfl | hc := List.mem_cons.mp hc
      · rfl
      · obtain ⟨-, he, hE, -⟩ := isDigit_ne (hfraction c hc)
        simp [he, hE]

theorem Sound.takeWhile_mantissa (h : n.Sound) :
    (n.whole ++ fractionChars n.fraction).takeWhile (· ≠ '.') = n.whole := by
  have hfraction : (fractionChars n.fraction).takeWhile (· ≠ '.') = [] := by
    cases n.fraction <;> rfl
  rw [List.takeWhile_append_of_pos, hfraction, List.append_nil]
  intro c hc
  simpa using (isDigit_ne (h.whole c hc)).1

theorem Sound.dropWhile_mantissa (h : n.Sound) :
    ((n.whole ++ fractionChars n.fraction).dropWhile (· ≠ '.')).drop 1 = n.fraction := by
  have hfraction : ((fractionChars n.fraction).dropWhile (· ≠ '.')).drop 1 = n.fraction := by
    cases n.fraction <;> rfl
  rw [List.dropWhile_append_of_pos, hfraction]
  intro c hc
  simpa using (isDigit_ne (h.whole c hc)).1

/-- A numeral is read as the decimal that it spells. -/
theorem Sound.read?_chars (h : n.Sound) : Decimal.read? n.chars = some n.toDecimal := by
  have hwhole : n.whole.all isDigit :=
    List.all_eq_true.mpr fun c hc => isDigit_of_isDigit (h.whole c hc)
  have hfraction : n.fraction.all isDigit :=
    List.all_eq_true.mpr fun c hc => isDigit_of_isDigit (h.fraction c hc)
  have hnumeral : isNumeral (n.whole ++ fractionChars n.fraction) = true := by
    simp only [isNumeral, h.takeWhile_mantissa, h.dropWhile_mantissa, hwhole, hfraction]
    simp [h.whole_ne]
  have hdrop : n.body.drop (n.whole ++ fractionChars n.fraction).length =
      exponentChars n.exponent :=
    List.drop_left
  simp only [Decimal.read?, h.splitSign_chars, h.takeWhile_body, hnumeral, hdrop,
    Decimal.ofUnsigned, h.takeWhile_mantissa, h.dropWhile_mantissa]
  cases hexponent : n.exponent with
  | none => simp [exponentChars, toDecimal, hexponent, exponentValue]
  | some e =>
    obtain ⟨negative, cs⟩ := e
    obtain ⟨hdigits, hne⟩ := h.exponent _ hexponent
    simp [exponentChars, toDecimal, hexponent, readInteger?_exponent hdigits hne]

end Numeral

/-! ## The text of a number -/

/-- The digits of an exponent, at least two of them. -/
def exponentDigits (e : Int) : List Char :=
  if (Nat.toDigits 10 e.natAbs).length < 2 then '0' :: Nat.toDigits 10 e.natAbs
  else Nat.toDigits 10 e.natAbs

theorem toList_toString (n : Nat) : (toString n).toList = Nat.toDigits 10 n := by
  rw [Nat.toString_eq_ofList_toDigits, String.toList_ofList]

theorem length_toString (n : Nat) : (toString n).length = (Nat.toDigits 10 n).length := by
  rw [← String.length_toList, toList_toString]

theorem toList_exponentText (e : Int) :
    (exponentText e).toList = (if decide (e < 0) then '-' else '+') :: exponentDigits e := by
  unfold exponentText exponentDigits
  simp only [length_toString, decide_eq_true_eq]
  split <;> split <;> simp

theorem isDigit_exponentDigits (e : Int) : ∀ c ∈ exponentDigits e, c.isDigit := by
  unfold exponentDigits
  split
  · exact List.forall_mem_cons.mpr ⟨by decide, isDigit_toDigits _⟩
  · exact isDigit_toDigits _

theorem exponentDigits_ne (e : Int) : exponentDigits e ≠ [] := by
  unfold exponentDigits
  split
  · exact List.cons_ne_nil _ _
  · exact Nat.toDigits_ne_nil

theorem exponentValue_exponentDigits (e : Int) :
    Numeral.exponentValue (some (decide (e < 0), exponentDigits e)) = e := by
  have hvalue : digitsValue (exponentDigits e) = e.natAbs := by
    unfold exponentDigits
    split
    · exact (digitsValue_zeros_append 1 _).trans (digitsValue_toDigits _)
    · exact digitsValue_toDigits _
  rw [Numeral.exponentValue, hvalue]
  simp only [decide_eq_true_eq]
  split <;> omega

/-- The exponent of the first of some digits. -/
def Decimal.order (d : Decimal) : Int :=
  if d.digits = 0 then 0 else d.exponent + (Nat.toDigits 10 d.digits).length - 1

/-- The numeral that plain form writes. -/
def Decimal.numeral (d : Decimal) : Numeral :=
  let ds := Nat.toDigits 10 d.digits
  if d.order < -4 ∨ 16 ≤ d.order then
    ⟨d.negative, ds.take 1, ds.drop 1, some (decide (d.order < 0), exponentDigits d.order)⟩
  else if d.order < 0 then ⟨d.negative, ['0'], List.replicate (-d.order - 1).toNat '0' ++ ds, none⟩
  else if ds.length ≤ d.order.toNat + 1 then
    ⟨d.negative, ds ++ List.replicate (d.order.toNat + 1 - ds.length) '0', ['0'], none⟩
  else ⟨d.negative, ds.take (d.order.toNat + 1), ds.drop (d.order.toNat + 1), none⟩

theorem toList_plain (d : Decimal) : (Layout.plain.text d).toList = d.numeral.chars := by
  have hsign : (if d.negative then "-" else "" : String).toList = Numeral.signChars d.negative := by
    cases d.negative <;> rfl
  have horder :
      (if d.digits = 0 then 0 else d.exponent + ((Nat.toDigits 10 d.digits).length : Int) - 1) =
      d.order := rfl
  have hne : Nat.toDigits 10 d.digits ≠ [] := Nat.toDigits_ne_nil
  simp only [Layout.text, Layout.plain, String.toList_append, hsign, length_toString,
    toList_toString, horder, Decimal.numeral]
  generalize hds : Nat.toDigits 10 d.digits = ds at hne
  by_cases hfar : d.order < -4 ∨ 16 ≤ d.order
  · simp only [if_pos hfar, Numeral.chars, Numeral.exponentChars, String.toList_append,
      toList_exponentText, String.toList_ofList, List.append_assoc]
    cases ds.drop 1 <;> simp [Numeral.fractionChars]
  by_cases hlow : d.order < 0
  · simp only [if_neg hfar, if_pos hlow, Numeral.chars, Numeral.exponentChars]
    rw [Numeral.fractionChars_of_ne (by simp [hne])]
    simp [zeroRow, hds]
  by_cases hlong : ds.length ≤ d.order.toNat + 1
  · simp [if_neg hfar, if_neg hlow, if_pos hlong, Numeral.chars, Numeral.exponentChars,
      Numeral.fractionChars, zeroRow, hds]
  · simp only [if_neg hfar, if_neg hlow, if_neg hlong, Numeral.chars, Numeral.exponentChars]
    rw [Numeral.fractionChars_of_ne (by simpa using hlong)]
    simp

theorem toDigits_of_head? {n : Nat} (h : (Nat.toDigits 10 n).head? = some '0') : n = 0 := by
  by_contra hn
  exact head?_toDigits hn h

theorem Decimal.sound_numeral (d : Decimal) : d.numeral.Sound := by
  have hdigits := isDigit_toDigits d.digits
  have hne : Nat.toDigits 10 d.digits ≠ [] := Nat.toDigits_ne_nil
  have hzeros : ∀ k, ∀ c ∈ List.replicate k '0', c.isDigit := by
    intro k c hc
    rw [List.eq_of_mem_replicate hc]
    rfl
  unfold Decimal.numeral
  dsimp only
  split
  · refine ⟨fun c hc => hdigits c (List.mem_of_mem_take hc), ?_, ?_,
      fun c hc => hdigits c (List.mem_of_mem_drop hc), ?_⟩
    · simp [hne]
    · obtain ⟨c, cs, hds⟩ := List.exists_cons_of_ne_nil hne
      rw [hds]
      rintro ⟨⟩
      rfl
    · rintro _ ⟨⟩
      exact ⟨isDigit_exponentDigits _, exponentDigits_ne _⟩
  split
  · refine ⟨by simp, by simp, fun _ => rfl, ?_, by simp⟩
    intro c hc
    obtain hc | hc := List.mem_append.mp hc
    · exact hzeros _ c hc
    · exact hdigits c hc
  split
  · refine ⟨?_, by simp [hne], ?_, by simp, by simp⟩
    · intro c hc
      obtain hc | hc := List.mem_append.mp hc
      · exact hdigits c hc
      · exact hzeros _ c hc
    · intro hhead
      rw [List.head?_append_of_ne_nil _ hne] at hhead
      have hzero := toDigits_of_head? hhead
      simp [hzero, Decimal.order]
  · rename_i hlong
    refine ⟨fun c hc => hdigits c (List.mem_of_mem_take hc), by simp [hne], ?_,
      fun c hc => hdigits c (List.mem_of_mem_drop hc), by simp⟩
    intro hhead
    rw [List.head?_take] at hhead
    have hzero := toDigits_of_head? (by simpa using hhead)
    simp [hzero] at hlong

theorem Decimal.numeral_fraction (d : Decimal) :
    ¬ (d.numeral.fraction = [] ∧ d.numeral.exponent = none) := by
  have hne : Nat.toDigits 10 d.digits ≠ [] := Nat.toDigits_ne_nil
  unfold Decimal.numeral
  dsimp only
  split
  · simp
  split
  · simp [hne]
  split
  · simp
  · rename_i hlong
    simpa using hlong

theorem Decimal.numeral_negative (d : Decimal) : d.numeral.negative = d.negative := by
  unfold Decimal.numeral
  dsimp only
  split
  · rfl
  split
  · rfl
  split <;> rfl

theorem Decimal.numeral_value (d : Decimal) :
    (d.numeral.toDecimal.digits : ℚ) * 10 ^ d.numeral.toDecimal.exponent =
      d.digits * 10 ^ d.exponent := by
  have hvalue := digitsValue_toDigits d.digits
  have hlength : 0 < (Nat.toDigits 10 d.digits).length := Nat.length_toDigits_pos
  have horder : d.order = d.exponent + ((Nat.toDigits 10 d.digits).length : Int) - 1 ∨
      d.digits = 0 ∧ d.order = 0 ∧ (Nat.toDigits 10 d.digits).length = 1 := by
    by_cases h : d.digits = 0
    · simp [Decimal.order, h]
    · exact .inl (by rw [Decimal.order, if_neg h])
  unfold Decimal.numeral
  dsimp only
  split
  · have hexponent : -(((Nat.toDigits 10 d.digits).drop 1).length : Int) + d.order =
        d.exponent := by
      rw [List.length_drop]
      omega
    simp only [Numeral.toDecimal, exponentValue_exponentDigits, hexponent]
    rw [List.take_append_drop, hvalue]
  split
  · have hexponent :
        -((List.replicate (-d.order - 1).toNat '0' ++ Nat.toDigits 10 d.digits).length : Int) +
        0 = d.exponent := by
      rw [List.length_append, List.length_replicate]
      omega
    have hdigits : digitsValue (['0'] ++ (List.replicate (-d.order - 1).toNat '0' ++
        Nat.toDigits 10 d.digits)) = d.digits :=
      (digitsValue_zeros_append 1 _).trans ((digitsValue_zeros_append _ _).trans hvalue)
    simp only [Numeral.toDecimal, Numeral.exponentValue, hexponent, hdigits]
  split
  · have hdigits : ∀ k, digitsValue (Nat.toDigits 10 d.digits ++ List.replicate k '0' ++ ['0']) =
        d.digits * 10 ^ (k + 1) := by
      intro k
      rw [List.append_assoc, ← List.replicate_succ', digitsValue_append_zeros, hvalue]
    simp only [Numeral.toDecimal, Numeral.exponentValue, hdigits]
    obtain horder | ⟨hzero, -⟩ := horder
    · have hexponent : d.exponent =
          ((d.order.toNat + 1 - (Nat.toDigits 10 d.digits).length : Nat) : Int) := by omega
      rw [hexponent]
      generalize d.order.toNat + 1 - (Nat.toDigits 10 d.digits).length = k
      push_cast
      rw [zpow_natCast, pow_succ]
      norm_num
      ring
    · simp [hzero]
  · have hexponent : -(((Nat.toDigits 10 d.digits).drop (d.order.toNat + 1)).length : Int) + 0 =
        d.exponent := by
      rw [List.length_drop]
      omega
    simp only [Numeral.toDecimal, Numeral.exponentValue, hexponent]
    rw [List.take_append_drop, hvalue]

theorem Decimal.toFloat_numeral (d : Decimal) : d.numeral.toDecimal.toFloat = d.toFloat := by
  have hnegative : d.numeral.toDecimal.negative = d.negative := d.numeral_negative
  rw [Decimal.toFloat, Decimal.toFloat, hnegative, magnitudeBits_congr d.numeral_value]

end PolarPlot.Number

/-! ## Numerals in front of other text -/

namespace PolarPlot.Document.Json

open Number Numeral Text

/-- Text that does not go on with a number. -/
def EndsNumber (rest : List Char) : Prop :=
  ∀ c ∈ rest.head?, isDecimal c = false ∧ c ≠ '.' ∧ c ≠ 'e' ∧ c ≠ 'E'

theorem digitRun_append {cs rest : List Char} (h : ∀ c ∈ cs, c.isDigit)
    (hrest : ∀ c ∈ rest.head?, isDecimal c = false) : digitRun (cs ++ rest) = cs := by
  have hnil : rest.takeWhile isDecimal = [] := by
    cases rest with
    | nil => rfl
    | cons c rest => rw [List.takeWhile_cons_of_neg (by simp [hrest c rfl])]
  have htake : (cs ++ rest).takeWhile isDecimal = cs ++ rest.takeWhile isDecimal :=
    List.takeWhile_append_of_pos h
  rw [digitRun, htake, hnil, List.append_nil]

theorem wholePart_append {n : Numeral} (h : n.Sound) {rest : List Char}
    (hrest : ∀ c ∈ rest.head?, isDecimal c = false) : wholePart (n.whole ++ rest) = n.whole := by
  obtain ⟨c, cs, hwhole, -⟩ := h.head?_body
  by_cases hc : c = '0'
  · rw [h.leading (by rw [hwhole, hc]; rfl)]
    rfl
  · have hrun := digitRun_append h.whole hrest
    rw [hwhole] at hrun ⊢
    unfold wholePart
    split
    · rename_i heq
      cases heq
      exact (hc rfl).elim
    · exact hrun

theorem fractionPart_append {fraction rest : List Char} (h : ∀ c ∈ fraction, c.isDigit)
    (hrest : ∀ c ∈ rest.head?, isDecimal c = false ∧ c ≠ '.') :
    fractionPart (fractionChars fraction ++ rest) = fractionChars fraction := by
  cases fraction with
  | nil =>
    cases rest with
    | nil => rfl
    | cons c rest =>
      unfold fractionPart
      split
      · rename_i heq
        cases heq
        exact ((hrest '.' rfl).2 rfl).elim
      · rfl
  | cons d ds =>
    have hrun := digitRun_append h fun c hc => (hrest c hc).1
    change (if (digitRun (d :: ds ++ rest)).isEmpty then []
      else '.' :: digitRun (d :: ds ++ rest)) = _
    rw [hrun]
    rfl

theorem exponentPart_append {exponent : Option (Bool × List Char)}
    (h : ∀ e ∈ exponent, (∀ c ∈ e.2, c.isDigit) ∧ e.2 ≠ []) {rest : List Char}
    (hrest : EndsNumber rest) :
    exponentPart (exponentChars exponent ++ rest) = exponentChars exponent := by
  cases exponent with
  | none =>
    cases rest with
    | nil => rfl
    | cons c rest =>
      obtain ⟨-, -, he, hE⟩ := hrest c rfl
      simp [exponentChars, exponentPart, he, hE]
  | some e =>
    obtain ⟨negative, cs⟩ := e
    obtain ⟨hdigits, hne⟩ := h _ rfl
    have hrun := digitRun_append hdigits fun c hc => (hrest c hc).1
    cases negative <;> simp [exponentChars, exponentPart, hrun, hne]

theorem EndsNumber.exponent {rest : List Char} (h : EndsNumber rest)
    (exponent : Option (Bool × List Char)) :
    ∀ c ∈ (exponentChars exponent ++ rest).head?, isDecimal c = false ∧ c ≠ '.' := by
  cases exponent with
  | none => exact fun c hc => ⟨(h c hc).1, (h c hc).2.1⟩
  | some e =>
    rintro _ ⟨⟩
    decide

theorem EndsNumber.fraction {rest : List Char} (h : EndsNumber rest) (fraction : List Char)
    (exponent : Option (Bool × List Char)) :
    ∀ c ∈ (fractionChars fraction ++ (exponentChars exponent ++ rest)).head?,
    isDecimal c = false := by
  cases fraction with
  | nil => exact fun c hc => (h.exponent exponent c hc).1
  | cons =>
    rintro _ ⟨⟩
    decide

theorem signPart_chars {n : Numeral} (h : n.Sound) (rest : List Char) :
    (if (n.chars ++ rest).head? = some '-' then ['-'] else []) = signChars n.negative := by
  rw [chars_eq]
  cases n.negative with
  | true => rfl
  | false =>
    obtain ⟨c, cs, hwhole, hc⟩ := h.head?_body
    have hhead : (signChars false ++ n.body ++ rest).head? = some c := by
      rw [signChars, body, hwhole]
      rfl
    rw [hhead, if_neg (by simpa using (isDigit_ne hc).2.2.2)]
    rfl

/-- A numeral is read up to its end, as an integer if it has neither a fraction nor an exponent. -/
theorem readNumber_chars {n : Numeral} (h : n.Sound) {rest : List Char} (hrest : EndsNumber rest)
    (offset : Nat) :
    readNumber ⟨n.chars ++ rest, offset⟩ =
      if n.fraction = [] ∧ n.exponent = none then
        if integerDigitLimit < n.whole.length then
          fail (.tooLong n.whole.length) ⟨n.chars ++ rest, offset⟩
        else .ok (.int ((readInteger? n.chars).getD 0), ⟨rest, offset + n.chars.length⟩)
      else .ok (.num n.toDecimal.toFloat, ⟨rest, offset + n.chars.length⟩) := by
  have hbody : (n.chars ++ rest).drop (signChars n.negative).length =
      n.whole ++ (fractionChars n.fraction ++ (exponentChars n.exponent ++ rest)) := by
    simp [chars]
  have hwhole := wholePart_append h (hrest.fraction n.fraction n.exponent)
  have hfraction := fractionPart_append h.fraction (hrest.exponent n.exponent)
  have hexponent := exponentPart_append h.exponent hrest
  have hdrop : (n.whole ++ (fractionChars n.fraction ++ (exponentChars n.exponent ++ rest))).drop
      (n.whole.length + (fractionChars n.fraction).length) = exponentChars n.exponent ++ rest := by
    rw [← List.append_assoc, ← List.length_append]
    exact List.drop_left
  have hempty : (fractionChars n.fraction).isEmpty && (exponentChars n.exponent).isEmpty ↔
      n.fraction = [] ∧ n.exponent = none := by
    cases n.fraction <;> cases n.exponent <;> simp [fractionChars, exponentChars]
  simp only [readNumber, signPart_chars h, hbody, hwhole, List.drop_left, hfraction, hdrop,
    hexponent]
  have hchars : signChars n.negative ++ n.whole ++ fractionChars n.fraction ++
      exponentChars n.exponent = n.chars := rfl
  simp only [hchars, hempty, h.read?_chars, Place.drop, List.drop_left]
  rw [if_neg (by simp [h.whole_ne])]
  rfl

end PolarPlot.Document.Json
